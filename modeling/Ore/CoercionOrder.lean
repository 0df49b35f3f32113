import Ore.CoercionRules

namespace Ore.CoercionOrder

open EffectRows InternKeys TypeHoles Coercions

section Ground

/-- No variable, no error and no missing index in a row. -/
def closedRow : Row → Bool
  | .none | .error | .var _ => false
  | .row _ tail => closedRow tail
  | .type _ | .empty => true

def rowOf : Ty → Row
  | .fn _ _ _ _ _ row => row
  | _ => .empty

/-- No hole, no row variable, no error and no IP_NONE anywhere. -/
inductive Ground : Ty → Prop
  | intro {t : Ty} (hnone : t ≠ .none) (herror : t ≠ .prim .error) (hvar : t.varId = none)
      (hrow : closedRow (rowOf t) = true) (hchildren : ∀ c ∈ t.children, Ground c) : Ground t

variable {t : Ty}

theorem Ground.ne_none (h : Ground t) : t ≠ .none := by
  cases h
  assumption

theorem Ground.ne_error (h : Ground t) : t ≠ .prim .error := by
  cases h
  assumption

theorem Ground.row (h : Ground t) : closedRow (rowOf t) = true := by
  cases h
  assumption

theorem Ground.child (h : Ground t) {c : Ty} (hc : c ∈ t.children) : Ground c := by
  cases h with
  | intro _ _ _ _ hchildren => exact hchildren c hc

end Ground

section Relation

def shapeFits (a e : Ty) : Bool := dropsMut a e || arrayDecays a e || nilFits a e

/-- What the structural rules relate. -/
inductive Coerced : Ty → Ty → Prop
  | refl (t : Ty) : Coerced t t
  | noreturn (e : Ty) : Coerced (.prim .noreturn) e
  | shape {a e : Ty} (h : shapeFits a e = true) : Coerced a e
  | lift {a e : Ty} (h : Coerced a e) : Coerced a (.optional e)
  | fn {ret ret' : Ty} {params params' : List Ty} {modifiers c c' v v' : Nat} {row row' : Row}
      (hret : Coerced ret ret') (hlen : params.length = params'.length)
      (hparams : ∀ (i : Nat) (p p' : Ty), params[i]? = some p → params'[i]? = some p' → Coerced p' p)
      (hrow : row = row' ∨ row = .empty) :
      Coerced (.fn ret params modifiers c v row) (.fn ret' params' modifiers c' v' row')
  | numeric {a e : Ty} (h : numericFits a e = true) : Coerced a e

attribute [local simp] shapeFits dropsMut arrayDecays nilFits numericFits isConcreteInt isConcreteFloat isSignedInt
  isUnsignedInt

variable {a b e t : Ty}

theorem numericFits_trans (h : numericFits a b = true) (h' : numericFits b e = true) :
    numericFits a e = true := by
  cases b with
  | prim q => cases q <;> simp_all [intBits] <;> grind
  | _ => simp at h'

theorem Coerced.optional_size (h : Coerced a e) {t : Ty} (ha : a = .optional t) : sizeOf a ≤ sizeOf e := by
  induction h with
  | refl t => exact le_rfl
  | noreturn e => cases ha
  | shape h =>
      subst ha
      simp at h
  | lift h ih =>
      have := ih ha
      simp
      omega
  | fn => cases ha
  | numeric h =>
      subst ha
      simp at h

theorem Coerced.of_optional (h : Coerced (.optional t) e) : ∃ u, e = .optional u := by
  generalize ha : Ty.optional t = a at h
  cases h with
  | refl => exact ⟨t, ha.symm⟩
  | noreturn e => cases ha
  | shape h =>
      subst ha
      simp at h
  | lift h => exact ⟨_, rfl⟩
  | fn => cases ha
  | numeric h =>
      subst ha
      simp at h

theorem Coerced.to_noreturn (h : Coerced a (.prim .noreturn)) : a = .prim .noreturn := by
  generalize he : Ty.prim .noreturn = e at h
  cases h with
  | refl => rfl
  | noreturn => exact he
  | shape h =>
      subst he
      cases a <;> simp at h
  | lift h => cases he
  | fn => cases he
  | numeric h =>
      subst he
      simp at h

theorem shapeFits_trans (h : shapeFits a b = true) (h' : shapeFits b e = true) : shapeFits a e = true := by
  cases b with
  | ptr b kb | slice b kb | manyPtr b kb =>
      cases a <;> cases e <;> simp at h h' ⊢ <;> grind
  | _ => cases a <;> simp_all

theorem nil_of_shapeFits {p : Primitive} (h : shapeFits (.prim p) e = true) : p = .nil := by
  cases p <;> simp at h ⊢

theorem not_shapeFits_prim (a : Ty) (p : Primitive) : shapeFits a (.prim p) = false := by
  cases a <;> simp

theorem prim_of_numericFits (h : numericFits a e = true) : (∃ p, a = .prim p) ∧ ∃ p, e = .prim p ∧ p ≠ .nil := by
  cases a <;> cases e <;> simp at h ⊢
  rintro rfl
  simp at h

/-- Coercions compose. The parameters of function types turn the order around,
so the induction is on the three sizes together. -/
theorem Coerced.trans_of_size (n : Nat) : ∀ {a b e : Ty}, sizeOf a + sizeOf b + sizeOf e ≤ n →
    Coerced a b → Coerced b e → Coerced a e := by
  induction n with
  | zero =>
      intro a b e hn
      cases a <;> simp at hn
  | succ n ih =>
      intro a b e hn h h'
      cases h' with
      | refl => exact h
      | noreturn =>
          rw [h.to_noreturn]
          exact .noreturn e
      | lift h' =>
          refine .lift (ih ?_ h h')
          simp at hn
          omega
      | shape h' =>
          cases h with
          | refl => exact .shape h'
          | noreturn => exact .noreturn e
          | shape h => exact .shape (shapeFits_trans h h')
          | lift => simp at h'
          | fn => simp at h'
          | numeric h =>
              obtain ⟨-, p, rfl, hp⟩ := prim_of_numericFits h
              exact absurd (nil_of_shapeFits h') hp
      | numeric h' =>
          cases h with
          | refl => exact .numeric h'
          | noreturn => exact .noreturn e
          | shape h =>
              obtain ⟨⟨p, rfl⟩, -⟩ := prim_of_numericFits h'
              rw [not_shapeFits_prim] at h
              cases h
          | lift => simp at h'
          | fn => simp at h'
          | numeric h => exact .numeric (numericFits_trans h h')
      | @fn _ _ params₂ _ _ _ _ _ _ _ _ hret' hlen' hparams' hrow' =>
          cases h with
          | refl => exact .fn hret' hlen' hparams' hrow'
          | noreturn => exact .noreturn _
          | shape h => cases a <;> simp at h
          | numeric h => simp at h
          | fn hret hlen hparams hrow =>
              refine .fn (ih ?_ hret hret') (hlen.trans hlen') (fun i p p' hp hp' => ?_) ?_
              · simp at hn
                omega
              · obtain ⟨q, hq⟩ : ∃ q, params₂[i]? = some q := by
                  have hi := (List.getElem?_eq_some_iff.mp hp).1
                  exact ⟨_, List.getElem?_eq_getElem (hlen ▸ hi)⟩
                refine ih ?_ (hparams' i q p' hq hp') (hparams i p q hp hq)
                have h₁ := List.sizeOf_lt_of_mem (List.mem_of_getElem? hp)
                have h₂ := List.sizeOf_lt_of_mem (List.mem_of_getElem? hq)
                have h₃ := List.sizeOf_lt_of_mem (List.mem_of_getElem? hp')
                simp at hn
                omega
              · rcases hrow with rfl | rfl
                · exact hrow'
                · exact .inr rfl

theorem Coerced.trans (h : Coerced a b) (h' : Coerced b e) : Coerced a e :=
  trans_of_size _ le_rfl h h'

mutual

/-- The type with no comptime and no type-valued parameter. -/
def plain : Ty → Ty
  | .optional e => .optional (plain e)
  | .ptr e isConst => .ptr (plain e) isConst
  | .slice e isConst => .slice (plain e) isConst
  | .manyPtr e isConst => .manyPtr (plain e) isConst
  | .array e size => .array (plain e) size
  | .fn ret params modifiers _ _ row => .fn (plain ret) (plainAll params) modifiers 0 0 row
  | t => t

def plainAll : List Ty → List Ty
  | [] => []
  | t :: ts => plain t :: plainAll ts

end

theorem plainAll_eq {ts us : List Ty} (hlen : ts.length = us.length)
    (h : ∀ (i : Nat) (t u : Ty), ts[i]? = some t → us[i]? = some u → plain t = plain u) :
    plainAll ts = plainAll us := by
  induction ts generalizing us with
  | nil =>
      cases us with
      | nil => rfl
      | cons => cases hlen
  | cons t ts ih =>
      cases us with
      | nil => cases hlen
      | cons u us =>
          have ht : plain t = plain u := h 0 t u rfl rfl
          have hts : plainAll ts = plainAll us :=
            ih (by simpa using hlen) fun i t u ht hu => h (i + 1) t u ht hu
          rw [plainAll, plainAll, ht, hts]

theorem numericFits_asymm (h : numericFits a b = true) : numericFits b a = false := by
  obtain ⟨⟨p, rfl⟩, q, rfl, -⟩ := prim_of_numericFits h
  cases p <;> simp at h ⊢ <;>
    cases q <;> simp_all [intBits]

theorem shapeFits_antisymm (h : shapeFits a b = true) (h' : shapeFits b a = true) : a = b := by
  cases a <;> cases b <;> simp at h h' ⊢ <;> grind

/-- Types that coerce to each other differ in parameter bits alone. -/
theorem Coerced.antisymm_of_size (n : Nat) : ∀ {a b : Ty}, sizeOf a + sizeOf b ≤ n →
    Coerced a b → Coerced b a → plain a = plain b := by
  induction n with
  | zero =>
      intro a b hn
      cases a <;> simp at hn
  | succ n ih =>
      intro a b hn h h'
      cases h with
      | refl => rfl
      | noreturn => rw [h'.to_noreturn]
      | @lift _ b h =>
          obtain ⟨u, rfl⟩ := h'.of_optional
          have h₁ := h.optional_size rfl
          have h₂ := h'.optional_size rfl
          simp at h₁ h₂
          omega
      | shape h =>
          cases h' with
          | refl => rfl
          | noreturn =>
              rw [not_shapeFits_prim] at h
              cases h
          | shape h' => rw [shapeFits_antisymm h h']
          | lift => cases b <;> simp at h
          | fn => simp at h
          | numeric h' =>
              obtain ⟨-, p, rfl, hp⟩ := prim_of_numericFits h'
              exact absurd (nil_of_shapeFits h) hp
      | numeric h =>
          obtain ⟨⟨p, rfl⟩, q, rfl, hq⟩ := prim_of_numericFits h
          cases h' with
          | refl => rfl
          | noreturn => cases p <;> simp at h
          | shape h' =>
              rw [not_shapeFits_prim] at h'
              cases h'
          | numeric h' =>
              rw [numericFits_asymm h] at h'
              cases h'
      | fn hret hlen hparams hrow =>
          cases h' with
          | refl => rfl
          | shape h' => simp at h'
          | numeric h' => simp at h'
          | fn hret' hlen' hparams' hrow' =>
              have hplain := ih (by simp at hn; omega) hret hret'
              have hall := plainAll_eq hlen fun i p q hp hq => by
                have h₁ := List.sizeOf_lt_of_mem (List.mem_of_getElem? hp)
                have h₂ := List.sizeOf_lt_of_mem (List.mem_of_getElem? hq)
                exact ih (by simp at hn; omega) (hparams' i q p hq hp) (hparams i p q hp hq)
              have hrows := hrow.elim id fun h => hrow'.elim Eq.symm fun h' => h.trans h'.symm
              rw [plain, plain, hplain, hall, hrows]

theorem Coerced.antisymm (h : Coerced a b) (h' : Coerced b a) : plain a = plain b :=
  antisymm_of_size _ le_rfl h h'

end Relation

section Frameless

/-- No inference frame: neither holes nor rows are bound. -/
def frameless : Ctx := ⟨none, none⟩

def Answers (p : Check) (ok : Bool) : Prop := p frameless = some (ok, frameless)

variable {p q : Check} {ok ok' : Bool} {a e : Ty} {coerce : Ty → Ty → Check}

theorem Answers.andThen (hp : Answers p ok) (hq : Answers q ok') : Answers (p.andThen q) (ok && ok') := by
  unfold Answers at hp hq ⊢
  cases ok <;> simp [Check.andThen, hp, hq]

theorem Answers.orElse (hp : Answers p ok) (hq : Answers q ok') : Answers (p.orElse q) (ok || ok') := by
  unfold Answers at hp hq ⊢
  cases ok <;> simp [Check.orElse, hp, hq]

/-- The check answers, and yes exactly when `P` holds. -/
def Decides (p : Check) (P : Prop) : Prop := ∃ ok, Answers p ok ∧ (ok = true ↔ P)

theorem Decides.andThen {P Q : Prop} (hp : Decides p P) (hq : Decides q Q) : Decides (p.andThen q) (P ∧ Q) := by
  obtain ⟨ok, hok, hP⟩ := hp
  obtain ⟨ok', hok', hQ⟩ := hq
  exact ⟨ok && ok', hok.andThen hok', by rw [Bool.and_eq_true, hP, hQ]⟩

theorem Decides.orElse {P Q : Prop} (hp : Decides p P) (hq : Decides q Q) : Decides (p.orElse q) (P ∨ Q) := by
  obtain ⟨ok, hok, hP⟩ := hp
  obtain ⟨ok', hok', hQ⟩ := hq
  exact ⟨ok || ok', hok.orElse hok', by rw [Bool.or_eq_true, hP, hQ]⟩

theorem decides_holds (b : Bool) : Decides (Check.holds b) (b = true) := ⟨b, rfl, Iff.rfl⟩

theorem Decides.congr {P Q : Prop} (h : Decides p P) (hPQ : P ↔ Q) : Decides p Q := by
  obtain ⟨ok, hok, hP⟩ := h
  exact ⟨ok, hok, hP.trans hPQ⟩

theorem paramsCoerce_decides {R : Ty → Ty → Prop} {ps ps' : List Ty} (hlen : ps.length = ps'.length)
    (h : ∀ p ∈ ps, ∀ p' ∈ ps', Decides (coerce p' p) (R p' p)) :
    Decides (paramsCoerce coerce ps ps')
      (∀ (i : Nat) (p p' : Ty), ps[i]? = some p → ps'[i]? = some p' → R p' p) := by
  induction ps generalizing ps' with
  | nil => exact (decides_holds true).congr (by simp)
  | cons p ps ih =>
      cases ps' with
      | nil => cases hlen
      | cons p' ps' =>
          have hhead := h p List.mem_cons_self p' List.mem_cons_self
          have htail := ih (by simpa using hlen) fun q hq q' hq' =>
            h q (List.mem_cons_of_mem _ hq) q' (List.mem_cons_of_mem _ hq')
          refine (hhead.andThen htail).congr ⟨fun ⟨hp, hps⟩ i q q' hq hq' => ?_, fun hall => ⟨?_, ?_⟩⟩
          · cases i with
            | zero =>
                cases hq
                cases hq'
                exact hp
            | succ i => exact hps i q q' hq hq'
          · exact hall 0 p p' rfl rfl
          · exact fun i q q' hq hq' => hall (i + 1) q q' hq hq'

theorem rowsAgree_decides (depth : Nat) {row row' : Row} (h : closedRow row = true) (h' : closedRow row' = true) :
    Decides (rowsAgree depth row row') (row = row' ∨ row = .empty) := by
  have hrow : row ≠ .error := by
    rintro rfl
    cases h
  have hrow' : row' ≠ .error := by
    rintro rfl
    cases h'
  by_cases hsame : row = row'
  · exact ⟨true, by simp [Answers, rowsAgree, hsame], by simp [hsame]⟩
  · exact ⟨row = .empty, by simp [Answers, rowsAgree, hsame, hrow, hrow', frameless], by simp [hsame]⟩

def LiftCoerced (a : Ty) : Ty → Prop
  | .optional u => Coerced a u
  | _ => False

def FnCoerced : Ty → Ty → Prop
  | .fn ret params modifiers _ _ row, .fn ret' params' modifiers' _ _ row' =>
      (params.length = params'.length ∧ modifiers = modifiers') ∧ Coerced ret ret' ∧
        (∀ (i : Nat) (p p' : Ty), params[i]? = some p → params'[i]? = some p' → Coerced p' p) ∧
        (row = row' ∨ row = .empty)
  | _, _ => False

theorem coerced_iff (hne : a ≠ e) (hnoreturn : a ≠ .prim .noreturn) :
    Coerced a e ↔ shapeFits a e = true ∨ LiftCoerced a e ∨ FnCoerced a e ∨ numericFits a e = true := by
  constructor
  · intro h
    cases h with
    | refl => exact absurd rfl hne
    | noreturn => exact absurd rfl hnoreturn
    | shape h => exact .inl h
    | lift h => exact .inr (.inl h)
    | fn hret hlen hparams hrow => exact .inr (.inr (.inl ⟨⟨hlen, rfl⟩, hret, hparams, hrow⟩))
    | numeric h => exact .inr (.inr (.inr h))
  · rintro (h | h | h | h)
    · exact .shape h
    · cases e with
      | optional u => exact .lift h
      | _ => exact h.elim
    · cases a with
      | fn ret params modifiers c v row =>
          cases e with
          | fn ret' params' modifiers' c' v' row' =>
              obtain ⟨⟨hlen, rfl⟩, hret, hparams, hrow⟩ := h
              exact .fn hret hlen hparams hrow
          | _ => exact h.elim
      | _ => exact h.elim
    · exact .numeric h

theorem liftCoerces_decides (h : ∀ u ∈ e.children, Decides (coerce a u) (Coerced a u)) :
    Decides (liftCoerces coerce a e) (LiftCoerced a e) := by
  cases e with
  | optional u => exact h u (by simp [Ty.children])
  | _ => exact (decides_holds false).congr (by simp [LiftCoerced])

theorem fnCoerces_decides (depth : Nat) (ha : Ground a) (he : Ground e)
    (h : ∀ c ∈ a.children, ∀ u ∈ e.children,
      Decides (coerce c u) (Coerced c u) ∧ Decides (coerce u c) (Coerced u c)) :
    Decides (fnCoerces depth coerce a e) (FnCoerced a e) := by
  cases a with
  | fn ret params modifiers c v row =>
      cases e with
      | fn ret' params' modifiers' c' v' row' =>
          rw [fnCoerces]
          split_ifs with hshape
          · have hret := (h ret (by simp [Ty.children]) ret' (by simp [Ty.children])).1
            have hparams := paramsCoerce_decides hshape.1 fun p hp p' hp' =>
              (h p (by simp [Ty.children, hp]) p' (by simp [Ty.children, hp'])).2
            have hrows := rowsAgree_decides depth ha.row he.row
            exact (hret.andThen (hparams.andThen hrows)).congr (by simp [FnCoerced, hshape, rowOf])
          · exact (decides_holds false).congr (by simp [FnCoerced, hshape])
      | _ => exact (decides_holds false).congr (by simp [FnCoerced])
  | _ => exact (decides_holds false).congr (by simp [FnCoerced])

theorem shapesCoerce_decides (depth : Nat) (ha : Ground a) (he : Ground e) (hne : a ≠ e)
    (hnoreturn : a ≠ .prim .noreturn) (hlift : ∀ u ∈ e.children, Decides (coerce a u) (Coerced a u))
    (hfn : ∀ c ∈ a.children, ∀ u ∈ e.children,
      Decides (coerce c u) (Coerced c u) ∧ Decides (coerce u c) (Coerced u c)) :
    Decides (shapesCoerce depth coerce a e) (Coerced a e) := by
  rw [shapesCoerce]
  split_ifs with hshape
  · exact (decides_holds true).congr (by simp [Coerced.shape hshape])
  · refine ((liftCoerces_decides hlift).orElse
      ((fnCoerces_decides depth ha he hfn).orElse (decides_holds _))).congr ?_
    rw [coerced_iff hne hnoreturn]
    simp [shapeFits, hshape]

theorem coerce_decides (n : Nat) : ∀ {a e : Ty}, sizeOf a + sizeOf e ≤ n → Ground a → Ground e →
    Decides (coerceStructuralCtx (n + 1) a e) (Coerced a e) := by
  induction n with
  | zero =>
      intro a e hn
      cases a <;> simp at hn
  | succ n ih =>
      intro a e hn ha he
      by_cases habs : absorbs a e = true
      · refine ⟨true, by simp [Answers, coerceStructuralCtx, coerceWith, habs], iff_of_true rfl ?_⟩
        simp only [absorbs, ha.ne_none, he.ne_none, ha.ne_error, he.ne_error, decide_false, Bool.false_or,
          Bool.or_eq_true, decide_eq_true_eq] at habs
        rcases habs with rfl | rfl
        · exact .refl a
        · exact .noreturn e
      · have hne : a ≠ e ∧ a ≠ .prim .noreturn := by
          simp only [absorbs, Bool.or_eq_true, decide_eq_true_eq, not_or] at habs
          exact ⟨habs.1.2, habs.2⟩
        have hshapes : Decides (shapesCoerce (n + 1) (coerceStructuralCtx (n + 1)) a e) (Coerced a e) := by
          refine shapesCoerce_decides (n + 1) ha he hne.1 hne.2 (fun u hu => ?_) fun c hc u hu => ⟨?_, ?_⟩
          · have := Ty.sizeOf_child hu
            exact ih (by omega) ha (he.child hu)
          · have := Ty.sizeOf_child hc
            have := Ty.sizeOf_child hu
            exact ih (by omega) (ha.child hc) (he.child hu)
          · have := Ty.sizeOf_child hc
            have := Ty.sizeOf_child hu
            exact ih (by omega) (he.child hu) (ha.child hc)
        obtain ⟨ok, hok, hiff⟩ := hshapes
        refine ⟨ok, ?_, hiff⟩
        simpa [Answers, coerceStructuralCtx, coerceWith, habs, holeRule, frameless] using hok

/-- `coerce_structural` with no inference context. -/
def CoercesTo (a e : Ty) : Prop := ∃ depth, Answers (coerceStructuralCtx depth a e) true

theorem coercesTo_iff (ha : Ground a) (he : Ground e) : CoercesTo a e ↔ Coerced a e := by
  obtain ⟨ok, hok, hiff⟩ := coerce_decides _ le_rfl ha he
  constructor
  · rintro ⟨depth, hdepth⟩
    have hsame := CoercionRules.coerceWith_unique hok hdepth
    exact hiff.mp (Prod.mk.inj hsame).1
  · intro h
    obtain rfl := hiff.mpr h
    exact ⟨_, hok⟩

/-- On ground types the coercion answers, is reflexive and transitive, and two
types that coerce to each other differ in parameter bits alone. -/
theorem coercion_preorder :
    (∀ a e, Ground a → Ground e → ∃ depth ok, Answers (coerceStructuralCtx depth a e) ok) ∧
    (∀ a, Ground a → CoercesTo a a) ∧
    (∀ a b e, Ground a → Ground b → Ground e → CoercesTo a b → CoercesTo b e → CoercesTo a e) ∧
    ∀ a b, Ground a → Ground b → CoercesTo a b → CoercesTo b a → plain a = plain b := by
  refine ⟨fun a e ha he => ?_, fun a ha => ?_, fun a b e ha hb he h h' => ?_, fun a b ha hb h h' => ?_⟩
  · obtain ⟨ok, hok, -⟩ := coerce_decides _ le_rfl ha he
    exact ⟨_, ok, hok⟩
  · exact (coercesTo_iff ha ha).mpr (.refl a)
  · rw [coercesTo_iff ha hb] at h
    rw [coercesTo_iff hb he] at h'
    exact (coercesTo_iff ha he).mpr (h.trans h')
  · rw [coercesTo_iff ha hb] at h
    rw [coercesTo_iff hb ha] at h'
    exact h.antisymm h'

theorem ground_prim {p : Primitive} (h : p ≠ .error) : Ground (.prim p) :=
  .intro (by simp) (by simpa using h) rfl rfl (by simp [Ty.children])

theorem ground_optional {t : Ty} (h : Ground t) : Ground (.optional t) :=
  .intro (by simp) (by simp) rfl rfl (by simpa [Ty.children] using h)

/-- A byte widens, and the wider integer is lifted. -/
theorem coercion_preorder_lift : CoercesTo (.prim .u8) (.optional (.prim .i16)) :=
  coercion_preorder.2.2.1 (.prim .u8) (.prim .i16) (.optional (.prim .i16)) (ground_prim (by decide))
    (ground_prim (by decide)) (ground_optional (ground_prim (by decide))) ⟨1, rfl⟩ ⟨2, rfl⟩

end Frameless

end Ore.CoercionOrder
