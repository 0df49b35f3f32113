import Mathlib.Data.Set.Card
import Ore.CoercionRules
import Ore.TypeSubstitution

namespace Ore.TypeHoleRuns

open BindingGraph InternKeys TypeHoles TypeHoleCycles TypeSubstitution Coercions CoercionRules Relation

variable {σ σ' : TypeSubst} {c c' : Ctx} {actual expected : Ty}

section Equations

/-- The pairs of types that the coercion of `actual` to `expected` can bring
together: a bound hole and its type, the two types, what their shapes lead to,
and types paired with the same hole. -/
inductive Meets (σ : TypeSubst) (actual expected : Ty) : Ty → Ty → Prop
  | given {i : Nat} {t : Ty} (h : binding σ i = some t) : Meets σ actual expected (.var i) t
  | start : Meets σ actual expected actual expected
  | shapes {a e a' e' : Ty} (h : Meets σ actual expected a e) (ha : a.varId = none) (he : e.varId = none)
      (habs : absorbs a e = false) (hl : Leads a e a' e') : Meets σ actual expected a' e'
  | through {a e : Ty} {i : Nat} (h : Meets σ actual expected a (.var i))
      (h' : Meets σ actual expected (.var i) e) : Meets σ actual expected a e
  | fork {t e : Ty} {i : Nat} (h : Meets σ actual expected (.var i) t)
      (h' : Meets σ actual expected (.var i) e) : Meets σ actual expected t e
  | join {a t : Ty} {i : Nat} (h : Meets σ actual expected a (.var i))
      (h' : Meets σ actual expected t (.var i)) : Meets σ actual expected a t

/-- The types paired with a hole. -/
def Stands (meets : Ty → Ty → Prop) (i : Nat) (t : Ty) : Prop := meets (.var i) t ∨ meets t (.var i)

/-- Paired holes have one rank, and a hole paired with another type lies above
the holes in it. No more holes share a rank than `type_resolve` follows. -/
structure Ranks (meets : Ty → Ty → Prop) (rank : Nat → Nat) : Prop where
  level : ∀ i j, Stands meets i (.var j) → rank j = rank i
  above : ∀ i t, Stands meets i t → t.varId = none → ∀ j ∈ t.holes, rank j < rank i
  few : ∀ r, {i | rank i = r ∧ ∃ t, Stands meets i t}.encard ≤ 64

/-- The pairs ask of no hole that it contain itself. -/
def Solvable (σ : TypeSubst) (actual expected : Ty) : Prop := ∃ rank, Ranks (Meets σ actual expected) rank

/-- The bindings in force are among the pairs, and no hole is reached from its own. -/
structure Solving (meets : Ty → Ty → Prop) (σ : TypeSubst) : Prop where
  paired : ∀ i t, binding σ i = some t → Stands meets i t
  acyclic : Acyclic (Follows σ)

theorem holeRule_fill {a e t : Ty} {id : Nat} (hσ : c.typeSubst = some σ) (h : holeRule c a e = .fill id t) :
    (typeResolve σ e = .var id ∧ typeResolve σ a = t ∧ t ≠ .var id) ∨
      (typeResolve σ a = .var id ∧ typeResolve σ e = t ∧ t.varId = none) := by
  have hvar : ∀ {u : Ty} {i : Nat}, u.varId = some i → u = .var i := by
    intro u i hu
    cases u <;> cases hu
    rfl
  simp only [holeRule, hσ] at h
  split at h
  · split at h
    · cases h
    · cases h
      have he := hvar ‹_ = some _›
      exact .inl ⟨he, rfl, fun ha => ‹¬ _› (ha.trans he.symm)⟩
  · cases h
    exact .inr ⟨hvar ‹_ = some _›, rfl, ‹_ = none›⟩
  · split at h <;> cases h

theorem holeRule_resolved {a e ra re : Ty} (hσ : c.typeSubst = some σ)
    (h : holeRule c a e = .resolved ra re) : ra = typeResolve σ a ∧ re = typeResolve σ e := by
  simp only [holeRule, hσ] at h
  split at h
  · split at h <;> cases h
  · cases h
  · split at h <;> cases h
    exact ⟨rfl, rfl⟩

theorem holeRule_shapes {a e : Ty} (hσ : c.typeSubst = some σ) (h : holeRule c a e = .shapes) :
    a.varId = none ∧ e.varId = none := by
  simp only [holeRule, hσ] at h
  split at h
  · split at h <;> cases h
  · cases h
  · split at h
    · cases h
    · obtain ⟨ha, he⟩ := not_or.mp ‹¬ (_ ∨ _)›
      rw [not_not] at ha he
      rw [← ha, ← he]
      exact ⟨‹_›, ‹_›⟩

section Pairs

variable {rank : Nat → Nat}

theorem Meets.left {e t : Ty} {i : Nat} (h : Meets σ actual expected (.var i) e)
    (ht : Stands (Meets σ actual expected) i t) : Meets σ actual expected t e :=
  ht.elim (fun ht => .fork ht h) fun ht => .through ht h

theorem Meets.right {a t : Ty} {i : Nat} (h : Meets σ actual expected a (.var i))
    (ht : Stands (Meets σ actual expected) i t) : Meets σ actual expected a t :=
  ht.elim (fun ht => .through h ht) fun ht => .join h ht

/-- A hole that is followed stands among the pairs for what it is bound to. -/
theorem Meets.resolve {a e : Ty} (hσ : Solving (Meets σ actual expected) σ') (h : Meets σ actual expected a e) :
    Meets σ actual expected (typeResolve σ' a) (typeResolve σ' e) := by
  have hactual : ∀ n {a : Ty}, Meets σ actual expected a e → Meets σ actual expected (chase σ' n a) e := by
    intro n
    induction n with
    | zero => exact fun h => h
    | succ n ih =>
        intro a h
        cases a with
        | var i =>
            cases hb : binding σ' i with
            | none => simpa [chase, hb] using h
            | some t => simpa [chase, hb] using ih (h.left (hσ.paired i t hb))
        | _ => exact h
  have hexpected : ∀ n {a e : Ty}, Meets σ actual expected a e → Meets σ actual expected a (chase σ' n e) := by
    intro n
    induction n with
    | zero => exact fun h => h
    | succ n ih =>
        intro a e h
        cases e with
        | var i =>
            cases hb : binding σ' i with
            | none => simpa [chase, hb] using h
            | some t => simpa [chase, hb] using ih (h.right (hσ.paired i t hb))
        | _ => exact h
  exact hexpected 64 (hactual 64 h)

theorem Ranks.follows_le {meets : Ty → Ty → Prop} (h : Ranks meets rank) (hσ : Solving meets σ) {i j : Nat}
    (hij : Follows σ i j) : rank j ≤ rank i := by
  obtain ⟨t, hb, hj⟩ := hij
  have hstands := hσ.paired i t hb
  cases hv : t.varId with
  | some k =>
      cases t <;> cases hv
      obtain rfl : j = k := by simpa [Ty.holes] using hj
      exact (h.level i j hstands).le
  | none => exact (h.above i t hstands hv j hj).le

theorem Ranks.reaches_le {meets : Ty → Ty → Prop} (h : Ranks meets rank) (hσ : Solving meets σ) {i j : Nat}
    (hij : ReflTransGen (Follows σ) i j) : rank j ≤ rank i := by
  induction hij with
  | refl => exact le_rfl
  | tail _ hstep ih => exact (h.follows_le hσ hstep).trans ih

theorem Ranks.chain_holes {meets : Ty → Ty → Prop} (h : Ranks meets rank) (hσ : Solving meets σ) {n i : Nat}
    (hchain : HoleChain σ n i) : ∃ s : Finset Nat, s.card = n + 1 ∧ ∀ k ∈ s,
      ReflTransGen (Follows σ) i k ∧ rank k = rank i ∧ (k = i ∨ ∃ t, Stands meets k t) := by
  induction hchain with
  | single i =>
      refine ⟨{i}, rfl, fun k hk => ?_⟩
      obtain rfl := Finset.mem_singleton.mp hk
      exact ⟨.refl, rfl, .inl rfl⟩
  | @cons n i j hb rest ih =>
      obtain ⟨s, hcard, hs⟩ := ih
      have hfollow : Follows σ i j := ⟨_, hb, by simp [Ty.holes]⟩
      have hstands := hσ.paired i _ hb
      have hfresh : i ∉ s := fun hi => hσ.acyclic i (.head' hfollow (hs i hi).1)
      refine ⟨insert i s, by rw [Finset.card_insert_of_notMem hfresh, hcard], fun k hk => ?_⟩
      rcases Finset.mem_insert.mp hk with rfl | hk
      · exact ⟨.refl, rfl, .inl rfl⟩
      · obtain ⟨hreach, hrank, hpaired⟩ := hs k hk
        refine ⟨.head hfollow hreach, hrank.trans (h.level i j hstands), .inr ?_⟩
        rcases hpaired with rfl | hpaired
        · exact ⟨.var i, hstands.symm⟩
        · exact hpaired

theorem Ranks.shortChains {meets : Ty → Ty → Prop} (h : Ranks meets rank) (hσ : Solving meets σ) :
    ShortChains σ := by
  intro n i hchain
  obtain ⟨s, hcard, hs⟩ := h.chain_holes hσ hchain
  cases hchain with
  | single => omega
  | @cons m _ _ hb rest =>
      have hsub : (s : Set Nat) ⊆ {k | rank k = rank i ∧ ∃ t, Stands meets k t} := by
        intro k hk
        obtain ⟨-, hrank, rfl | hpaired⟩ := hs k hk
        · exact ⟨rfl, _, hσ.paired k _ hb⟩
        · exact ⟨hrank, hpaired⟩
      have hle := (Set.encard_le_encard hsub).trans (h.few (rank i))
      rw [Set.encard_coe_eq_coe_finsetCard, hcard] at hle
      have hcap : m + 1 + 1 ≤ 64 := by exact_mod_cast hle
      omega

theorem Solving.fill {a e t : Ty} {id : Nat} (h : Solving (Meets σ actual expected) σ')
    (hrank : Ranks (Meets σ actual expected) rank) (hmeets : Meets σ actual expected a e)
    (hσ' : c.typeSubst = some σ') (hrule : holeRule c a e = .fill id t) :
    Solving (Meets σ actual expected) (typeSubstBind σ' id t) := by
  have hresolved := hmeets.resolve h
  have hfree : binding σ' id = none ∧ Stands (Meets σ actual expected) id t ∧
      ∀ i, t.varId = some i → i ≠ id ∧ binding σ' i = none := by
    have hshort := hrank.shortChains h
    rcases holeRule_fill hσ' hrule with ⟨he, ha, hne⟩ | ⟨ha, he, hnone⟩
    · refine ⟨typeResolve_unbound hshort (t := e) (by rw [he]; rfl), .inr (by rwa [ha, he] at hresolved), ?_⟩
      intro i hi
      refine ⟨?_, typeResolve_unbound hshort (t := a) (by rw [ha, hi])⟩
      rintro rfl
      exact hne (by cases t <;> cases hi; rfl)
    · refine ⟨typeResolve_unbound hshort (t := a) (by rw [ha]; rfl), .inl (by rwa [ha, he] at hresolved), ?_⟩
      intro i hi
      rw [hnone] at hi
      cases hi
  obtain ⟨hid, hstands, hvar⟩ := hfree
  constructor
  · intro i u hb
    by_cases ht : t = .none
    · rw [ht, binding_unbind] at hb
      split at hb
      · cases hb
      · exact h.paired i u hb
    · rw [binding_bind id ht] at hb
      split at hb
      · cases hb
        subst i
        exact hstands
      · exact h.paired i u hb
  · refine (bind_acyclic_iff h.acyclic id t).mpr fun i hi hreach => ?_
    cases hv : t.varId with
    | some k =>
        obtain ⟨hne, hunbound⟩ := hvar k hv
        cases t <;> cases hv
        obtain rfl : i = k := by simpa [Ty.holes] using hi
        rcases hreach.cases_head with heq | ⟨j, ⟨u, hu, -⟩, -⟩
        · exact hne heq
        · rw [hunbound] at hu
          cases hu
    | none =>
        have hlt := hrank.above id t hstands hv i hi
        have hle := hrank.reaches_le h hreach
        omega

theorem coerceStructuralCtx_acyclic (hsolvable : Solvable σ actual expected) (hσ : c.typeSubst = some σ)
    (hacyc : Acyclic (Follows σ)) {depth : Nat} {ok : Bool}
    (h : coerceStructuralCtx depth actual expected c = some (ok, c')) :
    ∃ σ', c'.typeSubst = some σ' ∧ Acyclic (Follows σ') := by
  obtain ⟨rank, hrank⟩ := hsolvable
  let P : Ctx → Prop := fun c => ∃ σ', c.typeSubst = some σ' ∧ Solving (Meets σ actual expected) σ'
  have hstart : P c := ⟨σ, hσ, fun i t hb => .inl (.given hb), hacyc⟩
  have hkeeps : Keeps P (coerceStructuralCtx depth actual expected) := by
    refine coerceWith_keeps (Meets σ actual expected) (fun c ρ hc => hc) ?_ ?_ ?_ depth .start
    · rintro c a e id t ⟨σ', hσ', hsolving⟩ hmeets hrule ok c' hbind
      cases hbind
      exact ⟨typeSubstBind σ' id t, by simp [Ctx.bind, hσ'], hsolving.fill hrank hmeets hσ' hrule⟩
    · rintro c a e ra re ⟨σ', hσ', hsolving⟩ hmeets hrule
      obtain ⟨rfl, rfl⟩ := holeRule_resolved hσ' hrule
      exact hmeets.resolve hsolving
    · rintro c a e ⟨σ', hσ', -⟩ hmeets habs hrule a' e' hleads
      obtain ⟨ha, he⟩ := holeRule_shapes hσ' hrule
      exact hmeets.shapes ha he habs hleads
  obtain ⟨σ', hσ', hsolving⟩ := hkeeps c ok c' hstart h
  exact ⟨σ', hσ', hsolving.acyclic⟩

end Pairs

end Equations

section Runs

inductive Op where
  | coerce (actual expected : Ty)
  | argument (pty target : Ty)
  | parameter (pty arg : Ty)
  | ground (t : Ty)

namespace Op

/-- One call in a frame, with any depth that is enough for it. -/
def Runs (c : Ctx) : Op → Ctx → Prop
  | .coerce actual expected, c' => ∃ depth ok, coerceStructuralCtx depth actual expected c = some (ok, c')
  | .argument pty target, c' => c' = fillArgument c pty target
  | .parameter pty arg, c' => c' = fillParameter c pty arg
  | .ground t, c' => ∃ depth σ σ', c.typeSubst = some σ ∧ groundUnboundTypeVars depth σ t = some σ' ∧
      c' = { c with typeSubst := some σ' }

/-- An unfilled hole does not occur in the type it is given, bound holes of that
type followed. -/
def FillSafe (σ : TypeSubst) (pty bound : Ty) : Prop :=
  ∀ id, pty = .var id → typeResolve σ pty = pty → ∀ i ∈ bound.holes, ¬ ReflTransGen (Follows σ) i id

/-- The types of the call are safe to bring together. -/
def Safe (σ : TypeSubst) : Op → Prop
  | .coerce actual expected => Solvable σ actual expected
  | .argument pty target => FillSafe σ pty target
  | .parameter pty arg => FillSafe σ pty arg
  | .ground _ => True

end Op

/-- Runs of calls in one inference frame. Effect rows may change between them. -/
inductive Run : Ctx → Prop
  | start : Run ⟨some [], some none⟩
  | rows {c : Ctx} (h : Run c) (ρ : EffectRows.RowSubst) : Run { c with rowSubst := some ρ }
  | call {c c' : Ctx} (op : Op) (h : Run c) (hop : op.Runs c c') : Run c'

inductive SafeRun : Ctx → Prop
  | start : SafeRun ⟨some [], some none⟩
  | rows {c : Ctx} (h : SafeRun c) (ρ : EffectRows.RowSubst) : SafeRun { c with rowSubst := some ρ }
  | call {c c' : Ctx} (op : Op) (h : SafeRun c) (hsafe : ∀ σ, c.typeSubst = some σ → op.Safe σ)
      (hop : op.Runs c c') : SafeRun c'

/-- The frame has a type substitution and no cycle of holes. -/
def HolesAcyclic (c : Ctx) : Prop := ∃ σ, c.typeSubst = some σ ∧ Acyclic (Follows σ)

theorem HolesAcyclic.fill (h : HolesAcyclic c) {id : Nat} {t : Ty} (hσ : c.typeSubst = some σ)
    (hunfilled : typeResolve σ (.var id) = .var id) (hsafe : Op.FillSafe σ (.var id) t) :
    HolesAcyclic (c.bind id t) := by
  obtain ⟨σ', hσ', hacyc⟩ := h
  obtain rfl := Option.some.inj (hσ.symm.trans hσ')
  exact ⟨typeSubstBind σ id t, by simp [Ctx.bind, hσ], (bind_acyclic_iff hacyc id t).mpr (hsafe id rfl hunfilled)⟩

theorem SafeRun.invariant (h : SafeRun c) : HolesAcyclic c := by
  induction h with
  | start => exact ⟨[], rfl, acyclic_of_increasing (f := id) (by rintro x y ⟨t, ht, -⟩; cases ht)⟩
  | rows _ ρ ih => exact ih
  | @call c c' op _ hsafe hop ih =>
      cases op with
      | coerce actual expected =>
          obtain ⟨depth, ok, hop⟩ := hop
          obtain ⟨σ, hσ, hacyc⟩ := ih
          exact coerceStructuralCtx_acyclic (hsafe σ hσ) hσ hacyc hop
      | argument pty target =>
          cases hop
          unfold fillArgument
          split
          · split
            · exact ih.fill ‹_› (‹_ ∧ _ ∧ _›).2.2 (hsafe _ ‹_›)
            · exact ih
          · exact ih
      | parameter pty arg =>
          cases hop
          unfold fillParameter
          split
          · split
            · exact ih.fill ‹_› ‹_› (hsafe _ ‹_›)
            · exact ih
          · exact ih
      | ground t =>
          obtain ⟨d, σ, σ', hσ, hg, rfl⟩ := hop
          obtain ⟨σ₁, hσ₁, hacyc⟩ := ih
          obtain rfl := Option.some.inj (hσ.symm.trans hσ₁)
          exact ⟨σ', rfl, (grounded_of_ground hg).acyclic hacyc⟩

/-- The type of `same :: fn(x: anytype) -> @TypeOf(x)`. -/
def sameType (hole : Nat) : Ty := .fn (.var hole) [.var hole] 0 1 0 .empty

/-- The type of the second parameter of `h :: fn(r: type, a: Fn(x: anytype) -> r) -> void`. -/
def takesType (hole result : Nat) : Ty := .fn (.var result) [.var hole] 0 1 0 .empty

/-- `?u8`, what it fills, and the holes that come to stand for it. -/
def takenTypes : List Ty := [.var 2, .var 3, .var 4, .optional (.prim .u8)]

def filledResult : TypeSubst := [(4, .optional (.prim .u8))]

theorem taken_optional {t : Ty} (ht : t ∈ takenTypes) (hv : t.varId = none) : t = .optional (.prim .u8) := by
  simp only [takenTypes, List.mem_cons, List.not_mem_nil, or_false] at ht
  rcases ht with rfl | rfl | rfl | rfl <;> first | rfl | cases hv

theorem meets_takes {a e : Ty} (h : Meets filledResult (sameType 2) (takesType 3 4) a e) :
    a = sameType 2 ∧ e = takesType 3 4 ∨ a ∈ takenTypes ∧ e ∈ takenTypes := by
  induction h with
  | @given i t hb =>
      by_cases hi : i = 4
      · subst hi
        cases hb
        exact .inr (by simp [takenTypes])
      · have hne : (i == 4) = false := by simpa using hi
        simp [filledResult, binding, List.lookup_cons, hne] at hb
  | start => exact .inl ⟨rfl, rfl⟩
  | shapes _ ha he habs hl ih =>
      rcases ih with ⟨rfl, rfl⟩ | ⟨hma, hme⟩
      · cases hl with
        | ret => exact .inr (by simp [takenTypes])
        | param hlen hp =>
            simp only [List.zip_cons_cons, List.zip_nil_right, List.mem_singleton, Prod.mk.injEq] at hp
            obtain ⟨rfl, rfl⟩ := hp
            exact .inr (by simp [takenTypes])
      · obtain rfl := taken_optional hma ha
        obtain rfl := taken_optional hme he
        simp [absorbs] at habs
  | through _ _ ih ih' =>
      rcases ih with ⟨-, ⟨⟩⟩ | ⟨hma, -⟩
      rcases ih' with ⟨⟨⟩, -⟩ | ⟨-, hme⟩
      exact .inr ⟨hma, hme⟩
  | fork _ _ ih ih' =>
      rcases ih with ⟨⟨⟩, -⟩ | ⟨-, hma⟩
      rcases ih' with ⟨⟨⟩, -⟩ | ⟨-, hme⟩
      exact .inr ⟨hma, hme⟩
  | join _ _ ih ih' =>
      rcases ih with ⟨-, ⟨⟩⟩ | ⟨hma, -⟩
      rcases ih' with ⟨-, ⟨⟩⟩ | ⟨hme, -⟩
      exact .inr ⟨hma, hme⟩

theorem solvable_takes : Solvable filledResult (sameType 2) (takesType 3 4) := by
  have hstands : ∀ {i t}, Stands (Meets filledResult (sameType 2) (takesType 3 4)) i t →
      i ∈ [2, 3, 4] ∧ t ∈ takenTypes := by
    intro i t h
    rcases h with h | h
    · rcases meets_takes h with ⟨⟨⟩, -⟩ | ⟨hi, ht⟩
      exact ⟨by simpa [takenTypes] using hi, ht⟩
    · rcases meets_takes h with ⟨-, ⟨⟩⟩ | ⟨ht, hi⟩
      exact ⟨by simpa [takenTypes] using hi, ht⟩
  refine ⟨fun _ => 0, fun _ _ _ => rfl, fun i t h hv j hj => ?_, fun r => ?_⟩
  · obtain rfl := taken_optional (hstands h).2 hv
    simp [Ty.holes] at hj
  · have hsub : {i | 0 = r ∧ ∃ t, Stands (Meets filledResult (sameType 2) (takesType 3 4)) i t} ⊆
        ({2, 3, 4} : Finset Nat) := by
      rintro i ⟨-, t, h⟩
      simpa using (hstands h).1
    have hle := Set.encard_le_encard hsub
    rw [Set.encard_coe_eq_coe_finsetCard] at hle
    exact hle.trans (by exact_mod_cast (by decide : (3 : Nat) ≤ 64))

end Runs

end Ore.TypeHoleRuns
