import Ore.Coercions
import Ore.EffectRowSoundness

namespace Ore.CoercionRules

open EffectRows EffectRowSoundness InternKeys TypeHoles Coercions

section Checks

variable {P : Ctx → Prop} {p q p' q' : Check}

/-- The check leaves contexts with `P` in `P`, whether it passes or fails. -/
def Keeps (P : Ctx → Prop) (p : Check) : Prop := ∀ c ok c', P c → p c = some (ok, c') → P c'

/-- The second check answers whatever the first does. -/
def Le (p q : Check) : Prop := ∀ c r, p c = some r → q c = some r

theorem keeps_holds (b : Bool) : Keeps P (Check.holds b) := by
  rintro c ok c' hc ⟨⟩
  exact hc

theorem Keeps.andThen (hp : Keeps P p) (hq : Keeps P q) : Keeps P (p.andThen q) := by
  intro c ok c' hc h
  rw [Check.andThen] at h
  split at h
  · exact hq _ _ _ (hp _ _ _ hc ‹_›) h
  · exact hp _ _ _ hc h

theorem Keeps.orElse (hp : Keeps P p) (hq : Keeps P q) : Keeps P (p.orElse q) := by
  intro c ok c' hc h
  rw [Check.orElse] at h
  split at h
  · exact hq _ _ _ (hp _ _ _ hc ‹_›) h
  · exact hp _ _ _ hc h

theorem Le.refl (p : Check) : Le p p := fun _ _ h => h

theorem Le.andThen (hp : Le p p') (hq : Le q q') : Le (p.andThen q) (p'.andThen q') := by
  intro c r h
  cases hpc : p c with
  | none => simp [Check.andThen, hpc] at h
  | some s =>
      rcases s with ⟨ok, c₁⟩
      have hpc' := hp c _ hpc
      cases ok with
      | true => simpa [Check.andThen, hpc'] using hq c₁ r (by simpa [Check.andThen, hpc] using h)
      | false => simpa [Check.andThen, hpc, hpc'] using h

theorem Le.orElse (hp : Le p p') (hq : Le q q') : Le (p.orElse q) (p'.orElse q') := by
  intro c r h
  cases hpc : p c with
  | none => simp [Check.orElse, hpc] at h
  | some s =>
      rcases s with ⟨ok, c₁⟩
      have hpc' := hp c _ hpc
      cases ok with
      | false => simpa [Check.orElse, hpc'] using hq c₁ r (by simpa [Check.orElse, hpc] using h)
      | true => simpa [Check.orElse, hpc, hpc'] using h

end Checks

section Rules

variable {P : Ctx → Prop} {fill fill' : Nat → Ty → Check} {coerce coerce' : Ty → Ty → Check}

theorem rowsAgree_keeps (hrows : ∀ c ρ, P c → P { c with rowSubst := some ρ }) (depth : Nat) (a e : Row) :
    Keeps P (rowsAgree depth a e) := by
  intro c ok c' hc h
  rw [rowsAgree] at h
  split at h
  · cases h
    exact hc
  · split at h
    · cases h
      exact hc
    · obtain ⟨r, -, hr⟩ := Option.map_eq_some_iff.mp h
      cases hr
      exact hrows c r.2 hc

/-- The pairs that the rules behind the hole rule go on with: the payload of an
expected optional, the results of two functions, and their parameters the other
way round. -/
inductive Leads : Ty → Ty → Ty → Ty → Prop
  | lift (a e : Ty) : Leads a (.optional e) a e
  | ret {r r' : Ty} {ps ps' : List Ty} {m k v k' v' : Nat} {row row' : Row} (h : ps.length = ps'.length) :
      Leads (.fn r ps m k v row) (.fn r' ps' m k' v' row') r r'
  | param {r r' : Ty} {ps ps' : List Ty} {m k v k' v' : Nat} {row row' : Row} {a e : Ty}
      (h : ps.length = ps'.length) (hp : (a, e) ∈ ps.zip ps') :
      Leads (.fn r ps m k v row) (.fn r' ps' m k' v' row') e a

theorem paramsCoerce_keeps {as es : List Ty} (h : ∀ a e, (a, e) ∈ as.zip es → Keeps P (coerce e a)) :
    Keeps P (paramsCoerce coerce as es) := by
  induction as generalizing es with
  | nil => exact keeps_holds true
  | cons a as ih =>
      cases es with
      | nil => exact keeps_holds true
      | cons e es =>
          have htail := ih fun a' e' hp => h a' e' (List.mem_cons_of_mem _ hp)
          exact (h a e List.mem_cons_self).andThen htail

theorem shapesCoerce_keeps (hrows : ∀ c ρ, P c → P { c with rowSubst := some ρ }) (depth : Nat) {a e : Ty}
    (h : ∀ a' e', Leads a e a' e' → Keeps P (coerce a' e')) : Keeps P (shapesCoerce depth coerce a e) := by
  have hlift : Keeps P (liftCoerces coerce a e) := by
    cases e <;> first | exact h _ _ (.lift _ _) | exact keeps_holds false
  have hfn : Keeps P (fnCoerces depth coerce a e) := by
    unfold fnCoerces
    split
    · split
      · obtain ⟨hlen, rfl⟩ := ‹_ ∧ _›
        have hparams := paramsCoerce_keeps (P := P) fun p q hp => h q p (.param hlen hp)
        exact (h _ _ (.ret hlen)).andThen (hparams.andThen (rowsAgree_keeps hrows depth _ _))
      · exact keeps_holds false
    · exact keeps_holds false
  rw [shapesCoerce]
  split
  · exact keeps_holds true
  · exact hlift.orElse (hfn.orElse (keeps_holds _))

/-- What the bindings of a hole keep while the coercion stays within `meets`,
the coercion keeps. -/
theorem coerceWith_keeps (meets : Ty → Ty → Prop) (hrows : ∀ c ρ, P c → P { c with rowSubst := some ρ })
    (hfill : ∀ c a e id t, P c → meets a e → holeRule c a e = .fill id t →
      ∀ ok c', fill id t c = some (ok, c') → P c')
    (hresolved : ∀ c a e ra re, P c → meets a e → holeRule c a e = .resolved ra re → meets ra re)
    (hshapes : ∀ c a e, P c → meets a e → absorbs a e = false → holeRule c a e = .shapes →
      ∀ a' e', Leads a e a' e' → meets a' e')
    (depth : Nat) {a e : Ty} (h : meets a e) : Keeps P (coerceWith fill depth a e) := by
  induction depth generalizing a e with
  | zero => intro c ok c' _ hrun; cases hrun
  | succ depth ih =>
      intro c ok c' hc hrun
      simp only [coerceWith] at hrun
      split at hrun
      · cases hrun
        exact hc
      · have habs : absorbs a e = false := Bool.eq_false_of_not_eq_true ‹_›
        split at hrun
        · cases hrun
          exact hc
        · exact hfill c a e _ _ hc h ‹_› ok c' hrun
        · exact ih (hresolved c a e _ _ hc h ‹_›) c ok c' hc hrun
        · have hleads := hshapes c a e hc h habs ‹_›
          exact shapesCoerce_keeps hrows depth (fun a' e' hl => ih (hleads a' e' hl)) c ok c' hc hrun

theorem rowsAgree_le {depth depth' : Nat} (hd : depth ≤ depth') (a e : Row) :
    Le (rowsAgree depth a e) (rowsAgree depth' a e) := by
  intro c r h
  rw [rowsAgree] at h ⊢
  by_cases hsame : a = .error ∨ e = .error ∨ a = e
  · simpa only [hsame, if_true] using h
  · simp only [hsame, if_false] at h ⊢
    cases hρ : c.rowSubst with
    | none => simpa only [hρ] using h
    | some ρ =>
        simp only [hρ] at h ⊢
        obtain ⟨s, hs, hr⟩ := Option.map_eq_some_iff.mp h
        obtain ⟨n, rfl⟩ := Nat.exists_eq_add_of_le hd
        rw [rowUnify_mono hs n]
        simpa using hr

theorem paramsCoerce_le (h : ∀ a e, Le (coerce a e) (coerce' a e)) (as es : List Ty) :
    Le (paramsCoerce coerce as es) (paramsCoerce coerce' as es) := by
  induction as generalizing es with
  | nil => exact .refl _
  | cons a as ih =>
      cases es with
      | nil => exact .refl _
      | cons e es => exact (h e a).andThen (ih es)

theorem shapesCoerce_le {depth depth' : Nat} (hd : depth ≤ depth') (h : ∀ a e, Le (coerce a e) (coerce' a e))
    (a e : Ty) : Le (shapesCoerce depth coerce a e) (shapesCoerce depth' coerce' a e) := by
  have hlift : Le (liftCoerces coerce a e) (liftCoerces coerce' a e) := by
    cases e <;> first | exact h _ _ | exact .refl _
  have hfn : Le (fnCoerces depth coerce a e) (fnCoerces depth' coerce' a e) := by
    unfold fnCoerces
    split
    · split
      · exact (h _ _).andThen ((paramsCoerce_le h _ _).andThen (rowsAgree_le hd _ _))
      · exact .refl _
    · exact .refl _
  rw [shapesCoerce, shapesCoerce]
  split
  · exact .refl _
  · exact hlift.orElse (hfn.orElse (.refl _))

/-- More depth and fewer refusals to bind give the same answers. -/
theorem coerceWith_le (hfill : ∀ id t, Le (fill id t) (fill' id t)) {depth depth' : Nat} (hd : depth ≤ depth')
    (a e : Ty) : Le (coerceWith fill depth a e) (coerceWith fill' depth' a e) := by
  induction depth generalizing depth' a e with
  | zero => intro c r h; cases h
  | succ depth ih =>
      cases depth' with
      | zero => omega
      | succ depth' =>
          have hcoerce := fun a e => ih (Nat.le_of_succ_le_succ hd) a e
          intro c r h
          simp only [coerceWith] at h ⊢
          by_cases habs : absorbs a e = true
          · rwa [if_pos habs] at h ⊢
          · rw [if_neg habs] at h ⊢
            cases hrule : holeRule c a e with
            | sameHole => simpa only [hrule] using h
            | fill id t => exact hfill id t c r (by simpa only [hrule] using h)
            | resolved ra re => exact hcoerce ra re c r (by simpa only [hrule] using h)
            | shapes =>
                exact shapesCoerce_le (Nat.le_of_succ_le_succ hd) hcoerce a e c r (by simpa only [hrule] using h)

theorem coerceWith_unique {depth depth' : Nat} {a e : Ty} {c : Ctx} {r r' : Bool × Ctx}
    (h : coerceWith fill depth a e c = some r) (h' : coerceWith fill depth' a e c = some r') : r = r' := by
  have hr := coerceWith_le (fun id t => Le.refl (fill id t)) (Nat.le_max_left depth depth') a e c r h
  have hr' := coerceWith_le (fun id t => Le.refl (fill id t)) (Nat.le_max_right depth depth') a e c r' h'
  exact Option.some.inj (hr.symm.trans hr')

end Rules

end Ore.CoercionRules
