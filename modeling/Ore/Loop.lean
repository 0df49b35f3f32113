import Mathlib.Algebra.Ring.Nat
import Mathlib.Logic.Basic
import Mathlib.Tactic.Common

namespace Ore.Loop

variable {σ ρ : Type*}

/-- A loop with a step budget: `inl` runs the body again, `inr` leaves the
loop with a result. Running out of budget is `none`. -/
def run (f : σ → σ ⊕ ρ) : Nat → σ → Option ρ
  | 0, _ => none
  | fuel + 1, s => match f s with
    | .inl s' => run f fuel s'
    | .inr r => some r

theorem run_exit {f : σ → σ ⊕ ρ} {s : σ} {r : ρ} (h : f s = .inr r) (fuel : Nat) :
    run f (fuel + 1) s = some r := by
  simp [run, h]

/-- Total correctness of a loop: an invariant that every turn keeps, a measure
that every turn lowers, and a postcondition established on the way out. -/
theorem run_spec (f : σ → σ ⊕ ρ) (Inv : σ → Prop) (Post : ρ → Prop) (measure : σ → Nat)
    (hnext : ∀ s s', Inv s → f s = .inl s' → Inv s' ∧ measure s' < measure s)
    (hexit : ∀ s r, Inv s → f s = .inr r → Post r)
    (fuel : Nat) (s : σ) (hs : Inv s) (hfuel : measure s < fuel) :
    ∃ r, run f fuel s = some r ∧ Post r := by
  induction fuel generalizing s with
  | zero => omega
  | succ fuel ih =>
      cases hf : f s with
      | inr r => exact ⟨r, by simp [run, hf], hexit s r hs hf⟩
      | inl s' =>
          obtain ⟨hs', hm⟩ := hnext s s' hs hf
          obtain ⟨r, hr, hp⟩ := ih s' hs' (by omega)
          exact ⟨r, by simpa [run, hf] using hr, hp⟩

/-- What a loop that ends leaves with: an invariant that every turn keeps, and a
postcondition established on the way out. -/
theorem run_ended {f : σ → σ ⊕ ρ} (Inv : σ → Prop) (Post : ρ → Prop) (hnext : ∀ s s', Inv s → f s = .inl s' → Inv s')
    (hexit : ∀ s r, Inv s → f s = .inr r → Post r) {fuel : Nat} {s : σ} {r : ρ} (hs : Inv s)
    (h : run f fuel s = some r) : Post r := by
  induction fuel generalizing s with
  | zero => cases h
  | succ fuel ih =>
      rw [run] at h
      cases hf : f s with
      | inl s' =>
          rw [hf] at h
          exact ih (hnext s s' hs hf) h
      | inr r' =>
          rw [hf] at h
          exact Option.some.inj h ▸ hexit s r' hs hf

/-- A loop whose turns, seen through a view of its states, are the turns of another
one where an invariant holds. -/
theorem run_view {τ ρ' : Type*} {f : σ → σ ⊕ ρ} {g : τ → τ ⊕ ρ'} (Inv : σ → Prop) (view : σ → τ) (h : ρ → ρ')
    (hview : ∀ s, Inv s → g (view s) = (f s).map view h) (hnext : ∀ s s', Inv s → f s = .inl s' → Inv s')
    (fuel : Nat) (s : σ) (hs : Inv s) : run g fuel (view s) = (run f fuel s).map h := by
  induction fuel generalizing s with
  | zero => rfl
  | succ fuel ih =>
      rw [run, run, hview s hs]
      cases hf : f s with
      | inl s' => exact ih s' (hnext s s' hs hf)
      | inr r => rfl

/-- Two loops that take the same turns where an invariant holds, and differ in what
they leave with. -/
theorem run_agree {ρ' : Type*} {f : σ → σ ⊕ ρ} {g : σ → σ ⊕ ρ'} (Inv : σ → Prop) (h : ρ → ρ')
    (hagree : ∀ s, Inv s → g s = (f s).map id h) (hnext : ∀ s s', Inv s → f s = .inl s' → Inv s')
    (fuel : Nat) (s : σ) (hs : Inv s) : run g fuel s = (run f fuel s).map h :=
  run_view Inv id h hagree hnext fuel s hs

/-- Two loops that take the same turns and differ in what they leave with. -/
theorem run_map {ρ' : Type*} {f : σ → σ ⊕ ρ} {g : σ → σ ⊕ ρ'} (h : ρ → ρ') (hfg : ∀ s, g s = (f s).map id h)
    (fuel : Nat) (s : σ) : run g fuel s = (run f fuel s).map h :=
  run_agree (fun _ => True) h (fun s _ => hfg s) (fun _ _ _ _ => trivial) fuel s trivial

end Ore.Loop
