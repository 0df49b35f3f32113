import Mathlib.Order.Nat
import Ore.Loop

namespace Ore.ParentLinks

/-- Every link leads to a smaller number. -/
def Grounded (up : Nat → Option Nat) : Prop := ∀ s p, up s = some p → p < s

def chainFrom (up : Nat → Option Nat) : Nat → Nat → List Nat
  | 0, _ => []
  | fuel + 1, s => s :: match up s with
    | some p => chainFrom up fuel p
    | none => []

/-- A number with those above it, from the inside out. -/
def chain (up : Nat → Option Nat) (s : Nat) : List Nat := chainFrom up (s + 1) s

def above (up : Nat → Option Nat) (s : Nat) : List Nat := match up s with
  | some p => chain up p
  | none => []

section Chains

variable {up : Nat → Option Nat}

theorem chainFrom_enough (hup : Grounded up) {fuel fuel' s : Nat} (h : s < fuel) (h' : s < fuel') :
    chainFrom up fuel s = chainFrom up fuel' s := by
  induction fuel generalizing fuel' s with
  | zero => omega
  | succ fuel ih =>
      obtain ⟨fuel', rfl⟩ : ∃ n, fuel' = n + 1 := ⟨fuel' - 1, by omega⟩
      rw [chainFrom, chainFrom]
      cases hp : up s with
      | none => rfl
      | some p =>
          have hlt := hup s p hp
          exact congrArg (s :: ·) (ih (by omega) (by omega))

theorem chain_eq (hup : Grounded up) (s : Nat) : chain up s = s :: above up s := by
  rw [chain, chainFrom, above]
  cases hp : up s with
  | none => rfl
  | some p => exact congrArg (s :: ·) (chainFrom_enough hup (hup s p hp) (Nat.lt_succ_self p))

theorem mem_chain_self (s : Nat) : s ∈ chain up s := by
  rw [chain, chainFrom]
  exact List.mem_cons_self

theorem le_of_mem_chain (hup : Grounded up) {a s : Nat} (h : a ∈ chain up s) : a ≤ s := by
  induction s using Nat.strongRecOn with
  | _ s ih =>
      rw [chain_eq hup, List.mem_cons, above] at h
      rcases h with rfl | h
      · exact le_refl a
      · cases hp : up s with
        | none => simp [hp] at h
        | some p =>
            rw [hp] at h
            exact le_trans (ih p (hup s p hp) h) (Nat.le_of_lt (hup s p hp))

theorem lt_of_mem_above (hup : Grounded up) {a s : Nat} (h : a ∈ above up s) : a < s := by
  rw [above] at h
  cases hp : up s with
  | none => simp [hp] at h
  | some p =>
      rw [hp] at h
      exact Nat.lt_of_le_of_lt (le_of_mem_chain hup h) (hup s p hp)

theorem mem_chain_iff (hup : Grounded up) {a s : Nat} : a ∈ chain up s ↔ a = s ∨ a ∈ above up s := by
  rw [chain_eq hup, List.mem_cons]

theorem mem_chain_trans (hup : Grounded up) {a b s : Nat} (hab : a ∈ chain up b) (hbs : b ∈ chain up s) :
    a ∈ chain up s := by
  induction s using Nat.strongRecOn with
  | _ s ih =>
      rcases (mem_chain_iff hup).mp hbs with rfl | h
      · exact hab
      · refine (mem_chain_iff hup).mpr (.inr ?_)
        rw [above] at h ⊢
        cases hp : up s with
        | none => simp [hp] at h
        | some p =>
            rw [hp] at h
            exact ih p (hup s p hp) h

/-- Of two numbers above or at a third, one is above or at the other. -/
theorem mem_chain_total (hup : Grounded up) {a b s : Nat} (ha : a ∈ chain up s) (hb : b ∈ chain up s) :
    a ∈ chain up b ∨ b ∈ chain up a := by
  induction s using Nat.strongRecOn with
  | _ s ih =>
      rcases (mem_chain_iff hup).mp ha with rfl | ha'
      · exact .inr hb
      rcases (mem_chain_iff hup).mp hb with rfl | hb'
      · exact .inl ha
      rw [above] at ha' hb'
      cases hp : up s with
      | none => simp [hp] at ha'
      | some p =>
          rw [hp] at ha' hb'
          exact ih p (hup s p hp) ha' hb'

theorem chain_suffix (hup : Grounded up) {s a : Nat} {l l' : List Nat} (h : chain up s = l ++ a :: l') :
    chain up a = a :: l' := by
  induction l generalizing s with
  | nil =>
      have heq := h
      rw [chain_eq hup, List.nil_append, List.cons.injEq] at heq
      obtain rfl := heq.1
      exact h
  | cons b l ih =>
      rw [chain_eq hup, List.cons_append, List.cons.injEq, above] at h
      cases hp : up s with
      | none => simp [hp] at h
      | some p =>
          rw [hp] at h
          exact ih h.2

theorem chainFrom_congr {up' : Nat → Option Nat} (hup : Grounded up) {fuel s : Nat} (h : ∀ i ≤ s, up' i = up i) :
    chainFrom up' fuel s = chainFrom up fuel s := by
  induction fuel generalizing s with
  | zero => rfl
  | succ fuel ih =>
      rw [chainFrom, chainFrom, h s (le_refl s)]
      cases hp : up s with
      | none => rfl
      | some p =>
          have hlt := hup s p hp
          exact congrArg (s :: ·) (ih fun i hi => h i (by omega))

end Chains

section Loops

variable (up : Nat → Option Nat)

/-- One turn of a loop up the links that leaves at the first number with a result. -/
def climbTurn {ρ : Type} (found : Nat → Option ρ) : Option Nat → Option Nat ⊕ Option ρ
  | none => .inr none
  | some s => match found s with
    | some r => .inr (some r)
    | none => .inl (up s)

def climb {ρ : Type} (found : Nat → Option ρ) (fuel : Nat) (start : Option Nat) : Option (Option ρ) :=
  Loop.run (climbTurn up found) fuel start

variable {up}

/-- The loop finds the first number of the chain that has a result. -/
theorem climb_eq {ρ : Type} (hup : Grounded up) (found : Nat → Option ρ) {fuel : Nat} {start : Option Nat}
    (h : ∀ s, start = some s → s + 1 < fuel) (hpos : 0 < fuel) :
    climb up found fuel start = some ((start.elim [] (chain up)).findSome? found) := by
  rw [climb]
  induction fuel generalizing start with
  | zero => omega
  | succ fuel ih =>
      cases start with
      | none => rfl
      | some s =>
          have hs := h s rfl
          rw [Loop.run, climbTurn, Option.elim_some, chain_eq hup, List.findSome?_cons]
          cases hf : found s with
          | some r => rfl
          | none =>
              refine (ih (fun p hp => ?_) (by omega)).trans ?_
              · have hlt := hup s p hp
                omega
              · rw [above]
                cases up s <;> rfl

end Loops

end Ore.ParentLinks
