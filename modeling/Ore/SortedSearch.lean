import Mathlib.Tactic.Common

namespace Ore.SortedSearch

/-- Binary search for the end of the indices that are below something. -/
def partitionPoint (below : Nat → Bool) (lo hi : Nat) : Nat :=
  if lo < hi then
    if below (lo + (hi - lo) / 2) then partitionPoint below (lo + (hi - lo) / 2 + 1) hi
    else partitionPoint below lo (lo + (hi - lo) / 2)
  else lo
termination_by hi - lo

variable {below : Nat → Bool} {lo hi : Nat}

theorem partitionPoint_spec (hmono : ∀ i j, i ≤ j → j < hi → below j = true → below i = true) (hle : lo ≤ hi) :
    lo ≤ partitionPoint below lo hi ∧ partitionPoint below lo hi ≤ hi ∧
      (∀ i, lo ≤ i → i < partitionPoint below lo hi → below i = true) ∧
      ∀ i, partitionPoint below lo hi ≤ i → i < hi → below i = false := by
  induction lo, hi using partitionPoint.induct below with
  | case1 lo hi hlt hmid ih =>
      obtain ⟨hfrom, hto, hbelow, habove⟩ := ih hmono (by omega)
      unfold partitionPoint
      rw [if_pos hlt, if_pos hmid]
      refine ⟨by omega, hto, fun i _ hi' => ?_, habove⟩
      by_cases h : i ≤ lo + (hi - lo) / 2
      · exact hmono _ _ h (by omega) hmid
      · exact hbelow i (by omega) hi'
  | case2 lo hi hlt hmid ih =>
      obtain ⟨hfrom, hto, hbelow, habove⟩ := ih (fun i j hij hj => hmono i j hij (by omega)) (by omega)
      unfold partitionPoint
      rw [if_pos hlt, if_neg hmid]
      refine ⟨hfrom, by omega, hbelow, fun i hfrom' hi' => ?_⟩
      by_cases h : i < lo + (hi - lo) / 2
      · exact habove i hfrom' h
      · rw [Bool.eq_false_iff]
        exact fun hi => hmid (hmono _ _ (by omega) hi' hi)
  | case3 lo hi hge =>
      unfold partitionPoint
      rw [if_neg hge]
      exact ⟨Nat.le_refl _, hle, fun i _ _ => by omega, fun i _ _ => by omega⟩

end Ore.SortedSearch
