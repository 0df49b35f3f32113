import Mathlib.Order.Bounds.Basic

namespace Ore.TreeOrders

/-- What lies below an element is a chain. -/
class TreeOrder (α : Type) [PartialOrder α] : Prop where
  chain : ∀ {a b c : α}, a ≤ c → b ≤ c → a ≤ b ∨ b ≤ a

def members {α : Type} (xs : List α) : Set α := {x | x ∈ xs}

theorem members_perm {α : Type} {xs ys : List α} (h : xs.Perm ys) : members xs = members ys :=
  Set.ext fun _ => h.mem_iff

variable {α : Type} [PartialOrder α] {a b c u : α} {xs : List α}

theorem isGreatest_members : IsGreatest (members xs) u ↔ u ∈ xs ∧ ∀ x ∈ xs, x ≤ u := Iff.rfl

theorem isGreatest_pair : IsGreatest {a, b} u ↔ (u = a ∨ u = b) ∧ a ≤ u ∧ b ≤ u := by
  rw [IsGreatest, mem_upperBounds]
  simp only [Set.mem_insert_iff, Set.mem_singleton_iff, forall_eq_or_imp, forall_eq]

theorem isGreatest_cons (h : IsGreatest {a, b} c) :
    IsGreatest (members (a :: b :: xs)) u ↔ IsGreatest (members (c :: xs)) u := by
  obtain ⟨hmem, hbound⟩ := h
  have hac : a ≤ c := hbound (Set.mem_insert a {b})
  have hbc : b ≤ c := hbound (Set.mem_insert_of_mem a rfl)
  simp only [isGreatest_members, List.mem_cons, forall_eq_or_imp]
  constructor
  · rintro ⟨hu, hau, hbu, hrest⟩
    have hcu : c ≤ u := by
      rcases hmem with rfl | rfl
      · exact hau
      · exact hbu
    refine ⟨?_, hcu, hrest⟩
    rcases hu with rfl | rfl | hu
    · exact .inl (le_antisymm hac hcu)
    · exact .inl (le_antisymm hbc hcu)
    · exact .inr hu
  · rintro ⟨hu, hcu, hrest⟩
    refine ⟨?_, hac.trans hcu, hbc.trans hcu, hrest⟩
    rcases hu with rfl | hu
    · rcases hmem with rfl | rfl
      · exact .inl rfl
      · exact .inr (.inl rfl)
    · exact .inr (.inr hu)

theorem isGreatest_of_tail (h : IsGreatest (members xs) c) :
    IsGreatest (members (a :: xs)) u ↔ IsGreatest {a, c} u := by
  obtain ⟨hmem, hbound⟩ := h
  rw [isGreatest_members, isGreatest_pair]
  simp only [List.mem_cons, forall_eq_or_imp]
  constructor
  · rintro ⟨hu, hau, hrest⟩
    refine ⟨?_, hau, hrest c hmem⟩
    rcases hu with rfl | hu
    · exact .inl rfl
    · exact .inr (le_antisymm (hbound hu) (hrest c hmem))
  · rintro ⟨hu, hau, hcu⟩
    refine ⟨?_, hau, fun x hx => (hbound hx).trans hcu⟩
    rcases hu with rfl | rfl
    · exact .inl rfl
    · exact .inr hmem

variable [DecidableLE α]

def greater (a b : α) : Option α := if a ≤ b then some b else if b ≤ a then some a else none

theorem greater_eq_some : greater a b = some c ↔ IsGreatest {a, b} c := by
  rw [greater, isGreatest_pair]
  constructor
  · intro h
    split at h
    · rename_i hab
      obtain rfl := Option.some.inj h
      exact ⟨.inr rfl, hab, le_rfl⟩
    · split at h
      · rename_i hba
        obtain rfl := Option.some.inj h
        exact ⟨.inl rfl, le_rfl, hba⟩
      · cases h
  · rintro ⟨rfl | rfl, hac, hbc⟩
    · by_cases hab : c ≤ b
      · rw [if_pos hab, le_antisymm hab hbc]
      · rw [if_neg hab, if_pos hbc]
    · rw [if_pos hac]

theorem greater_comm : greater a b = greater b a :=
  Option.ext fun c => by rw [greater_eq_some, greater_eq_some, Set.pair_comm]

theorem greater_none [TreeOrder α] (h : greater a b = none) (hac : a ≤ c) : ¬ b ≤ c := by
  intro hbc
  rw [greater] at h
  rcases TreeOrder.chain hac hbc with hab | hba
  · rw [if_pos hab] at h
    cases h
  · rw [if_pos hba] at h
    split at h
    · cases h
    · cases h

theorem not_isGreatest [TreeOrder α] (h : greater a b = none) : ¬ IsGreatest (members (a :: b :: xs)) u :=
  fun hgreatest => greater_none h (hgreatest.2 List.mem_cons_self)
    (hgreatest.2 (List.mem_cons_of_mem a List.mem_cons_self))

/-- One pass over the list finds its greatest element, or that it has none. -/
theorem foldlM_greater [TreeOrder α] : xs.foldlM greater a = some u ↔ IsGreatest (members (a :: xs)) u := by
  induction xs generalizing a with
  | nil =>
      simp only [List.foldlM_nil, isGreatest_members, List.mem_singleton, forall_eq]
      exact ⟨fun h => ⟨(Option.some.inj h).symm, (Option.some.inj h).le⟩, fun h => congrArg some h.1.symm⟩
  | cons b xs ih =>
      rw [List.foldlM_cons]
      cases hgreater : greater a b with
      | none =>
          refine ⟨fun h => ?_, fun h => absurd h (not_isGreatest hgreater)⟩
          cases h
      | some c => exact ih.trans (isGreatest_cons (greater_eq_some.mp hgreater)).symm

theorem exists_isGreatest_tail [TreeOrder α] (h : IsGreatest (members (a :: b :: xs)) u) :
    ∃ c, IsGreatest (members (b :: xs)) c := by
  have hperm : (a :: b :: xs).Perm (b :: (xs ++ [a])) := (List.perm_append_singleton a (b :: xs)).symm
  rw [members_perm hperm, ← foldlM_greater, List.foldlM_append] at h
  obtain ⟨c, hc, -⟩ := Option.bind_eq_some_iff.mp h
  exact ⟨c, foldlM_greater.mp hc⟩

end Ore.TreeOrders
