import Mathlib.Data.List.Sort
import Mathlib.Tactic.Push

namespace Ore.Intervals

/-- The integers from `lo` to `hi`, both included. -/
structure Interval where
  lo : Int
  hi : Int
  deriving DecidableEq

namespace Interval

def Has (i : Interval) (z : Int) : Prop := i.lo ≤ z ∧ z ≤ i.hi

instance (i : Interval) (z : Int) : Decidable (i.Has z) := by
  unfold Has
  infer_instance

def Proper (i : Interval) : Prop := i.lo ≤ i.hi

def Apart (i j : Interval) : Prop := i.hi < j.lo ∨ j.hi < i.lo

theorem Apart.symm {i j : Interval} (h : i.Apart j) : j.Apart i := Or.symm h

theorem Apart.not_both {i j : Interval} (h : i.Apart j) {z : Int} (hi : i.Has z) : ¬ j.Has z := by
  unfold Apart at h
  unfold Has at *
  omega

theorem exists_shared {i j : Interval} (h : ¬ i.Apart j) (hi : i.Proper) (hj : j.Proper) :
    ∃ z, i.Has z ∧ j.Has z := by
  unfold Apart at h
  unfold Proper at *
  refine ⟨max i.lo j.lo, ?_, ?_⟩ <;> unfold Has <;> omega

end Interval

open Ore.Intervals.Interval

/-- The intervals can be added one after the other to those in `acc`. -/
def Addable : List Interval → List Interval → Prop
  | _, [] => True
  | acc, i :: is => i.Proper ∧ (∀ k ∈ acc, k.Apart i) ∧ Addable (acc ++ [i]) is

theorem addable_iff (acc is : List Interval) :
    Addable acc is ↔
      (∀ i ∈ is, i.Proper) ∧ is.Pairwise Apart ∧ ∀ k ∈ acc, ∀ i ∈ is, k.Apart i := by
  induction is generalizing acc with
  | nil => simp [Addable]
  | cons i is ih =>
      rw [Addable, ih]
      simp only [List.mem_append, List.mem_cons, List.pairwise_cons, or_imp, forall_and, forall_eq]
      tauto

/-- The intervals follow one another without a gap, from `min` to `max`. -/
def Chain (max : Int) : Int → List Interval → Prop
  | _, [] => False
  | min, [i] => i.lo = min ∧ i.hi = max
  | min, i :: j :: rest => i.lo = min ∧ Chain max (i.hi + 1) (j :: rest)

def Covers (min max : Int) (is : List Interval) : Prop := ∀ z, min ≤ z → z ≤ max → ∃ i ∈ is, i.Has z

theorem chain_iff_covers {max : Int} {is : List Interval} (hne : ∀ i ∈ is, i.Proper)
    (hasc : is.Pairwise fun i j => i.hi < j.lo) {min : Int} (hin : ∀ i ∈ is, min ≤ i.lo ∧ i.hi ≤ max)
    (hmin : min ≤ max) : Chain max min is ↔ Covers min max is := by
  induction is generalizing min with
  | nil =>
      refine iff_of_false id fun h => ?_
      obtain ⟨i, hi, -⟩ := h min (le_refl _) hmin
      cases hi
  | cons i rest ih =>
      have hi := hne i List.mem_cons_self
      have hib := hin i List.mem_cons_self
      have hlater : ∀ j ∈ rest, i.hi < j.lo := (List.pairwise_cons.mp hasc).1
      unfold Proper at hi
      have hhead : Covers min max (i :: rest) → i.lo = min := by
        intro h
        obtain ⟨j, hj, hlo, -⟩ := h min (le_refl _) hmin
        rcases List.mem_cons.mp hj with rfl | hj
        · omega
        · have := hlater j hj
          omega
      cases rest with
      | nil =>
          rw [Chain]
          constructor
          · rintro ⟨rfl, rfl⟩ z hl hh
            exact ⟨i, List.mem_cons_self, hl, hh⟩
          · intro h
            refine ⟨hhead h, ?_⟩
            obtain ⟨j, hj, -, hhi⟩ := h max hmin (le_refl _)
            obtain rfl : j = i := by simpa using hj
            omega
      | cons j rest =>
          have hj := hne j (by simp)
          have hjb := hin j (by simp)
          have hij := hlater j List.mem_cons_self
          unfold Proper at hj
          have htail := ih (fun k hk => hne k (List.mem_cons_of_mem _ hk)) (List.pairwise_cons.mp hasc).2
            (fun k hk => ⟨hlater k hk, (hin k (List.mem_cons_of_mem _ hk)).2⟩) (show i.hi + 1 ≤ max by omega)
          rw [Chain, htail]
          constructor
          · rintro ⟨rfl, h⟩ z hl hh
            by_cases hz : z ≤ i.hi
            · exact ⟨i, List.mem_cons_self, hl, hz⟩
            · obtain ⟨k, hk, hkz⟩ := h z (by omega) hh
              exact ⟨k, List.mem_cons_of_mem _ hk, hkz⟩
          · intro h
            refine ⟨hhead h, fun z hl hh => ?_⟩
            obtain ⟨k, hk, hkz⟩ := h z (by omega) hh
            rcases List.mem_cons.mp hk with rfl | hk
            · unfold Has at hkz
              omega
            · exact ⟨k, hk, hkz⟩

theorem countP_le_one {is : List Interval} (h : is.Pairwise Apart) (z : Int) : is.countP (fun i => i.Has z) ≤ 1 := by
  induction is with
  | nil => simp
  | cons i is ih =>
      obtain ⟨hi, his⟩ := List.pairwise_cons.mp h
      rw [List.countP_cons]
      split
      · next hz =>
          have hrest : is.countP (fun i => i.Has z) = 0 := by
            rw [List.countP_eq_zero]
            intro j hj
            simpa using (hi j hj).not_both (by simpa using hz)
          omega
      · exact ih his

theorem pairwise_of_countP {is : List Interval} (hne : ∀ i ∈ is, i.Proper) {min max : Int}
    (hin : ∀ i ∈ is, min ≤ i.lo ∧ i.hi ≤ max)
    (h : ∀ z, min ≤ z → z ≤ max → is.countP (fun i => i.Has z) ≤ 1) : is.Pairwise Apart := by
  induction is with
  | nil => exact .nil
  | cons i is ih =>
      refine .cons (fun j hj => ?_) (ih (fun k hk => hne k (List.mem_cons_of_mem _ hk))
        (fun k hk => hin k (List.mem_cons_of_mem _ hk)) fun z hl hh => ?_)
      · by_contra hap
        obtain ⟨z, hiz, hjz⟩ := exists_shared hap (hne i List.mem_cons_self) (hne j (List.mem_cons_of_mem _ hj))
        have hb := hin i List.mem_cons_self
        have hone := h z (le_trans hb.1 hiz.1) (le_trans hiz.2 hb.2)
        have hpos : 0 < is.countP (fun i => i.Has z) := List.countP_pos_iff.mpr ⟨j, hj, by simpa using hjz⟩
        rw [List.countP_cons, if_pos (by simpa using hiz)] at hone
        omega
      · have hone := h z hl hh
        rw [List.countP_cons] at hone
        omega

theorem countP_one_iff {is : List Interval} (hne : ∀ i ∈ is, i.Proper) {min max : Int}
    (hin : ∀ i ∈ is, min ≤ i.lo ∧ i.hi ≤ max) :
    (∀ z, min ≤ z → z ≤ max → is.countP (fun i => i.Has z) = 1) ↔ is.Pairwise Apart ∧ Covers min max is := by
  constructor
  · intro h
    refine ⟨pairwise_of_countP hne hin fun z hl hh => le_of_eq (h z hl hh), fun z hl hh => ?_⟩
    have hpos : 0 < is.countP (fun i => i.Has z) := by
      rw [h z hl hh]
      exact Nat.one_pos
    obtain ⟨i, hi, hz⟩ := List.countP_pos_iff.mp hpos
    exact ⟨i, hi, by simpa using hz⟩
  · rintro ⟨hap, hcov⟩ z hl hh
    obtain ⟨i, hi, hz⟩ := hcov z hl hh
    have hpos : 0 < is.countP (fun i => i.Has z) := List.countP_pos_iff.mpr ⟨i, hi, by simpa using hz⟩
    have := countP_le_one hap z
    omega

def byLo (i j : Interval) : Prop := i.lo ≤ j.lo

instance : DecidableRel byLo := fun i j => inferInstanceAs (Decidable (i.lo ≤ j.lo))

def sortByLo (is : List Interval) : List Interval := is.insertionSort byLo

theorem sortByLo_perm (is : List Interval) : (sortByLo is).Perm is := List.perm_insertionSort byLo is

instance : IsTrans Interval byLo := ⟨fun _ _ _ h h' => le_trans h h'⟩

instance : Std.Total byLo := ⟨fun i j => le_total i.lo j.lo⟩

theorem sortByLo_ascending {is : List Interval} (hne : ∀ i ∈ is, i.Proper) (hap : is.Pairwise Apart) :
    (sortByLo is).Pairwise fun i j => i.hi < j.lo := by
  have hsorted : (sortByLo is).Pairwise byLo := List.pairwise_insertionSort byLo is
  have hapart : (sortByLo is).Pairwise Apart := hap.perm (sortByLo_perm is).symm fun h => h.symm
  refine (hsorted.and hapart).imp_of_mem ?_
  rintro i j hi hj ⟨hlo, hij⟩
  have hj' := hne j ((sortByLo_perm is).mem_iff.mp hj)
  unfold byLo at hlo
  unfold Apart at hij
  unfold Proper at hj'
  omega

theorem sorted_chain_iff {is : List Interval} (hne : ∀ i ∈ is, i.Proper) (hap : is.Pairwise Apart) {min max : Int}
    (hin : ∀ i ∈ is, min ≤ i.lo ∧ i.hi ≤ max) (hmin : min ≤ max) :
    Chain max min (sortByLo is) ↔ Covers min max is := by
  have hmem := fun i => (sortByLo_perm is).mem_iff (a := i)
  rw [chain_iff_covers (fun i hi => hne i ((hmem i).mp hi)) (sortByLo_ascending hne hap)
    (fun i hi => hin i ((hmem i).mp hi)) hmin]
  simp only [Covers, hmem]

end Ore.Intervals
