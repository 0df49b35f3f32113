import Mathlib.Algebra.Ring.Nat
import Mathlib.Data.Nat.Bitwise
import Mathlib.Order.Bounds.Basic
import Mathlib.Tactic.Common

namespace Ore.FieldPlacement

variable {a n m low high o k : Nat}

def roundUp (a n : Nat) : Nat := (n + a - 1) / a * a

theorem dvd_roundUp (a n : Nat) : a ∣ roundUp a n := Nat.dvd_mul_left _ _

theorem roundUp_add_mod (a n : Nat) : roundUp a n + (n + a - 1) % a = n + a - 1 := by
  have h := Nat.div_add_mod (n + a - 1) a
  rw [Nat.mul_comm] at h
  exact h

theorem le_roundUp (ha : 0 < a) (n : Nat) : n ≤ roundUp a n := by
  have h := roundUp_add_mod a n
  have hmod := Nat.mod_lt (n + a - 1) ha
  omega

theorem roundUp_lt (ha : 0 < a) (n : Nat) : roundUp a n < n + a := by
  have h := roundUp_add_mod a n
  omega

/-- The least multiple that is not below the number. -/
theorem roundUp_le (ha : 0 < a) (hn : n ≤ m) (hm : a ∣ m) : roundUp a n ≤ m := by
  have hlt := roundUp_lt ha n
  obtain ⟨i, hi⟩ := dvd_roundUp a n
  obtain ⟨j, rfl⟩ := hm
  rw [hi] at hlt ⊢
  apply Nat.mul_le_mul_left
  by_contra hij
  have hstep : a * (j + 1) ≤ a * i := Nat.mul_le_mul_left a (by omega)
  rw [Nat.mul_add] at hstep
  omega

structure Extent where
  size : Nat
  align : Nat
  deriving DecidableEq, Repr

variable {f : Extent} {fs : List Extent} {os : List Nat}

/-- The offsets of fields from `low` on. -/
def place : Nat → List Extent → List Nat
  | _, [] => []
  | low, f :: fs => roundUp f.align low :: place (roundUp f.align low + f.size) fs

def placedEnd : Nat → List Extent → Nat
  | low, [] => low
  | low, f :: fs => placedEnd (roundUp f.align low + f.size) fs

/-- Fields at aligned offsets between `low` and `high`, each behind the one before. -/
inductive Placed : Nat → List Extent → List Nat → Nat → Prop
  | nil {low high : Nat} : low ≤ high → Placed low [] [] high
  | cons {low high o : Nat} {f : Extent} {fs : List Extent} {os : List Nat} : low ≤ o → f.align ∣ o →
      Placed (o + f.size) fs os high → Placed low (f :: fs) (o :: os) high

theorem place_placed (h : ∀ f ∈ fs, 0 < f.align) (low : Nat) : Placed low fs (place low fs) (placedEnd low fs) := by
  induction fs generalizing low with
  | nil => exact .nil (Nat.le_refl _)
  | cons f fs ih =>
      obtain ⟨hf, hfs⟩ := List.forall_mem_cons.mp h
      exact .cons (le_roundUp hf low) (dvd_roundUp _ _) (ih hfs _)

theorem placedEnd_le (h : ∀ f ∈ fs, 0 < f.align) (hplaced : Placed low fs os high) (hn : n ≤ low) :
    placedEnd n fs ≤ high := by
  induction hplaced generalizing n with
  | nil hle => exact Nat.le_trans hn hle
  | @cons low high o f fs os hle hdvd hrest ih =>
      obtain ⟨hf, hfs⟩ := List.forall_mem_cons.mp h
      apply ih hfs
      have hround := roundUp_le hf (Nat.le_trans hn hle) hdvd
      omega

theorem Placed.weaken (h : Placed low fs os high) (hle : high ≤ m) : Placed low fs os m := by
  induction h with
  | nil hlow => exact .nil (Nat.le_trans hlow hle)
  | cons hlow hdvd hrest ih => exact .cons hlow hdvd (ih hle)

def maxAlign (fs : List Extent) : Nat := fs.foldl (fun a f => max a f.align) 1

def maxSize (fs : List Extent) : Nat := fs.foldl (fun n f => max n f.size) 0

theorem le_foldl_max (g : Extent → Nat) (fs : List Extent) (n : Nat) :
    n ≤ fs.foldl (fun n f => max n (g f)) n ∧ ∀ f ∈ fs, g f ≤ fs.foldl (fun n f => max n (g f)) n := by
  induction fs generalizing n with
  | nil => exact ⟨Nat.le_refl _, nofun⟩
  | cons f fs ih =>
      obtain ⟨hn, hfs⟩ := ih (max n (g f))
      rw [List.foldl_cons]
      refine ⟨by omega, ?_⟩
      rw [List.forall_mem_cons]
      exact ⟨by omega, hfs⟩

theorem foldl_max_le (g : Extent → Nat) (hn : n ≤ m) (h : ∀ f ∈ fs, g f ≤ m) :
    fs.foldl (fun n f => max n (g f)) n ≤ m := by
  induction fs generalizing n with
  | nil => exact hn
  | cons f fs ih =>
      obtain ⟨hf, hfs⟩ := List.forall_mem_cons.mp h
      exact ih (Nat.max_le.mpr ⟨hn, hf⟩) hfs

theorem align_le (h : f ∈ fs) : f.align ≤ maxAlign fs := (le_foldl_max Extent.align fs 1).2 f h

theorem maxAlign_pos (fs : List Extent) : 0 < maxAlign fs := (le_foldl_max Extent.align fs 1).1

theorem size_le (h : f ∈ fs) : f.size ≤ maxSize fs := (le_foldl_max Extent.size fs 0).2 f h

theorem maxAlign_pow (h : ∀ f ∈ fs, ∃ j, f.align = 2 ^ j) : ∃ k, maxAlign fs = 2 ^ k := by
  have hfold : ∀ n, (∃ j, n = 2 ^ j) → ∃ k, fs.foldl (fun a f => max a f.align) n = 2 ^ k := by
    induction fs with
    | nil => exact fun n hn => hn
    | cons f fs ih =>
        obtain ⟨hf, hfs⟩ := List.forall_mem_cons.mp h
        intro n hn
        apply ih hfs
        show ∃ j, max n f.align = 2 ^ j
        rcases Nat.le_total n f.align with hle | hle
        · rwa [Nat.max_eq_right hle]
        · rwa [Nat.max_eq_left hle]
  exact hfold 1 ⟨0, rfl⟩

def structExtent (fs : List Extent) : Extent := ⟨roundUp (maxAlign fs) (placedEnd 0 fs), maxAlign fs⟩

/-- All at the start, padded at the end. -/
def unionExtent (fs : List Extent) : Extent := ⟨roundUp (maxAlign fs) (maxSize fs), maxAlign fs⟩

theorem structExtent_placed (h : ∀ f ∈ fs, 0 < f.align) : Placed 0 fs (place 0 fs) (structExtent fs).size :=
  (place_placed h 0).weaken (le_roundUp (maxAlign_pos fs) _)

theorem structExtent_le (h : ∀ f ∈ fs, 0 < f.align) (hplaced : Placed 0 fs os high) (hdvd : maxAlign fs ∣ high) :
    (structExtent fs).size ≤ high := by
  apply roundUp_le (maxAlign_pos fs)
  · exact placedEnd_le h hplaced (Nat.le_refl _)
  · exact hdvd

theorem unionExtent_le (h : ∀ f ∈ fs, f.size ≤ high) (hdvd : maxAlign fs ∣ high) : (unionExtent fs).size ≤ high := by
  apply roundUp_le (maxAlign_pos fs)
  · exact foldl_max_le Extent.size (Nat.zero_le _) h
  · exact hdvd

theorem maxAlign_isLeast (h : ∀ f ∈ fs, ∃ j, f.align = 2 ^ j) :
    IsLeast {a | 0 < a ∧ ∀ f ∈ fs, f.align ∣ a} (maxAlign fs) := by
  constructor
  · refine ⟨maxAlign_pos fs, fun f hf => ?_⟩
    obtain ⟨k, hk⟩ := maxAlign_pow h
    obtain ⟨j, hj⟩ := h f hf
    have hle := align_le hf
    rw [hj, hk] at hle ⊢
    exact Nat.pow_dvd_pow 2 ((Nat.pow_le_pow_iff_right (by decide)).mp hle)
  · rintro b ⟨hpos, hb⟩
    apply foldl_max_le Extent.align hpos
    exact fun f hf => Nat.le_of_dvd hpos (hb f hf)

section Words

/-- The rounding of 64-bit code. -/
def alignUp (x a : UInt64) : UInt64 := (x + a - 1) &&& ~~~(a - 1)

theorem and_not_toNat (x m : UInt64) : (x &&& ~~~m).toNat = x.toNat - (x.toNat &&& m.toNat) := by
  have hsplit : x.toNat = (x.toNat &&& m.toNat) + (x &&& ~~~m).toNat := by
    have hdisjoint : (x &&& m).toBitVec &&& (x &&& ~~~m).toBitVec = 0#64 := by
      ext i hi
      simp only [UInt64.toBitVec_and, UInt64.toBitVec_not, BitVec.getElem_and, BitVec.getElem_not, BitVec.getElem_zero]
      cases x.toBitVec[i] <;> cases m.toBitVec[i] <;> rfl
    have hunion : (x &&& m).toBitVec ||| (x &&& ~~~m).toBitVec = x.toBitVec := by
      ext i hi
      simp only [UInt64.toBitVec_and, UInt64.toBitVec_not, BitVec.getElem_or, BitVec.getElem_and, BitVec.getElem_not]
      cases x.toBitVec[i] <;> cases m.toBitVec[i] <;> rfl
    have hsum := BitVec.toNat_add_of_and_eq_zero hdisjoint
    rw [BitVec.add_eq_or_of_and_eq_zero _ _ hdisjoint, hunion] at hsum
    exact hsum
  omega

theorem mod_mod_pow (h : k ≤ 64) (n : Nat) : n % 2 ^ 64 % 2 ^ k = n % 2 ^ k :=
  Nat.mod_mod_of_dvd n (Nat.pow_dvd_pow 2 h)

theorem alignUp_toNat {x a : UInt64} (ha : a.toNat = 2 ^ k) :
    (alignUp x a).toNat = roundUp (2 ^ k) x.toNat % 2 ^ 64 := by
  have hpos : 0 < 2 ^ k := Nat.two_pow_pos k
  have hlt : a.toNat < 2 ^ 64 := a.toNat_lt
  have hk : k < 64 := by
    rw [ha] at hlt
    exact (Nat.pow_lt_pow_iff_right (by decide)).mp hlt
  have hmask : (a - 1).toNat = 2 ^ k - 1 := by
    have hle : (1 : UInt64) ≤ a := by
      rw [UInt64.le_iff_toNat_le, ha]
      exact hpos
    rw [UInt64.toNat_sub_of_le _ _ hle, ha]
    rfl
  have hsum : (x + a - 1).toNat = (x.toNat + 2 ^ k - 1) % 2 ^ 64 := by
    have hassoc : x + a - 1 = x + (a - 1) := by
      rw [UInt64.sub_eq_add_neg, UInt64.add_assoc, ← UInt64.sub_eq_add_neg]
    rw [hassoc, UInt64.toNat_add, hmask, Nat.add_sub_assoc hpos]
  rw [alignUp, and_not_toNat, hmask, hsum, Nat.and_two_pow_sub_one_eq_mod, mod_mod_pow (Nat.le_of_lt hk)]
  have hround := roundUp_add_mod (2 ^ k) x.toNat
  generalize roundUp (2 ^ k) x.toNat = r at hround ⊢
  generalize x.toNat + 2 ^ k - 1 = z at hround ⊢
  have hlow : z % 2 ^ k ≤ z % 2 ^ 64 := by
    rw [← mod_mod_pow (Nat.le_of_lt hk)]
    exact Nat.mod_le _ _
  omega

end Words

end Ore.FieldPlacement
