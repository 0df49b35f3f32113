import Mathlib.Data.Int.Bitwise
import Mathlib.Tactic.Linarith

namespace Ore.HostInts

def pattern (z : Int) : BitVec 64 := BitVec.ofInt 64 z

/-- A pattern read as `uint64_t` or as `int64_t`. -/
def reading (unsigned : Bool) (b : BitVec 64) : Int := if unsigned then b.toNat else b.toInt

/-- What the pattern of a number in `[-2^63, 2^64)` reads as. -/
def asRead (unsigned : Bool) (z : Int) : Int :=
  if unsigned then if z < 0 then z + 2 ^ 64 else z
  else if z < 2 ^ 63 then z else z - 2 ^ 64

def Outside (unsigned : Bool) (z : Int) : Prop :=
  if unsigned then z < 0 ∨ 2 ^ 64 ≤ z else z < -2 ^ 63 ∨ 2 ^ 63 ≤ z

instance (unsigned : Bool) (z : Int) : Decidable (Outside unsigned z) := by
  unfold Outside
  infer_instance

/-- The numbers that some reading of some pattern gives. -/
def Readable (z : Int) : Prop := -2 ^ 63 ≤ z ∧ z < 2 ^ 64

/-- The outcome of a host operation: the pattern, and whether C defines the
operation on its operands. -/
structure Host where
  bits : BitVec 64
  defined : Bool
  deriving DecidableEq

namespace Host

def add (l r : BitVec 64) : Host := ⟨l + r, true⟩

def sub (l r : BitVec 64) : Host := ⟨l - r, true⟩

def mul (l r : BitVec 64) : Host := ⟨l * r, true⟩

def div (unsigned : Bool) (l r : BitVec 64) : Host :=
  if unsigned then ⟨l / r, r ≠ 0⟩
  else ⟨l.sdiv r, r ≠ 0 ∧ ¬ (l = BitVec.intMin 64 ∧ r = -1)⟩

def rem (unsigned : Bool) (l r : BitVec 64) : Host :=
  if unsigned then ⟨l % r, r ≠ 0⟩
  else ⟨l.srem r, r ≠ 0 ∧ ¬ (l = BitVec.intMin 64 ∧ r = -1)⟩

def neg (l : BitVec 64) : Host := ⟨-l, l ≠ BitVec.intMin 64⟩

/-- A signed left shift is defined on a value that stays non-negative and in range. -/
def shl (l r : BitVec 64) : Host :=
  ⟨l <<< r.toNat, r.toNat < 64 ∧ 0 ≤ l.toInt ∧ l.toInt * 2 ^ r.toNat < 2 ^ 63⟩

def shr (unsigned : Bool) (l r : BitVec 64) : Host :=
  ⟨if unsigned then l >>> r.toNat else l.sshiftRight r.toNat, r.toNat < 64⟩

end Host

/-- `__builtin_add_overflow` and its two siblings. -/
def addOverflow (unsigned : Bool) (l r : BitVec 64) : Bool :=
  if unsigned then l.uaddOverflow r else l.saddOverflow r

def subOverflow (unsigned : Bool) (l r : BitVec 64) : Bool :=
  if unsigned then l.usubOverflow r else l.ssubOverflow r

def mulOverflow (unsigned : Bool) (l r : BitVec 64) : Bool :=
  if unsigned then l.umulOverflow r else l.smulOverflow r

theorem pattern_eq_iff {x y : Int} : pattern x = pattern y ↔ x % 2 ^ 64 = y % 2 ^ 64 := by
  constructor
  · intro h
    have hn := congrArg BitVec.toNat h
    simp only [pattern, BitVec.toNat_ofInt] at hn
    omega
  · intro h
    apply BitVec.eq_of_toNat_eq
    simp only [pattern, BitVec.toNat_ofInt]
    omega

theorem pattern_reading (u : Bool) (b : BitVec 64) : pattern (reading u b) = b := by
  cases u
  · simp [pattern, reading, BitVec.ofInt_toInt]
  · simp [pattern, reading]

theorem reading_bounds (u : Bool) (b : BitVec 64) : ¬ Outside u (reading u b) := by
  have := b.isLt
  have := b.toInt_lt
  have := b.le_toInt
  cases u <;> simp [Outside, reading] <;> omega

theorem asRead_low {z : Int} (h : z < 2 ^ 63) : asRead false z = z := by
  rw [asRead, if_neg (by simp), if_pos h]

theorem asRead_high {z : Int} (h : ¬ z < 2 ^ 63) : asRead false z = z - 2 ^ 64 := by
  rw [asRead, if_neg (by simp), if_neg h]

theorem asRead_negative {z : Int} (h : z < 0) : asRead true z = z + 2 ^ 64 := by
  rw [asRead, if_pos rfl, if_pos h]

theorem asRead_natural {z : Int} (h : ¬ z < 0) : asRead true z = z := by
  rw [asRead, if_pos rfl, if_neg h]

theorem asRead_bounds (u : Bool) {z : Int} (hz : Readable z) : ¬ Outside u (asRead u z) := by
  obtain ⟨hl, hh⟩ := hz
  cases u <;> simp only [Outside, asRead] <;> simp <;> omega

theorem asRead_congr (u : Bool) (z : Int) : asRead u z % 2 ^ 64 = z % 2 ^ 64 := by
  cases u <;> simp only [asRead] <;> simp <;> split <;> omega

/-- Two numbers that one reading can give are equal when their patterns are. -/
theorem eq_of_congr {u : Bool} {x y : Int} (hx : ¬ Outside u x) (hy : ¬ Outside u y)
    (h : x % 2 ^ 64 = y % 2 ^ 64) : x = y := by
  cases u <;> simp [Outside] at hx hy <;> omega

theorem reading_pattern (u : Bool) {z : Int} (hz : Readable z) : reading u (pattern z) = asRead u z := by
  apply eq_of_congr (reading_bounds u _) (asRead_bounds u hz)
  rw [asRead_congr]
  exact pattern_eq_iff.mp (pattern_reading u _)

theorem readable_of_inside {u : Bool} {z : Int} (hz : ¬ Outside u z) : Readable z := by
  cases u <;> simp [Outside] at hz <;> constructor <;> omega

theorem pattern_zero_iff {z : Int} (hz : Readable z) : pattern z = 0 ↔ z = 0 := by
  have h : (0 : BitVec 64) = pattern 0 := rfl
  obtain ⟨hl, hh⟩ := hz
  rw [h, pattern_eq_iff]
  omega

theorem pattern_eq_intMin {z : Int} (hz : Readable z) :
    pattern z = BitVec.intMin 64 ↔ z = -2 ^ 63 ∨ z = 2 ^ 63 := by
  have h : BitVec.intMin 64 = pattern (-2 ^ 63) := by decide
  obtain ⟨hl, hh⟩ := hz
  rw [h, pattern_eq_iff]
  omega

theorem pattern_eq_negOne {z : Int} (hz : Readable z) :
    pattern z = -1 ↔ z = -1 ∨ z = 2 ^ 64 - 1 := by
  have h : (-1 : BitVec 64) = pattern (-1) := by decide
  obtain ⟨hl, hh⟩ := hz
  rw [h, pattern_eq_iff]
  omega

theorem pattern_add (x y : Int) : pattern x + pattern y = pattern (x + y) := (BitVec.ofInt_add x y).symm

theorem pattern_neg (x : Int) : -pattern x = pattern (-x) := BitVec.ofInt_neg.symm

theorem pattern_sub (x y : Int) : pattern x - pattern y = pattern (x - y) := by
  rw [BitVec.sub_eq_add_neg, pattern_neg, pattern_add, Int.sub_eq_add_neg]

theorem pattern_mul (x y : Int) : pattern x * pattern y = pattern (x * y) := (BitVec.ofInt_mul x y).symm

theorem pattern_not (x : Int) : ~~~pattern x = pattern (-x - 1) := by
  rw [BitVec.not_eq_neg_add, pattern_neg, show (1#64) = pattern 1 from rfl, pattern_sub]

theorem pattern_getLsbD (z : Int) (i : Nat) (hi : i < 64) : (pattern z).getLsbD i = z.testBit i := by
  cases z with
  | ofNat n => simp [pattern, Int.testBit, hi, BitVec.getLsbD_ofNat, -BitVec.getLsbD_eq_getElem]
  | negSucc n => simp [pattern, Int.testBit, hi, BitVec.getLsbD_ofNat, -BitVec.getLsbD_eq_getElem]

theorem pattern_land (x y : Int) : pattern x &&& pattern y = pattern (Int.land x y) := by
  apply BitVec.eq_of_getLsbD_eq
  intro i hi
  simp only [BitVec.getLsbD_and, pattern_getLsbD _ _ hi, Int.testBit_land]

theorem pattern_lor (x y : Int) : pattern x ||| pattern y = pattern (Int.lor x y) := by
  apply BitVec.eq_of_getLsbD_eq
  intro i hi
  simp only [BitVec.getLsbD_or, pattern_getLsbD _ _ hi, Int.testBit_lor]

theorem pattern_xor (x y : Int) : pattern x ^^^ pattern y = pattern (Int.xor x y) := by
  apply BitVec.eq_of_getLsbD_eq
  intro i hi
  simp only [BitVec.getLsbD_xor, pattern_getLsbD _ _ hi, Int.testBit_lxor]

theorem addOverflow_iff (u : Bool) (l r : BitVec 64) :
    addOverflow u l r ↔ Outside u (reading u l + reading u r) := by
  cases u <;> simp [addOverflow, Outside, reading, BitVec.uaddOverflow, BitVec.saddOverflow] <;> omega

theorem subOverflow_iff (u : Bool) (l r : BitVec 64) :
    subOverflow u l r ↔ Outside u (reading u l - reading u r) := by
  have := l.isLt
  cases u <;> simp [subOverflow, Outside, reading, BitVec.usubOverflow, BitVec.ssubOverflow] <;> omega

theorem mulOverflow_iff (u : Bool) (l r : BitVec 64) :
    mulOverflow u l r ↔ Outside u (reading u l * reading u r) := by
  cases u with
  | false =>
      simp [mulOverflow, Outside, reading, BitVec.smulOverflow]
      omega
  | true =>
      have : (0 : Int) ≤ (l.toNat : Int) * r.toNat := by positivity
      simp only [mulOverflow, Outside, reading, BitVec.umulOverflow, ite_true, decide_eq_true_eq]
      omega

theorem div_defined (u : Bool) {l r : BitVec 64} (h0 : r ≠ 0)
    (hm : u = false → ¬ (l = BitVec.intMin 64 ∧ r = -1)) :
    (Host.div u l r).defined = true ∧ (Host.rem u l r).defined = true := by
  cases u with
  | false => exact ⟨decide_eq_true ⟨h0, hm rfl⟩, decide_eq_true ⟨h0, hm rfl⟩⟩
  | true => exact ⟨decide_eq_true h0, decide_eq_true h0⟩

theorem div_bits (u : Bool) (l r : BitVec 64) :
    (Host.div u l r).bits = pattern ((reading u l).tdiv (reading u r)) := by
  cases u with
  | false =>
      apply BitVec.eq_of_toInt_eq
      simp [Host.div, reading, pattern, BitVec.toInt_sdiv]
  | true =>
      simp only [Host.div, reading, pattern, ite_true, ← Int.ofNat_tdiv, BitVec.ofInt_natCast]
      apply BitVec.eq_of_toNat_eq
      rw [BitVec.toNat_udiv, BitVec.toNat_ofNat, Nat.mod_eq_of_lt]
      exact lt_of_le_of_lt (Nat.div_le_self _ _) l.isLt

theorem rem_bits (u : Bool) (l r : BitVec 64) :
    (Host.rem u l r).bits = pattern ((reading u l).tmod (reading u r)) := by
  cases u with
  | false =>
      rw [← pattern_reading false (Host.rem false l r).bits]
      simp [Host.rem, reading, BitVec.toInt_srem]
  | true =>
      simp only [Host.rem, reading, pattern, ite_true, ← Int.ofNat_tmod, BitVec.ofInt_natCast]
      apply BitVec.eq_of_toNat_eq
      rw [BitVec.toNat_umod, BitVec.toNat_ofNat]
      exact (Nat.mod_eq_of_lt (lt_of_le_of_lt (Nat.mod_le _ _) l.isLt)).symm

theorem shl_bits (x : Int) (r : BitVec 64) :
    (Host.shl (pattern x) r).bits = pattern (x * 2 ^ r.toNat) := by
  have ht : BitVec.twoPow 64 r.toNat = pattern (2 ^ r.toNat) := by
    apply BitVec.eq_of_toNat_eq
    rw [pattern, show (2 : Int) ^ r.toNat = ((2 ^ r.toNat : Nat) : Int) by push_cast; rfl]
    rw [BitVec.ofInt_natCast, BitVec.toNat_ofNat, BitVec.toNat_twoPow]
  rw [Host.shl, BitVec.shiftLeft_eq_mul_twoPow, ht, pattern_mul]

theorem shr_bits (u : Bool) (l r : BitVec 64) :
    (Host.shr u l r).bits = pattern (reading u l / 2 ^ r.toNat) := by
  cases u with
  | false =>
      rw [← pattern_reading false (Host.shr false l r).bits]
      simp [Host.shr, reading, BitVec.toInt_sshiftRight, Int.shiftRight_eq_div_pow]
  | true =>
      rw [← pattern_reading true (Host.shr true l r).bits]
      simp [Host.shr, reading, Nat.shiftRight_eq_div_pow]

theorem amount_iff {y : Int} (hy : Readable y) :
    (0 ≤ (pattern y).toInt ∧ (pattern y).toInt < 64) ↔ (0 ≤ y ∧ y < 64) := by
  have h := reading_pattern false hy
  obtain ⟨hl, hh⟩ := hy
  simp only [reading, asRead] at h
  simp at h
  rw [h]
  split <;> omega

theorem amount_toNat {y : Int} (hl : 0 ≤ y) (hh : y < 64) : (pattern y).toNat = y.toNat := by
  simp only [pattern, BitVec.toNat_ofInt]
  omega

end Ore.HostInts
