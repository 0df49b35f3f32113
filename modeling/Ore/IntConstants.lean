import Ore.Coercions
import Ore.HostInts
import Ore.SyntaxKinds

namespace Ore.IntConstants

open Coercions HostInts InternKeys SyntaxKinds TypeHoles

/-- An interned integer value: its own type and its 64 bits. -/
structure IntConst where
  type : Ty
  bits : BitVec 64
  deriving DecidableEq

/-- An expression with a known integer value: the expression's type beside the
value's own. -/
structure TypedConst where
  type : Ty
  value : IntConst
  deriving DecidableEq

def comptimeInt : Ty := .prim .comptimeInt

def isInteger (t : Ty) : Bool := isConcreteInt t || t = comptimeInt

/-- The numbers of an integer type. A `comptime_int` is any number that 64 bits
can stand for, signed or not. -/
def InRange (t : Ty) (z : Int) : Prop :=
  if t = comptimeInt then Readable z
  else if isUnsignedInt t then 0 ≤ z ∧ z < 2 ^ intBits t
  else -2 ^ (intBits t - 1) ≤ z ∧ z < 2 ^ (intBits t - 1)

/-- The numbers a constant of the type can be read as. -/
def Carries (t : Ty) (z : Int) : Prop :=
  if t = comptimeInt then Readable z else ¬ Outside (isUnsignedInt t) z

/-- The constant denotes the number. Of the two readings of a `comptime_int` the
bits alone prefer neither. -/
structure Stands (c : IntConst) (z : Int) : Prop where
  integer : isInteger c.type
  carries : Carries c.type z
  bits : c.bits = pattern z

theorem carries_readable {t : Ty} {z : Int} (h : Carries t z) : Readable z := by
  unfold Carries at h
  split at h
  · exact h
  · exact readable_of_inside h

theorem Stands.readable {c : IntConst} {z : Int} (h : Stands c z) : Readable z := carries_readable h.carries

theorem not_unsigned_comptime : isUnsignedInt comptimeInt = false := rfl

/-- The types an integer can have, by what the checks below ask of them. -/
inductive Kind (t : Ty) : Prop where
  | comptime (h : t = comptimeInt)
  | unsigned (bits : Nat) (hu : isUnsignedInt t = true) (hs : isSignedInt t = false) (hc : t ≠ comptimeInt)
      (hb : intBits t = bits) (hw : bits = 8 ∨ bits = 16 ∨ bits = 32 ∨ bits = 64)
  | signed (bits : Nat) (hs : isSignedInt t = true) (hu : isUnsignedInt t = false) (hc : t ≠ comptimeInt)
      (hb : intBits t = bits) (hw : bits = 8 ∨ bits = 16 ∨ bits = 32 ∨ bits = 64)

theorem kind {t : Ty} (h : isInteger t = true) : Kind t := by
  cases t with
  | prim p =>
      cases p with
      | comptimeInt => exact .comptime rfl
      | u8 | u16 | u32 | u64 | usize => exact .unsigned _ rfl rfl (by decide) rfl (by decide)
      | i8 | i16 | i32 | i64 | isize => exact .signed _ rfl rfl (by decide) rfl (by decide)
      | _ => simp [isInteger, isConcreteInt, isSignedInt, isUnsignedInt, comptimeInt] at h
  | _ => simp [isInteger, isConcreteInt, isSignedInt, isUnsignedInt, comptimeInt] at h

theorem carries_of_inRange {t : Ty} {z : Int} (ht : isInteger t) (h : InRange t z) : Carries t z := by
  cases kind ht with
  | comptime hc => simpa [InRange, Carries, hc] using h
  | unsigned b hu hs hc hb hw =>
      simp only [InRange, hc, hu, hb, ite_true, ite_false] at h
      simp only [Carries, hc, hu, Outside, ite_true, ite_false]
      rcases hw with rfl | rfl | rfl | rfl <;> omega
  | signed b hs hu hc hb hw =>
      simp only [InRange, hc, hu, hb, ite_false, Bool.false_eq_true] at h
      simp only [Carries, hc, hu, Outside, ite_false, Bool.false_eq_true]
      rcases hw with rfl | rfl | rfl | rfl <;> omega

/-- Where every number in the range of the type can stand in the reading of the fold. -/
theorem inRange_readable {t : Ty} {z : Int} (ht : isInteger t) (h : InRange t z) : Readable z :=
  carries_readable (carries_of_inRange ht h)

theorem nonneg_of_inRange {t : Ty} {z : Int} (hu : isUnsignedInt t = true) (h : InRange t z) : 0 ≤ z := by
  have hc : t ≠ comptimeInt := by
    rintro rfl
    cases hu
  simp only [InRange, hc, hu, ite_true, ite_false] at h
  exact h.1

end Ore.IntConstants
