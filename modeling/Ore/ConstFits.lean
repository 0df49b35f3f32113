import Ore.IntConstants
import Ore.ConstFolding

namespace Ore.ConstFits

open Coercions HostInts InternKeys IntConstants TypeHoles

/-- The answer of a range check with the bounds it names for a diagnostic. -/
structure Fit where
  fits : Bool
  lo : Option String
  hi : Option String
  deriving DecidableEq

def intFitsSigned (v : Int) : Nat → Fit
  | 8 => ⟨-128 ≤ v ∧ v ≤ 127, some "-128", some "127"⟩
  | 16 => ⟨-32768 ≤ v ∧ v ≤ 32767, some "-32768", some "32767"⟩
  | 32 => ⟨-2147483648 ≤ v ∧ v ≤ 2147483647, some "-2147483648", some "2147483647"⟩
  | 64 => ⟨true, some "-9223372036854775808", some "9223372036854775807"⟩
  | _ => ⟨false, none, none⟩

def intFitsUnsignedU64 (u : Nat) : Nat → Fit
  | 8 => ⟨u ≤ 255, some "0", some "255"⟩
  | 16 => ⟨u ≤ 65535, some "0", some "65535"⟩
  | 32 => ⟨u ≤ 4294967295, some "0", some "4294967295"⟩
  | 64 => ⟨true, some "0", some "18446744073709551615"⟩
  | _ => ⟨false, some "0", none⟩

/-- A negative number is rejected with the same bounds. -/
def intFitsUnsigned (v : Int) (bits : Nat) : Fit :=
  if v < 0 then { intFitsUnsignedU64 0 bits with fits := false } else intFitsUnsignedU64 v.toNat bits

def tvFitsIn (value : IntConst) (target : Ty) : Fit :=
  if target = comptimeInt then ⟨true, none, none⟩
  else
    let bits := intBits target
    if bits = 0 then ⟨false, none, none⟩
    else if value.type ≠ comptimeInt ∧ isUnsignedInt value.type then
      if isUnsignedInt target then intFitsUnsignedU64 value.bits.toNat bits
      else if isSignedInt target then
        let smax := if bits = 64 then 2 ^ 63 - 1 else 2 ^ (bits - 1) - 1
        if smax < value.bits.toNat then intFitsSigned value.bits.toInt bits
        else intFitsSigned (BitVec.ofNat 64 value.bits.toNat).toInt bits
      else ⟨false, none, none⟩
    else if isSignedInt target then intFitsSigned value.bits.toInt bits
    else if isUnsignedInt target then intFitsUnsigned value.bits.toInt bits
    else ⟨false, none, none⟩

inductive Coercion where
  | ok
  | failRange (lo hi : Option String)
  | failType
  deriving DecidableEq

def unwrapOptionalChain : Ty → Ty
  | .optional elem => unwrapOptionalChain elem
  | t => t

def rangeChecked (value : IntConst) (target : Ty) : Coercion :=
  let fit := tvFitsIn value target
  if fit.fits then .ok else .failRange fit.lo fit.hi

/-- `coerce` of an expression whose integer value is known. -/
def coerce (depth : Nat) (tv : TypedConst) (expected : Ty) (c : Ctx) : Option (Coercion × Ctx) :=
  (coerceStructuralCtx depth tv.type expected c).map fun r =>
    let rangeTarget := unwrapOptionalChain expected
    if r.1 then
      if (tv.type = comptimeInt ∨ tv.type = ConstFolding.comptimeFloat) ∧
          (isConcreteInt rangeTarget ∨ isConcreteFloat rangeTarget) then
        (rangeChecked tv.value rangeTarget, r.2)
      else (.ok, r.2)
    else if isConcreteInt tv.type ∧ isConcreteInt rangeTarget then (rangeChecked tv.value rangeTarget, r.2)
    else (.failType, r.2)

theorem unwrapOptionalChain_integer {t : Ty} (ht : isInteger t) : unwrapOptionalChain t = t := by
  cases t with
  | prim => rfl
  | _ => cases ht

theorem tvFitsIn_signed (value : IntConst) {t : Ty} (hs : isSignedInt t = true) (hu : isUnsignedInt t = false)
    (hc : t ≠ comptimeInt) (h0 : intBits t ≠ 0) :
    tvFitsIn value t = intFitsSigned value.bits.toInt (intBits t) := by
  simp [tvFitsIn, hs, hu, hc, h0]

theorem tvFitsIn_unsigned (value : IntConst) {t : Ty} (hu : isUnsignedInt t = true) (hs : isSignedInt t = false)
    (hc : t ≠ comptimeInt) (h0 : intBits t ≠ 0) :
    tvFitsIn value t =
      if value.type ≠ comptimeInt ∧ isUnsignedInt value.type then
        intFitsUnsignedU64 value.bits.toNat (intBits t)
      else intFitsUnsigned value.bits.toInt (intBits t) := by
  simp [tvFitsIn, hs, hu, hc, h0]

theorem intFitsSigned_spec {b : Nat} (hb : b = 8 ∨ b = 16 ∨ b = 32 ∨ b = 64) {v : Int}
    (hv : ¬ Outside false v) :
    (intFitsSigned v b).fits = true ↔ -2 ^ (b - 1) ≤ v ∧ v < 2 ^ (b - 1) := by
  simp only [Outside, Bool.false_eq_true, ite_false] at hv
  rcases hb with rfl | rfl | rfl | rfl <;> simp only [intFitsSigned, decide_eq_true_eq, eq_self, true_iff] <;> omega

theorem intFitsUnsignedU64_spec {b : Nat} (hb : b = 8 ∨ b = 16 ∨ b = 32 ∨ b = 64) {v : Nat} (hv : v < 2 ^ 64) :
    (intFitsUnsignedU64 v b).fits = true ↔ v < 2 ^ b := by
  rcases hb with rfl | rfl | rfl | rfl <;>
    simp only [intFitsUnsignedU64, decide_eq_true_eq, eq_self, true_iff] <;> omega

theorem intFitsUnsigned_spec {b : Nat} (hb : b = 8 ∨ b = 16 ∨ b = 32 ∨ b = 64) {v : Int}
    (hv : ¬ Outside false v) :
    (intFitsUnsigned v b).fits = true ↔ 0 ≤ v ∧ v < 2 ^ b := by
  simp only [Outside, Bool.false_eq_true, ite_false] at hv
  unfold intFitsUnsigned
  split
  · next h =>
      simp only [Bool.false_eq_true, false_iff]
      omega
  · next h =>
      rw [intFitsUnsignedU64_spec hb (by omega)]
      rcases hb with rfl | rfl | rfl | rfl <;> omega

theorem intFitsSigned_bounds {b : Nat} (hb : b = 8 ∨ b = 16 ∨ b = 32 ∨ b = 64) (v : Int) :
    (intFitsSigned v b).lo = some (toString (-(2 : Int) ^ (b - 1))) ∧
      (intFitsSigned v b).hi = some (toString ((2 : Int) ^ (b - 1) - 1)) := by
  rcases hb with rfl | rfl | rfl | rfl <;> exact ⟨rfl, rfl⟩

theorem intFitsUnsignedU64_bounds {b : Nat} (hb : b = 8 ∨ b = 16 ∨ b = 32 ∨ b = 64) (v : Nat) :
    (intFitsUnsignedU64 v b).lo = some "0" ∧
      (intFitsUnsignedU64 v b).hi = some (toString (2 ^ b - 1)) := by
  rcases hb with rfl | rfl | rfl | rfl <;> exact ⟨rfl, rfl⟩

/-- A check against a concrete type names the bounds of that type. -/
theorem tvFitsIn_bounds (value : IntConst) {t : Ty} (ht : isConcreteInt t) :
    (tvFitsIn value t).lo =
        some (if isUnsignedInt t then "0" else toString (-(2 : Int) ^ (intBits t - 1))) ∧
      (tvFitsIn value t).hi =
        some (if isUnsignedInt t then toString (2 ^ intBits t - 1)
          else toString ((2 : Int) ^ (intBits t - 1) - 1)) := by
  cases kind (t := t) (by simp [isInteger, ht]) with
  | comptime hc =>
      subst hc
      cases ht
  | signed b hs hu hc hb hw =>
      rw [tvFitsIn_signed value hs hu hc (by omega), hb, hu]
      exact intFitsSigned_bounds hw _
  | unsigned b hu hs hc hb hw =>
      rw [tvFitsIn_unsigned value hu hs hc (by omega), hb, hu]
      split
      · exact intFitsUnsignedU64_bounds hw _
      · unfold intFitsUnsigned
        split <;> exact intFitsUnsignedU64_bounds hw _

/-- An expression whose own type the target accepts without looking at the value. -/
def Unchecked (actual t : Ty) : Prop := isConcreteInt actual ∧ (actual = t ∨ numericFits actual t)

instance (actual t : Ty) : Decidable (Unchecked actual t) := by
  unfold Unchecked
  infer_instance

/-- When the check on a constant that denotes `z` is right: the constants it gets
wrong have their top bit set. -/
def FitsRight (c : IntConst) (t : Ty) (z : Int) : Prop :=
  ¬ (2 ^ 63 ≤ z ∧
    ((isSignedInt t ∧ 2 ^ 64 - 2 ^ (intBits t - 1) ≤ z) ∨
      (c.type = comptimeInt ∧ isUnsignedInt t ∧ intBits t = 64)))

theorem tvFitsIn_iff {c : IntConst} {t : Ty} {z : Int} (hc : Stands c z) (ht : isInteger t) :
    ((tvFitsIn c t).fits = true ↔ InRange t z) ↔ FitsRight c t z := by
  have hread : c.bits.toInt = asRead false z := by
    rw [hc.bits]
    exact reading_pattern false hc.readable
  have hin : ¬ Outside false c.bits.toInt := reading_bounds false c.bits
  obtain ⟨hzl, hzh⟩ := hc.readable
  cases kind ht with
  | comptime h =>
      subst h
      refine iff_of_true (iff_of_true rfl ⟨hzl, hzh⟩) ?_
      rintro ⟨-, ⟨h, -⟩ | ⟨-, h, -⟩⟩ <;> cases h
  | signed b hs hu hcomptime hb hw =>
      rw [tvFitsIn_signed c hs hu hcomptime (by omega), hb, intFitsSigned_spec hw hin, hread]
      simp only [InRange, FitsRight, hs, hu, hb, hcomptime, true_and, false_and, and_false, or_false, ite_false,
        Bool.false_eq_true]
      by_cases h : z < 2 ^ 63
      · rw [asRead_low h]
        rcases hw with rfl | rfl | rfl | rfl <;> omega
      · rw [asRead_high h]
        rcases hw with rfl | rfl | rfl | rfl <;> omega
  | unsigned b hu hs hcomptime hb hw =>
      rw [tvFitsIn_unsigned c hu hs hcomptime (by omega), hb]
      have hcar := hc.carries
      simp only [InRange, FitsRight, hs, hu, hb, hcomptime, true_and, false_and, false_or, ite_true, ite_false,
        Bool.false_eq_true]
      split
      · next h =>
          simp only [Carries, h.1, h.2, Outside, ite_true, ite_false] at hcar
          have hnat : (c.bits.toNat : Int) = asRead true z := by
            rw [hc.bits]
            exact reading_pattern true hc.readable
          rw [asRead_natural (by omega)] at hnat
          rw [intFitsUnsignedU64_spec hw c.bits.isLt]
          simp only [h.1, false_and, and_false, not_false_eq_true, iff_true]
          rcases hw with rfl | rfl | rfl | rfl <;> omega
      · next h =>
          rw [intFitsUnsigned_spec hw hin, hread]
          by_cases hlow : z < 2 ^ 63
          · rw [asRead_low hlow]
            rcases hw with rfl | rfl | rfl | rfl <;> omega
          · have hct : c.type = comptimeInt := by
              by_contra hne
              have hns : isUnsignedInt c.type = false := by
                by_contra hun
                exact h ⟨hne, by simpa using hun⟩
              simp only [Carries, hne, hns, Outside, ite_false, Bool.false_eq_true] at hcar
              omega
            rw [asRead_high hlow]
            simp only [hct, true_and]
            rcases hw with rfl | rfl | rfl | rfl <;> omega

theorem prim_of_integer {t : Ty} (ht : isInteger t) : ∃ p, t = .prim p := by
  cases t with
  | prim p => exact ⟨p, rfl⟩
  | _ => cases ht

theorem holeRule_prims (c : Ctx) (p q : Primitive) : holeRule c (.prim p) (.prim q) = .shapes := by
  unfold holeRule
  split
  · rfl
  · have hres : ∀ (σ : TypeSubst) (p : Primitive), typeResolve σ (.prim p) = .prim p := fun _ _ => rfl
    simp [hres, Ty.varId]

theorem coerceStructuralCtx_integer (depth : Nat) {actual t : Ty} (ha : isInteger actual) (ht : isInteger t)
    (c : Ctx) :
    coerceStructuralCtx (depth + 1) actual t c = some (decide (actual = t ∨ numericFits actual t), c) := by
  obtain ⟨p, rfl⟩ := prim_of_integer ha
  obtain ⟨q, rfl⟩ := prim_of_integer ht
  have hp : p ≠ .error ∧ p ≠ .noreturn := by
    constructor <;> rintro rfl <;> cases ha
  have hq : q ≠ .error := by
    rintro rfl
    cases ht
  have hn : nilFits (.prim p) (.prim q) = false := by
    unfold nilFits
    split <;> first | rfl | contradiction
  by_cases he : p = q
  · simp [coerceStructuralCtx, coerceWith, absorbs, he]
  · simp only [coerceStructuralCtx, coerceWith, absorbs, holeRule_prims]
    simp [shapesCoerce, dropsMut, arrayDecays, hn, liftCoerces, fnCoerces, Check.orElse, Check.holds, hp, hq, he]

theorem coerce_integer (depth : Nat) {tv : TypedConst} {t : Ty} (ha : isInteger tv.type) (ht : isInteger t)
    (c : Ctx) :
    coerce (depth + 1) tv t c =
      some (if isConcreteInt t then if Unchecked tv.type t then .ok else rangeChecked tv.value t
        else if tv.type = comptimeInt then .ok else .failType, c) := by
  have hfloat : tv.type ≠ ConstFolding.comptimeFloat := by
    intro h
    rw [h] at ha
    cases ha
  have htf : isConcreteFloat t = false := by
    obtain ⟨p, rfl⟩ := prim_of_integer ht
    cases p <;> first | rfl | cases ht
  have hsplit : ∀ {s : Ty}, isInteger s → (isConcreteInt s = true ∧ s ≠ comptimeInt) ∨
      (isConcreteInt s = false ∧ s = comptimeInt) := by
    intro s hs
    by_cases hc : s = comptimeInt
    · subst hc
      exact .inr ⟨rfl, rfl⟩
    · simpa [isInteger, hc] using hs
  have hnc : isConcreteInt comptimeInt = false := rfl
  simp only [coerce, coerceStructuralCtx_integer depth ha ht, Option.map_some, unwrapOptionalChain_integer ht,
    hfloat, htf, or_false, Bool.false_eq_true, decide_eq_true_eq]
  rcases hsplit ha with ⟨hca, hna⟩ | ⟨hca, hna⟩ <;> rcases hsplit ht with ⟨hct, hnt⟩ | ⟨hct, hnt⟩
  · simp only [hca, hct, hna, Unchecked, true_and, false_and, ite_true, ite_false, and_self]
    split <;> rfl
  · have hnf : numericFits tv.type t = false := by
      rw [hnt]
      simp [numericFits, isConcreteInt, isSignedInt, isUnsignedInt, comptimeInt, isConcreteFloat]
    have hne : tv.type ≠ t := by
      rw [hnt]
      exact hna
    simp [hca, hct, hna, hnf, hne]
  · have hf : numericFits comptimeInt t = true := by
      simp [numericFits, hct, comptimeInt]
    simp [hct, hna, hf, Unchecked, hnc]
  · simp [hna, hnt, hnc]

/-- What the check and the coercions that rest on it promise about a constant that
denotes `z`. A coercion refused for its types alone promises nothing. -/
def ChecksValue (tv : TypedConst) (t : Ty) (z : Int) : Prop :=
  ((tvFitsIn tv.value t).fits = true ↔ InRange t z) ∧
    ∀ (depth : Nat) (c : Ctx) (k : Coercion) (c' : Ctx), coerce (depth + 1) tv t c = some (k, c') →
      k ≠ .failType → (k = .ok ↔ InRange t z)

theorem rangeChecked_ok (value : IntConst) (t : Ty) :
    rangeChecked value t = .ok ↔ (tvFitsIn value t).fits = true := by
  simp only [rangeChecked]
  split
  · next h => simp [h]
  · next h => simp [h]

/-- The const-fits check is exact, and a coercion of the constant is accepted
exactly when it keeps the value, just on the constants `FitsRight` describes and
on those that fit wherever the types alone let them through. -/
theorem const_check_iff (tv : TypedConst) (t : Ty) (z : Int) (ha : isInteger tv.type) (ht : isInteger t)
    (hz : Stands tv.value z) :
    ChecksValue tv t z ↔ FitsRight tv.value t z ∧ (isConcreteInt t → Unchecked tv.type t → InRange t z) := by
  rw [ChecksValue, tvFitsIn_iff hz ht]
  apply and_congr_right
  intro hright
  have hfit := (tvFitsIn_iff hz ht).mpr hright
  simp only [coerce_integer _ ha ht, Option.some.injEq, Prod.mk.injEq]
  by_cases hct : isConcreteInt t
  · simp only [hct, ite_true, true_implies]
    constructor
    · intro h hun
      have := h 0 ⟨none, none⟩ .ok ⟨none, none⟩
      rw [if_pos hun] at this
      simpa using this
    · rintro h depth c k c' ⟨rfl, rfl⟩ -
      split
      · next hun => exact iff_of_true rfl (h hun)
      · rw [rangeChecked_ok, hfit]
  · have hcomptime : t = comptimeInt := by simpa [isInteger, hct] using ht
    subst hcomptime
    simp only [hct, ite_false, Bool.false_eq_true, false_implies, iff_true]
    rintro depth c k c' ⟨rfl, rfl⟩ hk
    split at hk
    · next h =>
        rw [if_pos h]
        exact iff_of_true rfl hz.readable
    · exact absurd rfl hk

theorem const_check_byte :
    ChecksValue (ConstFolding.byteConst (pattern 200)) (.prim .i8) 200 ∧
      ChecksValue (ConstFolding.byteConst (pattern 200)) (.prim .i16) 200 := by
  have hz := ConstFolding.stands_byte (z := 200) (by decide)
  constructor
  · refine (const_check_iff _ _ _ rfl rfl hz).mpr ⟨?_, fun _ h => ?_⟩
    · simp [FitsRight]
    · exact absurd h (by decide)
  · refine (const_check_iff _ _ _ rfl rfl hz).mpr ⟨?_, fun _ _ => ?_⟩
    · simp [FitsRight]
    · simp [InRange, comptimeInt, isUnsignedInt, intBits]

/-- The `u64` constant `2^64 - 1`, as `~0` gives it, passes for an `i8`. -/
theorem check_accepts_wrapped :
    Stands ⟨.prim .u64, pattern (2 ^ 64 - 1)⟩ (2 ^ 64 - 1) ∧ ¬ InRange (.prim .i8) (2 ^ 64 - 1) ∧
      (tvFitsIn ⟨.prim .u64, pattern (2 ^ 64 - 1)⟩ (.prim .i8)).fits = true ∧
      coerce 1 ⟨.prim .u64, .prim .u64, pattern (2 ^ 64 - 1)⟩ (.prim .i8) ⟨none, none⟩ =
        some (.ok, ⟨none, none⟩) := by
  refine ⟨⟨rfl, ?_, rfl⟩, ?_, ?_, ?_⟩
  · simp [Carries, comptimeInt, isUnsignedInt, Outside]
  · simp [InRange, comptimeInt, isUnsignedInt, intBits]
  · decide
  · rw [coerce_integer 0 rfl rfl]
    refine congrArg (fun k => some (k, (⟨none, none⟩ : Ctx))) ?_
    decide

end Ore.ConstFits
