import Mathlib.Data.List.Basic
import Mathlib.Data.Nat.Bitwise

namespace Ore.PercentCoding

def percent : UInt8 := 37

/-- The digit of a nibble, in upper case. -/
def hexDigit (n : Nat) : UInt8 := UInt8.ofNat (if n < 10 then 48 + n else 55 + n)

/-- The value of a digit of either case. -/
def hexValue (c : UInt8) : Option Nat :=
  if 48 ≤ c.toNat ∧ c.toNat ≤ 57 then some (c.toNat - 48)
  else if 97 ≤ c.toNat ∧ c.toNat ≤ 102 then some (10 + (c.toNat - 97))
  else if 65 ≤ c.toNat ∧ c.toNat ≤ 70 then some (10 + (c.toNat - 65))
  else none

theorem hexValue_hexDigit {n : Nat} (h : n < 16) : hexValue (hexDigit n) = some n := by
  decide +revert

def encodeByte (safe : UInt8 → Bool) (c : UInt8) : List UInt8 :=
  if safe c then [c] else [percent, hexDigit (c.toNat >>> 4), hexDigit (c.toNat &&& 15)]

def encode (safe : UInt8 → Bool) (bytes : List UInt8) : List UInt8 := bytes.flatMap (encodeByte safe)

/-- Nothing, for an escape that is cut short or has another digit. -/
def decode : List UInt8 → Option (List UInt8)
  | [] => some []
  | c :: rest =>
      if c = percent then
        match rest with
        | d :: e :: tail =>
            match hexValue d, hexValue e with
            | some hi, some lo => (decode tail).map (UInt8.ofNat (hi <<< 4 ||| lo) :: ·)
            | _, _ => none
        | _ => none
      else (decode rest).map (c :: ·)

theorem high_lt (c : UInt8) : c.toNat >>> 4 < 16 := by
  have hlt : c.toNat < 256 := c.toNat_lt
  rw [Nat.shiftRight_eq_div_pow]
  omega

theorem low_lt (c : UInt8) : c.toNat &&& 15 < 16 := Nat.lt_of_le_of_lt Nat.and_le_right (by decide)

theorem nibbles (c : UInt8) : UInt8.ofNat ((c.toNat >>> 4) <<< 4 ||| (c.toNat &&& 15)) = c := by
  have hlow : c.toNat &&& 15 = c.toNat % 2 ^ 4 := Nat.and_two_pow_sub_one_eq_mod c.toNat 4
  have hlt : c.toNat % 2 ^ 4 < 2 ^ 4 := Nat.mod_lt _ (by decide)
  have hnat : (c.toNat >>> 4) <<< 4 ||| (c.toNat &&& 15) = c.toNat := by
    rw [hlow, ← Nat.shiftLeft_add_eq_or_of_lt hlt, Nat.shiftLeft_eq, Nat.shiftRight_eq_div_pow]
    omega
  rw [hnat, UInt8.ofNat_toNat]

variable {safe : UInt8 → Bool} (hsafe : safe percent = false)

include hsafe

theorem decode_encodeByte (c : UInt8) (rest : List UInt8) :
    decode (encodeByte safe c ++ rest) = (decode rest).map (c :: ·) := by
  unfold encodeByte
  by_cases h : safe c = true
  · have hne : c ≠ percent := by
      rintro rfl
      simp [hsafe] at h
    rw [if_pos h, List.singleton_append]
    conv => lhs; unfold decode
    rw [if_neg hne]
  · rw [if_neg h]
    simp only [List.cons_append, List.nil_append, decode, if_true, hexValue_hexDigit (high_lt c),
      hexValue_hexDigit (low_lt c), nibbles]

theorem decode_encode (bytes : List UInt8) : decode (encode safe bytes) = some bytes := by
  induction bytes with
  | nil => rfl
  | cons c rest ih =>
      have hcons : encode safe (c :: rest) = encodeByte safe c ++ encode safe rest := rfl
      rw [hcons, decode_encodeByte hsafe, ih, Option.map_some]

omit hsafe

/-- Safe bytes and whole escapes. -/
inductive Escaped (safe : UInt8 → Bool) : List UInt8 → Prop
  | nil : Escaped safe []
  | plain {c : UInt8} {rest : List UInt8} : safe c = true → Escaped safe rest → Escaped safe (c :: rest)
  | escape {d e : UInt8} {rest : List UInt8} : (hexValue d).isSome → (hexValue e).isSome → Escaped safe rest →
      Escaped safe (percent :: d :: e :: rest)

theorem escaped_append {bytes rest : List UInt8} (h : ∀ c ∈ bytes, safe c = true) (hrest : Escaped safe rest) :
    Escaped safe (bytes ++ rest) := by
  induction bytes with
  | nil => exact hrest
  | cons c cs ih =>
      obtain ⟨hc, hcs⟩ := List.forall_mem_cons.mp h
      exact .plain hc (ih hcs)

theorem escaped_encode (safe : UInt8 → Bool) (bytes : List UInt8) : Escaped safe (encode safe bytes) := by
  induction bytes with
  | nil => exact .nil
  | cons c rest ih =>
      have hcons : encode safe (c :: rest) = encodeByte safe c ++ encode safe rest := rfl
      rw [hcons, encodeByte]
      by_cases h : safe c = true
      · rw [if_pos h]
        exact .plain h ih
      · rw [if_neg h]
        refine .escape ?_ ?_ ih
        · rw [hexValue_hexDigit (high_lt c)]
          rfl
        · rw [hexValue_hexDigit (low_lt c)]
          rfl

end Ore.PercentCoding
