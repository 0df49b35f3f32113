import Mathlib.Data.Nat.Bitwise
import Mathlib.Data.Nat.ModEq
import Mathlib.Tactic.Common

namespace Ore.AstIds

def astIdCompute (name : UInt32) : UInt32 :=
  let h : UInt64 := (0xcbf29ce484222325 ^^^ name.toUInt64) * 0x100000001b3
  (h ^^^ (h >>> 32)).toUInt32

section Folding

variable {c L K s w j u v : Nat}

theorem modEq_of_xor (hj : j ≤ w)
    (h : ((L + c * u) ^^^ (K + 2 ^ s * u)) % 2 ^ w = ((L + c * v) ^^^ (K + 2 ^ s * v)) % 2 ^ w)
    (hright : K + 2 ^ s * u ≡ K + 2 ^ s * v [MOD 2 ^ j]) : L + c * u ≡ L + c * v [MOD 2 ^ j] := by
  have hxor : ((L + c * u) ^^^ (K + 2 ^ s * u)) % 2 ^ j = ((L + c * v) ^^^ (K + 2 ^ s * v)) % 2 ^ j := by
    rw [← Nat.mod_mod_of_dvd _ (Nat.pow_dvd_pow 2 hj), h, Nat.mod_mod_of_dvd _ (Nat.pow_dvd_pow 2 hj)]
  rw [Nat.xor_mod_two_pow, Nat.xor_mod_two_pow, hright] at hxor
  exact Nat.xor_left_injective hxor

/-- A number multiplied by an odd one and then folded with a shift of itself is told from
every other: each bit of the shift is known from the lower bits. -/
theorem fold_injective (hc : Nat.Coprime (2 ^ w) c) (hs : 0 < s) (hu : u < 2 ^ w) (hv : v < 2 ^ w)
    (h : ((L + c * u) ^^^ (K + 2 ^ s * u)) % 2 ^ w = ((L + c * v) ^^^ (K + 2 ^ s * v)) % 2 ^ w) : u = v := by
  have hbits : ∀ j, j ≤ w → u ≡ v [MOD 2 ^ j] := by
    intro j
    induction j with
    | zero => exact fun _ => Nat.modEq_one
    | succ j ih =>
        intro hj
        have hshift : 2 ^ s * u ≡ 2 ^ s * v [MOD 2 ^ (j + 1)] := by
          apply ((ih (by omega)).mul_left' (2 ^ s)).of_dvd
          rw [← Nat.pow_add]
          exact Nat.pow_dvd_pow 2 (by omega)
        have hleft := modEq_of_xor hj h (hshift.add_left K)
        have hcoprime := hc.coprime_dvd_left (Nat.pow_dvd_pow 2 hj)
        exact (hleft.add_left_cancel' L).cancel_left_of_coprime hcoprime
  have hall := hbits w (Nat.le_refl w)
  rwa [Nat.ModEq, Nat.mod_eq_of_lt hu, Nat.mod_eq_of_lt hv] at hall

end Folding

variable {m n bound : Nat}

/-- The hash's low half before the multiplication. -/
def seed (n : Nat) : Nat := 0x84222325 ^^^ n

/-- What the multiplication carries over into the high half. -/
def carry (n : Nat) : Nat := 435 * seed n / 2 ^ 32

theorem seed_lt (h : n < 2 ^ 32) : seed n < 2 ^ 32 := Nat.xor_lt_two_pow (by decide) h

theorem offset_xor (h : n < 2 ^ 32) : 0xcbf29ce484222325 ^^^ n = 0xcbf29ce4 * 2 ^ 32 + seed n := by
  have hlow : (0xcbf29ce484222325 ^^^ n) % 2 ^ 32 = seed n := by
    rw [Nat.xor_mod_two_pow, Nat.mod_eq_of_lt h, seed, show 0xcbf29ce484222325 % 2 ^ 32 = 0x84222325 from rfl]
  have hhigh : (0xcbf29ce484222325 ^^^ n) / 2 ^ 32 = 0xcbf29ce4 := by
    rw [Nat.xor_div_two_pow, Nat.div_eq_of_lt h, Nat.xor_zero, show 0xcbf29ce484222325 / 2 ^ 32 = 0xcbf29ce4 from rfl]
  rw [← hlow, ← hhigh, Nat.mul_comm, Nat.div_add_mod]

theorem astIdCompute_toNat (n : UInt32) : (astIdCompute n).toNat =
    ((435 * seed n.toNat) ^^^ (435 * 0xcbf29ce4 + carry n.toNat + 2 ^ 8 * seed n.toNat)) % 2 ^ 32 := by
  have hlt := seed_lt n.toNat_lt
  have hash : (astIdCompute n).toNat = (435 * seed n.toNat % 2 ^ 32) ^^^
      ((0xcbf29ce484222325 ^^^ n.toNat) * 0x100000001b3 % 2 ^ 64 / 2 ^ 32 % 2 ^ 32) := by
    simp [astIdCompute, seed, Nat.shiftRight_eq_div_pow, Nat.mul_comm]
  have hproduct (x : Nat) : (0xcbf29ce4 * 2 ^ 32 + x) * 0x100000001b3 =
      (435 * 0xcbf29ce4 + 2 ^ 8 * x) * 2 ^ 32 + 435 * x + 0xcbf29ce4 * 2 ^ 8 * 2 ^ 64 := by
    omega
  rw [hash, offset_xor n.toNat_lt, hproduct, Nat.add_mul_mod_self_right, show 2 ^ 64 = 2 ^ 32 * 2 ^ 32 from rfl,
    Nat.mod_mul_right_div_self, Nat.mod_mod, Nat.add_comm _ (435 * seed n.toNat),
    Nat.add_mul_div_right _ _ (Nat.two_pow_pos 32), Nat.xor_mod_two_pow, carry]
  congr 2
  omega

theorem astIdCompute_inj {m n : UInt32} (hcarry : carry m.toNat = carry n.toNat) (h : astIdCompute m = astIdCompute n) :
    m = n := by
  have hfold := congrArg UInt32.toNat h
  rw [astIdCompute_toNat, astIdCompute_toNat, hcarry] at hfold
  have hseed : seed m.toNat = seed n.toNat := by
    apply fold_injective (c := 435) (L := 0) (s := 8) (by decide) (by decide) (seed_lt m.toNat_lt) (seed_lt n.toNat_lt)
    simpa using hfold
  exact UInt32.toNat_inj.mp (Nat.xor_right_injective hseed)

/-- The texts of the pool before this StrId take 4.5 MiB. -/
def firstShared : Nat := 0x480000

theorem carry_low (h : n < firstShared) : carry n = 0xe0 := by
  have htop : seed n / 2 ^ 16 = 0x8422 ^^^ n / 2 ^ 16 := by
    rw [seed, Nat.xor_div_two_pow]
  have hrange : ∀ t, t < 72 → 0x8400 ≤ 0x8422 ^^^ t ∧ 0x8422 ^^^ t ≤ 0x8467 := by decide
  have hn : n / 2 ^ 16 < 72 := by
    rw [firstShared] at h
    omega
  obtain ⟨hfrom, hto⟩ := hrange _ hn
  rw [← htop] at hfrom hto
  rw [carry]
  omega

theorem low_inj {m n : UInt32} (hm : m.toNat < firstShared) (hn : n.toNat < firstShared)
    (h : astIdCompute m = astIdCompute n) : m = n :=
  astIdCompute_inj ((carry_low hm).trans (carry_low hn).symm) h

theorem shared : astIdCompute 3349391 = astIdCompute 4718592 := by decide

theorem injective_iff : (∀ m n : UInt32, m.toNat < bound → n.toNat < bound → astIdCompute m = astIdCompute n → m = n) ↔
    bound ≤ firstShared := by
  constructor
  · intro h
    by_contra hlt
    rw [firstShared] at hlt
    have heq := h 3349391 4718592 (by
      rw [show (3349391 : UInt32).toNat = 3349391 from rfl]
      omega) (by
      rw [show (4718592 : UInt32).toNat = 4718592 from rfl]
      omega) shared
    exact absurd heq (by decide)
  · intro hle m n hm hn
    exact low_inj (Nat.lt_of_lt_of_le hm hle) (Nat.lt_of_lt_of_le hn hle)

end Ore.AstIds
