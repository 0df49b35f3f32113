import Ore.HostInts

namespace Ore.HostQuotients

open HostInts

/-- The two operands read otherwise than they are divide to the same quotient. -/
def SameQuotient (unsigned : Bool) (x y : Int) : Prop :=
  if unsigned then
    (0 ≤ x ∧ 0 ≤ y) ∨ x = y ∨ (x < 0 ∧ 0 ≤ y ∧ x + 2 ^ 64 < y) ∨ (0 ≤ x ∧ y < 0 ∧ x < -y)
  else
    (x < 2 ^ 63 ∧ y < 2 ^ 63) ∨ x = y ∨ y = 1 ∨ (x < 2 ^ 63 ∧ |x| + y < 2 ^ 64)

/-- The two operands read otherwise than they are leave the same remainder. -/
def SameRemainder (unsigned : Bool) (x y : Int) : Prop :=
  if unsigned then
    (0 ≤ x ∧ 0 ≤ y) ∨ x = y ∨ (x < 0 ∧ 0 ≤ y ∧ y ∣ x ∧ y ∣ 2 ^ 64) ∨
      (0 ≤ x ∧ y < 0 ∧ (x < -y ∨ (y + 2 ^ 64 ≤ x ∧ y ∣ 2 ^ 64)))
  else
    (x < 2 ^ 63 ∧ y < 2 ^ 63) ∨ x = y ∨ (2 ^ 63 ≤ x ∧ y < 2 ^ 63 ∧ y ∣ x ∧ y ∣ 2 ^ 64) ∨
      (x < 2 ^ 63 ∧ 2 ^ 63 ≤ y ∧ (|x| + y < 2 ^ 64 ∨ x + y = 0))

theorem natDiv_one {a b : Nat} (hl : b ≤ a) (hh : a < 2 * b) : a / b = 1 :=
  Nat.div_eq_of_lt_le (by omega) (by omega)

theorem signedQuotient_misread_dividend {a b : Nat} (ha : 2 ^ 63 ≤ a) (ha' : a < 2 ^ 64) (hb : 2 ≤ b)
    (hb' : b ≤ 2 ^ 63) : 0 < a / b + (2 ^ 64 - a) / b ∧ a / b + (2 ^ 64 - a) / b < 2 ^ 64 := by
  have hq : 0 < a / b := Nat.div_pos (by omega) (by omega)
  have h1 : a / b ≤ a / 2 := Nat.div_le_div_left hb (by omega)
  have h2 : (2 ^ 64 - a) / b ≤ (2 ^ 64 - a) / 2 := Nat.div_le_div_left hb (by omega)
  generalize a / b = q at *
  generalize (2 ^ 64 - a) / b = q' at *
  omega

theorem eq_ofNat {x : Int} (h : 0 ≤ x) : ∃ a : Nat, x = a := ⟨x.toNat, by omega⟩

theorem eq_neg_ofNat {x : Int} (h : x < 0) : ∃ a : Nat, x = -a ∧ 0 < a := ⟨(-x).toNat, by omega, by omega⟩

theorem sameQuotient_high_low {a : Nat} {y : Int} (ha : 2 ^ 63 ≤ a) (ha' : a < 2 ^ 64)
    (hl : -2 ^ 63 ≤ y) (hh : y < 2 ^ 63) (h0 : y ≠ 0) (h1 : ¬ (a = 2 ^ 63 ∧ y = -1))
    (hr : Readable ((a : Int).tdiv y)) :
    (((a : Int) - 2 ^ 64).tdiv y % 2 ^ 64 = (a : Int).tdiv y % 2 ^ 64) ↔ y = 1 := by
  have hx : (a : Int) - 2 ^ 64 = -((2 ^ 64 - a : Nat) : Int) := by omega
  rw [hx, Int.neg_tdiv]
  obtain hy | hy := lt_or_gt_of_ne h0
  · obtain ⟨b, rfl, hb⟩ := eq_neg_ofNat hy
    simp only [Int.tdiv_neg, ← Int.ofNat_tdiv, neg_neg] at hr ⊢
    have hb1 : b ≠ 1 := by
      rintro rfl
      have := hr.1
      simp at this
      omega
    have := signedQuotient_misread_dividend ha ha' (b := b) (by omega) (by omega)
    generalize a / b = q at *
    generalize (2 ^ 64 - a) / b = q' at *
    omega
  · obtain ⟨b, rfl⟩ := eq_ofNat (le_of_lt hy)
    simp only [← Int.ofNat_tdiv]
    by_cases hb : b = 1
    · subst hb
      simp
      omega
    · have := signedQuotient_misread_dividend ha ha' (b := b) (by omega) (by omega)
      generalize a / b = q at *
      generalize (2 ^ 64 - a) / b = q' at *
      omega

theorem sameQuotient_low_high {b : Nat} {x : Int} (hb : 2 ^ 63 ≤ b) (hb' : b < 2 ^ 64)
    (hl : -2 ^ 63 ≤ x) (hh : x < 2 ^ 63) :
    (x.tdiv ((b : Int) - 2 ^ 64) % 2 ^ 64 = x.tdiv b % 2 ^ 64) ↔ |x| + b < 2 ^ 64 := by
  have hy : (b : Int) - 2 ^ 64 = -((2 ^ 64 - b : Nat) : Int) := by omega
  rw [hy, Int.tdiv_neg]
  have hq : ∀ a : Nat, a ≤ 2 ^ 63 → (a / (2 ^ 64 - b) = 0 ↔ a + b < 2 ^ 64) := by
    intro a ha
    rw [Nat.div_eq_zero_iff]
    omega
  have hle : ∀ a : Nat, a / (2 ^ 64 - b) ≤ a := fun a => Nat.div_le_self _ _
  obtain hx | hx := lt_or_ge x 0
  · obtain ⟨a, rfl, ha⟩ := eq_neg_ofNat hx
    have h1 := hq a (by omega)
    have h2 := hle a
    rw [Int.neg_tdiv, Int.neg_tdiv, abs_neg, Nat.abs_cast, ← Int.ofNat_tdiv, ← Int.ofNat_tdiv]
    by_cases hab : a < b
    · rw [Nat.div_eq_of_lt hab]
      generalize a / (2 ^ 64 - b) = q at *
      omega
    · have h3 : a / (2 ^ 64 - b) = 1 := natDiv_one (by omega) (by omega)
      have h4 : a / b = 1 := natDiv_one (by omega) (by omega)
      rw [h3, h4]
      omega
  · obtain ⟨a, rfl⟩ := eq_ofNat hx
    have h1 := hq a (by omega)
    have h2 := hle a
    rw [Nat.abs_cast, ← Int.ofNat_tdiv, ← Int.ofNat_tdiv, Nat.div_eq_of_lt (a := a) (b := b) (by omega)]
    generalize a / (2 ^ 64 - b) = q at *
    omega

theorem sameQuotient_high_high {a b : Nat} (ha : 2 ^ 63 ≤ a) (ha' : a < 2 ^ 64) (hb : 2 ^ 63 ≤ b)
    (hb' : b < 2 ^ 64) :
    (((a : Int) - 2 ^ 64).tdiv ((b : Int) - 2 ^ 64) % 2 ^ 64 = (a : Int).tdiv b % 2 ^ 64) ↔ a = b := by
  have hx : (a : Int) - 2 ^ 64 = -((2 ^ 64 - a : Nat) : Int) := by omega
  have hy : (b : Int) - 2 ^ 64 = -((2 ^ 64 - b : Nat) : Int) := by omega
  rw [hx, hy, Int.tdiv_neg, Int.neg_tdiv, neg_neg, ← Int.ofNat_tdiv, ← Int.ofNat_tdiv]
  obtain h | rfl | h := lt_trichotomy a b
  · have hq : 0 < (2 ^ 64 - a) / (2 ^ 64 - b) := Nat.div_pos (by omega) (by omega)
    have hq' : (2 ^ 64 - a) / (2 ^ 64 - b) ≤ 2 ^ 64 - a := Nat.div_le_self _ _
    rw [Nat.div_eq_of_lt h]
    generalize (2 ^ 64 - a) / (2 ^ 64 - b) = q at *
    omega
  · rw [Nat.div_self (show 0 < a by omega), Nat.div_self (show 0 < 2 ^ 64 - a by omega)]
    simp
  · rw [natDiv_one (le_of_lt h) (by omega), Nat.div_eq_of_lt (a := 2 ^ 64 - a) (by omega)]
    omega

theorem sameQuotient_signed {x y : Int} (hx : Readable x) (hy : Readable y) (h0 : y ≠ 0)
    (hm : ¬ (asRead false x = -2 ^ 63 ∧ asRead false y = -1)) (hr : Readable (x.tdiv y)) :
    ((asRead false x).tdiv (asRead false y) % 2 ^ 64 = x.tdiv y % 2 ^ 64) ↔ SameQuotient false x y := by
  obtain ⟨hxl, hxh⟩ := hx
  obtain ⟨hyl, hyh⟩ := hy
  simp only [SameQuotient, Bool.false_eq_true, ite_false]
  by_cases cx : x < 2 ^ 63 <;> by_cases cy : y < 2 ^ 63
  · rw [asRead_low cx, asRead_low cy]
    omega
  · obtain ⟨b, rfl⟩ := eq_ofNat (show 0 ≤ y by omega)
    rw [asRead_low cx, asRead_high cy, sameQuotient_low_high (by omega) (by omega) hxl cx]
    omega
  · obtain ⟨a, rfl⟩ := eq_ofNat (show 0 ≤ x by omega)
    rw [asRead_high cx, asRead_low cy] at hm ⊢
    rw [sameQuotient_high_low (by omega) (by omega) hyl cy h0 (by omega) hr]
    omega
  · obtain ⟨a, rfl⟩ := eq_ofNat (show 0 ≤ x by omega)
    obtain ⟨b, rfl⟩ := eq_ofNat (show 0 ≤ y by omega)
    rw [asRead_high cx, asRead_high cy]
    rw [sameQuotient_high_high (by omega) (by omega) (by omega) (by omega)]
    omega

theorem sameQuotient_unsigned {x y : Int} (hx : Readable x) (hy : Readable y) (h0 : y ≠ 0)
    (hn : 0 ≤ x.tdiv y) :
    ((asRead true x).tdiv (asRead true y) % 2 ^ 64 = x.tdiv y % 2 ^ 64) ↔ SameQuotient true x y := by
  obtain ⟨hxl, hxh⟩ := hx
  obtain ⟨hyl, hyh⟩ := hy
  simp only [SameQuotient, ite_true]
  by_cases cx : x < 0 <;> by_cases cy : y < 0
  · obtain ⟨a, rfl, ha⟩ := eq_neg_ofNat cx
    obtain ⟨b, rfl, hb⟩ := eq_neg_ofNat cy
    have ea : -(a : Int) + 2 ^ 64 = (2 ^ 64 - a : Nat) := by omega
    have eb : -(b : Int) + 2 ^ 64 = (2 ^ 64 - b : Nat) := by omega
    rw [asRead_negative cx, asRead_negative cy, ea, eb, Int.tdiv_neg, Int.neg_tdiv, neg_neg]
    rw [← Int.ofNat_tdiv, ← Int.ofNat_tdiv]
    obtain h | rfl | h := lt_trichotomy a b
    · rw [Nat.div_eq_of_lt h, natDiv_one (a := 2 ^ 64 - a) (by omega) (by omega)]
      omega
    · rw [Nat.div_self ha, Nat.div_self (show 0 < 2 ^ 64 - a by omega)]
      simp
    · have hq : 0 < a / b := Nat.div_pos (by omega) hb
      have hq' : a / b ≤ a := Nat.div_le_self _ _
      rw [Nat.div_eq_of_lt (a := 2 ^ 64 - a) (by omega)]
      generalize a / b = q at *
      omega
  · obtain ⟨a, rfl, ha⟩ := eq_neg_ofNat cx
    obtain ⟨b, rfl⟩ := eq_ofNat (show 0 ≤ y by omega)
    have ea : -(a : Int) + 2 ^ 64 = (2 ^ 64 - a : Nat) := by omega
    rw [asRead_negative cx, asRead_natural cy, ea]
    rw [Int.neg_tdiv] at hn ⊢
    rw [← Int.ofNat_tdiv] at hn
    have hz : a / b = 0 := by
      generalize a / b = q at *
      omega
    have hq : (2 ^ 64 - a) / b = 0 ↔ 2 ^ 64 - a < b := by
      rw [Nat.div_eq_zero_iff]
      omega
    have hq' : (2 ^ 64 - a) / b ≤ 2 ^ 64 - a := Nat.div_le_self _ _
    rw [← Int.ofNat_tdiv, ← Int.ofNat_tdiv, hz]
    generalize (2 ^ 64 - a) / b = q at *
    omega
  · obtain ⟨a, rfl⟩ := eq_ofNat (show 0 ≤ x by omega)
    obtain ⟨b, rfl, hb⟩ := eq_neg_ofNat cy
    have eb : -(b : Int) + 2 ^ 64 = (2 ^ 64 - b : Nat) := by omega
    rw [asRead_natural cx, asRead_negative cy, eb]
    rw [Int.tdiv_neg] at hn ⊢
    rw [← Int.ofNat_tdiv] at hn
    have hz : a / b = 0 := by
      generalize a / b = q at *
      omega
    have hab : a < b := (Nat.div_eq_zero_iff.mp hz).resolve_left (by omega)
    rw [← Int.ofNat_tdiv, ← Int.ofNat_tdiv, hz, Nat.div_eq_of_lt (a := a) (by omega)]
    omega
  · rw [asRead_natural cx, asRead_natural cy]
    omega

theorem natMod_sub {a b : Nat} (hl : b ≤ a) (hh : a < 2 * b) : a % b = a - b := by
  rw [Nat.mod_eq_sub_mod hl, Nat.mod_eq_of_lt (by omega)]

theorem dvd_complement {a b : Nat} (ha : a ≤ 2 ^ 64) (h : b ∣ a) : b ∣ 2 ^ 64 - a ↔ b ∣ 2 ^ 64 := by
  constructor
  · intro h'
    have := Nat.dvd_add h' h
    rwa [Nat.sub_add_cancel ha] at this
  · intro h'
    exact Nat.dvd_sub h' h

theorem sameRemainder_high_low {a b : Nat} (ha' : a < 2 ^ 64) (hb : 0 < b) (hb' : b ≤ 2 ^ 63) :
    (-((2 ^ 64 - a) % b : Nat) : Int) % 2 ^ 64 = ((a % b : Nat) : Int) % 2 ^ 64 ↔ b ∣ a ∧ b ∣ 2 ^ 64 := by
  have h1 : a % b < b := Nat.mod_lt _ hb
  have h2 : (2 ^ 64 - a) % b < b := Nat.mod_lt _ hb
  have hz : b ∣ a ∧ b ∣ 2 ^ 64 ↔ a % b = 0 ∧ (2 ^ 64 - a) % b = 0 := by
    rw [← Nat.dvd_iff_mod_eq_zero, ← Nat.dvd_iff_mod_eq_zero]
    exact and_congr_right fun h => (dvd_complement (by omega) h).symm
  rw [hz]
  generalize a % b = r at *
  generalize (2 ^ 64 - a) % b = r' at *
  omega

theorem sameRemainder_low_high {a b : Nat} (ha : a ≤ 2 ^ 63) (hb : 2 ^ 63 ≤ b) (hb' : b < 2 ^ 64) :
    (a % (2 ^ 64 - b) = a % b) ↔ (a + b < 2 ^ 64 ∨ a = b) := by
  by_cases hab : a < b
  · rw [Nat.mod_eq_of_lt hab, Nat.mod_eq_iff_lt (by omega)]
    omega
  · have : a = b := by omega
    subst this
    have : 2 ^ 64 - a = a := by omega
    rw [this]
    simp

theorem pattern_inj {r r' : Nat} (h : r < 2 ^ 64) (h' : r' < 2 ^ 64) :
    ((r : Int) % 2 ^ 64 = (r' : Int) % 2 ^ 64 ↔ r = r') ∧ (-(r : Int) % 2 ^ 64 = -(r' : Int) % 2 ^ 64 ↔ r = r') := by
  constructor <;> omega

theorem sameRemainder_signed {x y : Int} (hx : Readable x) (hy : Readable y) (h0 : y ≠ 0) :
    ((asRead false x).tmod (asRead false y) % 2 ^ 64 = x.tmod y % 2 ^ 64) ↔ SameRemainder false x y := by
  obtain ⟨hxl, hxh⟩ := hx
  obtain ⟨hyl, hyh⟩ := hy
  simp only [SameRemainder, Bool.false_eq_true, ite_false]
  by_cases cx : x < 2 ^ 63 <;> by_cases cy : y < 2 ^ 63
  · rw [asRead_low cx, asRead_low cy]
    exact iff_of_true rfl (.inl ⟨cx, cy⟩)
  · simp only [cx, cy, not_le.mpr cx, not_lt.mp cy, and_false, false_and, true_and, false_or]
    obtain ⟨b, rfl⟩ := eq_ofNat (show 0 ≤ y by omega)
    have eb : (b : Int) - 2 ^ 64 = -((2 ^ 64 - b : Nat) : Int) := by omega
    rw [asRead_low cx, asRead_high cy, eb, Int.tmod_neg]
    have hpatterns : ∀ a : Nat, a < 2 ^ 64 → a % (2 ^ 64 - b) < 2 ^ 64 ∧ a % b < 2 ^ 64 := fun a ha =>
      ⟨(Nat.mod_le _ _).trans_lt ha, (Nat.mod_le _ _).trans_lt ha⟩
    obtain hn | hn := lt_or_ge x 0
    · obtain ⟨a, rfl, ha⟩ := eq_neg_ofNat hn
      obtain ⟨h1, h2⟩ := hpatterns a (by omega)
      rw [Int.neg_tmod, Int.neg_tmod, abs_neg, Nat.abs_cast, ← Int.ofNat_tmod, ← Int.ofNat_tmod, (pattern_inj h1 h2).2,
        sameRemainder_low_high (by omega) (by omega) (by omega)]
      omega
    · obtain ⟨a, rfl⟩ := eq_ofNat hn
      obtain ⟨h1, h2⟩ := hpatterns a (by omega)
      rw [Nat.abs_cast, ← Int.ofNat_tmod, ← Int.ofNat_tmod, (pattern_inj h1 h2).1,
        sameRemainder_low_high (by omega) (by omega) (by omega)]
      omega
  · simp only [cx, cy, not_lt.mp cx, false_and, true_and, or_false, false_or]
    obtain ⟨a, rfl⟩ := eq_ofNat (show 0 ≤ x by omega)
    have ea : (a : Int) - 2 ^ 64 = -((2 ^ 64 - a : Nat) : Int) := by omega
    have h := sameRemainder_high_low (a := a) (b := y.natAbs) (by omega) (by omega) (by omega)
    have hd : (y ∣ (a : Int) ∧ y ∣ 2 ^ 64) ↔ (y.natAbs ∣ a ∧ y.natAbs ∣ 2 ^ 64) := by
      rw [← Int.natAbs_dvd_natAbs, ← Int.natAbs_dvd_natAbs]
      simp
    have hm : ∀ n : Nat, (n : Int).tmod y = (n % y.natAbs : Nat) := by
      intro n
      rw [Int.ofNat_tmod]
      rcases Int.natAbs_eq y with hy | hy
      · rw [← hy]
      · rw [hy]
        simp
    have hne : (a : Int) ≠ y := by omega
    rw [asRead_high cx, asRead_low cy, ea, Int.neg_tmod, hm, hm, h, ← hd, or_iff_right hne]
  · simp only [cx, cy, and_false, false_and, or_false, false_or]
    obtain ⟨a, rfl⟩ := eq_ofNat (show 0 ≤ x by omega)
    obtain ⟨b, rfl⟩ := eq_ofNat (show 0 ≤ y by omega)
    have ea : (a : Int) - 2 ^ 64 = -((2 ^ 64 - a : Nat) : Int) := by omega
    have eb : (b : Int) - 2 ^ 64 = -((2 ^ 64 - b : Nat) : Int) := by omega
    rw [asRead_high cx, asRead_high cy, ea, eb, Int.tmod_neg, Int.neg_tmod, ← Int.ofNat_tmod, ← Int.ofNat_tmod]
    obtain h | rfl | h := lt_trichotomy a b
    · have hr : (2 ^ 64 - a) % (2 ^ 64 - b) < 2 ^ 64 - b := Nat.mod_lt _ (by omega)
      rw [Nat.mod_eq_of_lt h]
      generalize (2 ^ 64 - a) % (2 ^ 64 - b) = r at *
      omega
    · simp
    · rw [natMod_sub (le_of_lt h) (by omega), Nat.mod_eq_of_lt (a := 2 ^ 64 - a) (by omega)]
      omega

theorem sameRemainder_natural_negative {a b : Nat} (ha : a < 2 ^ 64) (hb : 0 < b) (hb' : b ≤ 2 ^ 63) :
    (a % (2 ^ 64 - b) = a % b) ↔ (a < b ∨ (2 ^ 64 - b ≤ a ∧ b ∣ 2 ^ 64)) := by
  obtain hab | hab := lt_or_ge a b
  · rw [Nat.mod_eq_of_lt hab, Nat.mod_eq_of_lt (by omega)]
    omega
  have hr : a % b < b := Nat.mod_lt _ hb
  obtain hlow | hhigh := lt_or_ge a (2 ^ 64 - b)
  · rw [Nat.mod_eq_of_lt hlow]
    omega
  · rw [natMod_sub hhigh (by omega)]
    have hc : a % b = a - (2 ^ 64 - b) ↔ b ∣ 2 ^ 64 - b := by
      constructor
      · intro h
        have := Nat.dvd_sub_mod (n := b) a
        rw [h] at this
        rwa [Nat.sub_sub_self hhigh] at this
      · intro h
        obtain ⟨k, hk⟩ := h
        have e : a = a - (2 ^ 64 - b) + b * k := by omega
        calc a % b = (a - (2 ^ 64 - b) + b * k) % b := by rw [← e]
          _ = (a - (2 ^ 64 - b)) % b := Nat.add_mul_mod_self_left _ _ _
          _ = a - (2 ^ 64 - b) := Nat.mod_eq_of_lt (by omega)
    have hd : b ∣ 2 ^ 64 - b ↔ b ∣ 2 ^ 64 := dvd_complement (by omega) dvd_rfl
    rw [eq_comm, hc, hd]
    omega

theorem sameRemainder_unsigned {x y : Int} (hx : Readable x) (hy : Readable y) (h0 : y ≠ 0)
    (hn : 0 ≤ x.tmod y) :
    ((asRead true x).tmod (asRead true y) % 2 ^ 64 = x.tmod y % 2 ^ 64) ↔ SameRemainder true x y := by
  obtain ⟨hxl, hxh⟩ := hx
  obtain ⟨hyl, hyh⟩ := hy
  simp only [SameRemainder, ite_true]
  by_cases cx : x < 0 <;> by_cases cy : y < 0
  · simp only [cx, cy, not_le.mpr cx, not_le.mpr cy, and_false, false_and, true_and, false_or, or_false]
    obtain ⟨a, rfl, ha⟩ := eq_neg_ofNat cx
    obtain ⟨b, rfl, hb⟩ := eq_neg_ofNat cy
    have ea : -(a : Int) + 2 ^ 64 = (2 ^ 64 - a : Nat) := by omega
    have eb : -(b : Int) + 2 ^ 64 = (2 ^ 64 - b : Nat) := by omega
    rw [Int.tmod_neg, Int.neg_tmod, ← Int.ofNat_tmod] at hn
    have hz : a % b = 0 := by
      generalize a % b = r at *
      omega
    rw [asRead_negative cx, asRead_negative cy, ea, eb, Int.tmod_neg, Int.neg_tmod, ← Int.ofNat_tmod,
      ← Int.ofNat_tmod, hz]
    obtain h | rfl | h := lt_trichotomy a b
    · rw [Nat.mod_eq_of_lt h] at hz
      omega
    · simp
    · rw [Nat.mod_eq_of_lt (a := 2 ^ 64 - a) (by omega)]
      omega
  · simp only [cx, cy, not_le.mpr cx, not_lt.mp cy, and_false, false_and, true_and, false_or, or_false]
    obtain ⟨a, rfl, ha⟩ := eq_neg_ofNat cx
    obtain ⟨b, rfl⟩ := eq_ofNat (show 0 ≤ y by omega)
    have ea : -(a : Int) + 2 ^ 64 = (2 ^ 64 - a : Nat) := by omega
    rw [Int.neg_tmod, ← Int.ofNat_tmod] at hn
    have hz : a % b = 0 := by
      generalize a % b = r at *
      omega
    have hda : b ∣ a := Nat.dvd_of_mod_eq_zero hz
    have hd : (2 ^ 64 - a) % b = 0 ↔ b ∣ 2 ^ 64 := by
      rw [← Nat.dvd_iff_mod_eq_zero]
      exact dvd_complement (by omega) hda
    have hlt : (2 ^ 64 - a) % b < 2 ^ 64 := (Nat.mod_le _ _).trans_lt (by omega)
    have hc : (b : Int) ∣ -(a : Int) := Int.dvd_neg.mpr (Int.natCast_dvd_natCast.mpr hda)
    have hc' : (b : Int) ∣ 2 ^ 64 ↔ b ∣ 2 ^ 64 := by
      rw [← Int.natCast_dvd_natCast]
      simp
    have hne : -(a : Int) ≠ b := by omega
    have hzero := (pattern_inj hlt (show 0 < 2 ^ 64 by decide)).1
    rw [asRead_negative cx, asRead_natural cy, ea, Int.neg_tmod, ← Int.ofNat_tmod, ← Int.ofNat_tmod, hz, hc', ← hd,
      ← hzero, or_iff_right hne, and_iff_right hc]
    simp
  · simp only [cx, cy, not_lt.mp cx, not_le.mpr cy, and_false, false_and, true_and, false_or]
    obtain ⟨a, rfl⟩ := eq_ofNat (show 0 ≤ x by omega)
    obtain ⟨b, rfl, hb⟩ := eq_neg_ofNat cy
    have eb : -(b : Int) + 2 ^ 64 = (2 ^ 64 - b : Nat) := by omega
    have hc : -(b : Int) ∣ 2 ^ 64 ↔ b ∣ 2 ^ 64 := by
      rw [Int.neg_dvd, ← Int.natCast_dvd_natCast]
      simp
    have h1 : a % (2 ^ 64 - b) < 2 ^ 64 := (Nat.mod_le _ _).trans_lt (by omega)
    have h2 : a % b < 2 ^ 64 := (Nat.mod_le _ _).trans_lt (by omega)
    have hne : (a : Int) ≠ -b := by omega
    rw [asRead_natural cx, asRead_negative cy, eb, Int.tmod_neg, ← Int.ofNat_tmod, ← Int.ofNat_tmod, hc,
      (pattern_inj h1 h2).1, sameRemainder_natural_negative (by omega) hb (by omega), or_iff_right hne]
    omega
  · rw [asRead_natural cx, asRead_natural cy]
    exact iff_of_true rfl (.inl ⟨not_lt.mp cx, not_lt.mp cy⟩)

/-- A misread operand shifts right to another number, unless it is not shifted at all. -/
theorem sameShift (u : Bool) (x : Int) {n : Nat} (hn : n < 64) :
    (asRead u x / 2 ^ n % 2 ^ 64 = x / 2 ^ n % 2 ^ 64) ↔ (asRead u x = x ∨ n = 0) := by
  have hs : ∃ s : Int, asRead u x = x + s * 2 ^ 64 ∧ -1 ≤ s ∧ s ≤ 1 := by
    refine ⟨(asRead u x - x) / 2 ^ 64, ?_, ?_⟩ <;> cases u <;> simp only [asRead] <;> simp <;> split <;> omega
  obtain ⟨s, hs, hl, hh⟩ := hs
  have hp : (2 : Int) ^ 64 = 2 ^ (64 - n) * 2 ^ n := by
    rw [← pow_add, Nat.sub_add_cancel (le_of_lt hn)]
  have hq : asRead u x / 2 ^ n = x / 2 ^ n + s * 2 ^ (64 - n) := by
    rw [hs, hp, ← mul_assoc, Int.add_mul_ediv_right _ _ (by positivity)]
  rw [hq, hs]
  obtain rfl | hn0 := Nat.eq_zero_or_pos n
  · simp
  have hpos : (0 : Int) < 2 ^ (64 - n) := by positivity
  have hle : (2 : Int) ^ (64 - n) ≤ 2 ^ 63 := pow_le_pow_right₀ (by norm_num) (by omega)
  generalize (2 : Int) ^ (64 - n) = p at *
  generalize x / 2 ^ n = q at *
  obtain rfl | rfl | rfl : s = -1 ∨ s = 0 ∨ s = 1 := by omega
  all_goals omega

end Ore.HostQuotients
