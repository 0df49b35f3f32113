import Mathlib.Algebra.Ring.Nat
import Mathlib.Data.List.TakeWhile
import Mathlib.Tactic.Common

namespace Ore.DecimalText

variable {n : Nat} {c : UInt8} {s t : List UInt8}

def isDigit (c : UInt8) : Bool := 48 ≤ c && c ≤ 57

def isSpace (c : UInt8) : Bool := c = 32 || 9 ≤ c && c ≤ 13

def byte (c : Char) : UInt8 := UInt8.ofNat c.toNat

/-- `%zu` -/
def decimal (n : Nat) : List UInt8 := (Nat.toDigits 10 n).map byte

def value (ds : List UInt8) : Nat := ds.foldl (fun a c => 10 * a + (c.toNat - 48)) 0

theorem digit_bounds {d : Char} (h : d.isDigit = true) : 48 ≤ d.toNat ∧ d.toNat ≤ 57 := by
  rw [Char.isDigit_iff_toNat] at h
  exact h

theorem byte_toNat {d : Char} (h : d.isDigit = true) : (byte d).toNat = d.toNat := by
  have hd := digit_bounds h
  have hsize : UInt8.size = 256 := rfl
  apply UInt8.toNat_ofNat_of_lt'
  omega

theorem isDigit_of_mem_decimal (h : c ∈ decimal n) : isDigit c = true := by
  obtain ⟨d, hd, rfl⟩ := List.mem_map.mp h
  have hdigit := Nat.isDigit_of_mem_toDigits (by decide) (by decide) hd
  have hbounds := digit_bounds hdigit
  rw [isDigit, Bool.and_eq_true, decide_eq_true_iff, decide_eq_true_iff, UInt8.le_iff_toNat_le, UInt8.le_iff_toNat_le,
    byte_toNat hdigit]
  exact hbounds

theorem decimal_ne_nil (n : Nat) : decimal n ≠ [] := by
  intro h
  exact Nat.toDigits_ne_nil (List.map_eq_nil_iff.mp h)

theorem decimal_length_le {k : Nat} (hk : 0 < k) (h : n < 10 ^ k) : (decimal n).length ≤ k := by
  rw [decimal, List.length_map]
  exact (Nat.length_toDigits_le_iff (by decide) hk).mpr h

theorem value_decimal (n : Nat) : value (decimal n) = n := by
  have hsame : ∀ (l : List Char) (a : Nat), (∀ d ∈ l, d.isDigit = true) →
      (l.map byte).foldl (fun a c => 10 * a + (c.toNat - 48)) a = Nat.ofDigitChars 10 l a := by
    intro l
    induction l with
    | nil => exact fun _ _ => rfl
    | cons d l ih =>
        intro a hl
        obtain ⟨hd, hrest⟩ := List.forall_mem_cons.mp hl
        rw [List.map_cons, List.foldl_cons, byte_toNat hd, Nat.ofDigitChars_cons]
        exact ih _ hrest
  calc value (decimal n) = Nat.ofDigitChars 10 (Nat.toDigits 10 n) 0 :=
        hsame _ 0 fun d hd => Nat.isDigit_of_mem_toDigits (by decide) (by decide) hd
    _ = n := Nat.ofDigitChars_toDigits (by decide) (by decide)

def sign : List UInt8 → Bool × List UInt8
  | 45 :: t => (true, t)
  | 43 :: t => (false, t)
  | t => (false, t)

/-- `strtoul` in base ten: the number and the bytes after it, nothing where there are no
digits. A sign is allowed, and `ULONG_MAX` stands for what does not fit. -/
def strtoul (s : List UInt8) : Option (Nat × List UInt8) :=
  let (negative, t) := sign (s.dropWhile isSpace)
  let ds := t.takeWhile isDigit
  if ds = [] then none
  else
    let n := value ds
    let v := if n < 2 ^ 64 then (if negative then (2 ^ 64 - n) % 2 ^ 64 else n) else 2 ^ 64 - 1
    some (v, t.dropWhile isDigit)

theorem isDigit_not_isSpace (h : isDigit c = true) : isSpace c = false := by
  rw [isDigit, Bool.and_eq_true, decide_eq_true_iff, decide_eq_true_iff, UInt8.le_iff_toNat_le,
    UInt8.le_iff_toNat_le] at h
  have hlow : 48 ≤ c.toNat := h.1
  have hne : c ≠ 32 := by
    rintro rfl
    exact absurd hlow (by decide)
  have hgt : ¬ c ≤ 13 := by
    intro hle
    have hle : c.toNat ≤ 13 := UInt8.le_iff_toNat_le.mp hle
    omega
  simp [isSpace, hne, hgt]

theorem sign_digit (h : isDigit c = true) (t : List UInt8) : sign (c :: t) = (false, c :: t) := by
  have hminus : c ≠ 45 := by
    rintro rfl
    exact absurd h (by decide)
  have hplus : c ≠ 43 := by
    rintro rfl
    exact absurd h (by decide)
  unfold sign
  split
  · rename_i hc
    exact absurd (List.head_eq_of_cons_eq hc) hminus
  · rename_i hc
    exact absurd (List.head_eq_of_cons_eq hc) hplus
  · rfl

theorem strtoul_decimal (hn : n < 2 ^ 64) (ht : ∀ c ∈ t.head?, isDigit c = false) :
    strtoul (decimal n ++ t) = some (n, t) := by
  obtain ⟨c, cs, hcs⟩ := List.exists_cons_of_ne_nil (decimal_ne_nil n)
  have hall : ∀ d ∈ decimal n, isDigit d = true := fun d hd => isDigit_of_mem_decimal hd
  have hc : isDigit c = true := hall c (hcs ▸ List.mem_cons_self ..)
  have hskip : (decimal n ++ t).dropWhile isSpace = decimal n ++ t := by
    rw [hcs, List.cons_append, List.dropWhile_cons_of_neg (by simp [isDigit_not_isSpace hc])]
  have hsign : sign (decimal n ++ t) = (false, decimal n ++ t) := by
    rw [hcs, List.cons_append, sign_digit hc]
  have htaken : (decimal n ++ t).takeWhile isDigit = decimal n := by
    rw [List.takeWhile_append_of_pos hall]
    cases t with
    | nil => simp
    | cons d t => rw [List.takeWhile_cons_of_neg (by simp [ht d rfl]), List.append_nil]
  have hrest : (decimal n ++ t).dropWhile isDigit = t := by
    rw [List.dropWhile_append_of_pos hall]
    cases t with
    | nil => rfl
    | cons d t => rw [List.dropWhile_cons_of_neg (by simp [ht d rfl])]
  rw [strtoul, hskip, hsign]
  simp only [htaken, hrest, if_neg (decimal_ne_nil n), value_decimal, if_pos hn, Bool.false_eq_true, if_false]

end Ore.DecimalText
