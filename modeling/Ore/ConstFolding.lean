import Ore.HostQuotients
import Ore.IntConstants

namespace Ore.ConstFolding

open Coercions HostInts HostQuotients InternKeys IntConstants SyntaxKinds TypeHoles

/-- A folded constant, and whether every host operation on the way was defined. -/
structure Folded where
  const : IntConst
  defined : Bool
  deriving DecidableEq

def comptimeFloat : Ty := .prim .comptimeFloat

def isNumeric (t : Ty) : Bool :=
  isConcreteInt t || isConcreteFloat t || t = comptimeInt || t = comptimeFloat

def unifyArith (a b : Ty) : Option Ty :=
  if a = .none ∨ b = .none then none
  else if a = b then some a
  else if (a = comptimeInt ∧ b = comptimeFloat) ∨ (b = comptimeInt ∧ a = comptimeFloat) then some comptimeFloat
  else if a = comptimeInt ∧ (isConcreteInt b ∨ isConcreteFloat b) then some b
  else if b = comptimeInt ∧ (isConcreteInt a ∨ isConcreteFloat a) then some a
  else if a = comptimeFloat ∧ isConcreteFloat b then some b
  else if b = comptimeFloat ∧ isConcreteFloat a then some a
  else none

def tvInternInt (t : Ty) (h : Host) : Folded := ⟨⟨t, h.bits⟩, h.defined⟩

/-- The shape of the three overflow-checked operators. -/
def tvIntBinop (overflow : Bool → BitVec 64 → BitVec 64 → Bool) (op : BitVec 64 → BitVec 64 → Host)
    (lv rv : IntConst) (rty : Ty) : Option Folded :=
  if overflow (isUnsignedInt rty) lv.bits rv.bits then none else some (tvInternInt rty (op lv.bits rv.bits))

def tvIntAdd : IntConst → IntConst → Ty → Option Folded := tvIntBinop addOverflow Host.add

def tvIntSub : IntConst → IntConst → Ty → Option Folded := tvIntBinop subOverflow Host.sub

def tvIntMul : IntConst → IntConst → Ty → Option Folded := tvIntBinop mulOverflow Host.mul

def tvIntDiv (lv rv : IntConst) (rty : Ty) : Option Folded :=
  if isUnsignedInt rty then
    if rv.bits = 0 then none else some (tvInternInt rty (Host.div true lv.bits rv.bits))
  else if rv.bits = 0 then none
  else if lv.bits = BitVec.intMin 64 ∧ rv.bits = -1 then none
  else some (tvInternInt rty (Host.div false lv.bits rv.bits))

def tvIntMod (lv rv : IntConst) (rty : Ty) : Option Folded :=
  if isUnsignedInt rty then
    if rv.bits = 0 then none else some (tvInternInt rty (Host.rem true lv.bits rv.bits))
  else if rv.bits = 0 then none
  else if lv.bits = BitVec.intMin 64 ∧ rv.bits = -1 then some (tvInternInt rty ⟨0, true⟩)
  else some (tvInternInt rty (Host.rem false lv.bits rv.bits))

def tvIntShift (op : BitVec 64 → BitVec 64 → Host) (lv rv : IntConst) (rty : Ty) : Option Folded :=
  if rv.bits.toInt < 0 ∨ 64 ≤ rv.bits.toInt then none else some (tvInternInt rty (op lv.bits rv.bits))

def tvIntShl : IntConst → IntConst → Ty → Option Folded := tvIntShift Host.shl

def tvIntShr (lv rv : IntConst) (rty : Ty) : Option Folded :=
  tvIntShift (Host.shr (isUnsignedInt rty)) lv rv rty

/-- The three operators on patterns. -/
def tvIntBits (op : BitVec 64 → BitVec 64 → BitVec 64) (lv rv : IntConst) (rty : Ty) : Option Folded :=
  some (tvInternInt rty ⟨op lv.bits rv.bits, true⟩)

def tvIntAnd : IntConst → IntConst → Ty → Option Folded := tvIntBits (· &&& ·)

def tvIntOr : IntConst → IntConst → Ty → Option Folded := tvIntBits (· ||| ·)

def tvIntXor : IntConst → IntConst → Ty → Option Folded := tvIntBits (· ^^^ ·)

def tvArithFold (opk : SyntaxKind) (lv rv : IntConst) (rty : Ty) : Option Folded :=
  match opk with
  | .plus => tvIntAdd lv rv rty
  | .minus => tvIntSub lv rv rty
  | .star => tvIntMul lv rv rty
  | .slash => tvIntDiv lv rv rty
  | .percent => tvIntMod lv rv rty
  | _ => none

def tvBitopFold (opk : SyntaxKind) (lv rv : IntConst) (rty : Ty) : Option Folded :=
  match opk with
  | .amp => tvIntAnd lv rv rty
  | .pipe => tvIntOr lv rv rty
  | .caret => tvIntXor lv rv rty
  | .shl => tvIntShl lv rv rty
  | .shr => tvIntShr lv rv rty
  | _ => none

/-- The type and the folded value of an operator expression; `none` where the
operand types are diagnosed. -/
def binopArith (opk : SyntaxKind) (l r : TypedConst) : Option (Ty × Option Folded) :=
  match unifyArith l.type r.type with
  | none => none
  | some u => if isNumeric u then some (u, tvArithFold opk l.value r.value u) else none

def binopBitop (opk : SyntaxKind) (l r : TypedConst) : Option (Ty × Option Folded) :=
  match unifyArith l.type r.type with
  | none => none
  | some u =>
    if isInteger l.type ∧ isInteger r.type then some (u, tvBitopFold opk l.value r.value u) else none

/-- The integer operators of a binary expression. -/
def evalBinary (opk : SyntaxKind) (l r : TypedConst) : Option (Ty × Option Folded) :=
  match opk with
  | .plus | .minus | .star | .slash | .percent | .starStar => binopArith opk l r
  | .amp | .pipe | .caret | .shl | .shr => binopBitop opk l r
  | _ => none

def tvPrefixNeg (v : IntConst) : Option Folded :=
  if v.bits = BitVec.intMin 64 then none else some (tvInternInt v.type (Host.neg v.bits))

def tvPrefixComp (v : IntConst) : Option Folded := some (tvInternInt v.type ⟨~~~v.bits, true⟩)

def evalPrefix (opk : SyntaxKind) (v : TypedConst) : Option (Ty × Option Folded) :=
  match opk with
  | .minus => if isNumeric v.type then some (v.type, tvPrefixNeg v.value) else none
  | .tilde => if isInteger v.type then some (v.type, tvPrefixComp v.value) else none
  | _ => none

/-- The width of a type, 64 for a `comptime_int`. -/
def width (t : Ty) : Nat := if t = comptimeInt then 64 else intBits t

/-- The result of the operator as mathematics has it; `none` where there is none. -/
def exactBinary (opk : SyntaxKind) (u : Ty) (x y : Int) : Option Int :=
  match opk with
  | .plus => some (x + y)
  | .minus => some (x - y)
  | .star => some (x * y)
  | .slash => if y = 0 then none else some (x.tdiv y)
  | .percent => if y = 0 then none else some (x.tmod y)
  | .amp => some (Int.land x y)
  | .pipe => some (Int.lor x y)
  | .caret => some (Int.xor x y)
  | .shl => if 0 ≤ y ∧ y < width u then some (x * 2 ^ y.toNat) else none
  | .shr => if 0 ≤ y ∧ y < width u then some (x / 2 ^ y.toNat) else none
  | _ => none

def exactPrefix (opk : SyntaxKind) (u : Ty) (x : Int) : Option Int :=
  match opk with
  | .minus => some (-x)
  | .tilde => some (if isUnsignedInt u then 2 ^ intBits u - 1 - x else -x - 1)
  | _ => none

/-- A folded value is the exact result and in the range of the result type, and
nothing on the way was undefined. -/
def Exact (u : Ty) (exact : Option Int) (fold : Option Folded) : Prop :=
  ∀ f ∈ fold, f.defined = true ∧ ∃ z ∈ exact, Stands f.const z ∧ InRange u z

theorem exact_none (u : Ty) (exact : Option Int) : Exact u exact none := by simp [Exact]

/-- Where the folded pattern is that of `w`, the fold is exact when the exact
result has the same pattern and lies in range. -/
theorem exact_intern {u t : Ty} (ht : isInteger t) (z w : Int) (h : Host)
    (hb : h.bits = pattern w) :
    Exact u (some z) (some (tvInternInt t h)) ↔
      h.defined = true ∧ w % 2 ^ 64 = z % 2 ^ 64 ∧ Carries t z ∧ InRange u z := by
  simp only [Exact, tvInternInt, Option.mem_def, Option.some.injEq, forall_eq', exists_eq_left',
    ← pattern_eq_iff, ← hb]
  constructor
  · rintro ⟨hd, hs, hr⟩
    exact ⟨hd, hs.bits, hs.carries, hr⟩
  · rintro ⟨hd, hbits, hc, hr⟩
    exact ⟨hd, ⟨ht, hc, hbits⟩, hr⟩

theorem not_exact_undefined {u : Ty} (f : Folded) : ¬ Exact u none (some f) := by simp [Exact]

/-- The quotient that no 64 bits hold. -/
def MinByMinusOne (x y : Int) : Prop := (x = -2 ^ 63 ∨ x = 2 ^ 63) ∧ (y = -1 ∨ y = 2 ^ 64 - 1)

/-- When the fold of a binary operator with result type `u` is right: on operands
that the host reads as numbers outside its range it gives no value, and otherwise
reading them has to do no harm and the exact result has to fit the type. -/
def FoldsRight (opk : SyntaxKind) (u : Ty) (x y : Int) : Prop :=
  match opk with
  | .plus => Outside (isUnsignedInt u) (asRead (isUnsignedInt u) x + asRead (isUnsignedInt u) y) ∨ InRange u (x + y)
  | .minus => Outside (isUnsignedInt u) (asRead (isUnsignedInt u) x - asRead (isUnsignedInt u) y) ∨ InRange u (x - y)
  | .star => Outside (isUnsignedInt u) (asRead (isUnsignedInt u) x * asRead (isUnsignedInt u) y) ∨ InRange u (x * y)
  | .slash =>
    y = 0 ∨ (isUnsignedInt u = false ∧ MinByMinusOne x y) ∨
      (SameQuotient (isUnsignedInt u) x y ∧ InRange u (x.tdiv y))
  | .percent => y = 0 ∨ (SameRemainder (isUnsignedInt u) x y ∧ InRange u (x.tmod y))
  | .amp => InRange u (Int.land x y)
  | .pipe => InRange u (Int.lor x y)
  | .caret => InRange u (Int.xor x y)
  | .shl =>
    ¬ (0 ≤ y ∧ y < 64) ∨
      (y < width u ∧ 0 ≤ x ∧ x * 2 ^ y.toNat < 2 ^ 63 ∧ InRange u (x * 2 ^ y.toNat))
  | .shr =>
    ¬ (0 ≤ y ∧ y < 64) ∨
      (y < width u ∧ (asRead (isUnsignedInt u) x = x ∨ y = 0) ∧ InRange u (x / 2 ^ y.toNat))
  | _ => True

def PrefixRight (opk : SyntaxKind) (v : TypedConst) (x : Int) : Prop :=
  match opk with
  | .minus => (x = -2 ^ 63 ∨ x = 2 ^ 63) ∨ (Carries v.value.type (-x) ∧ InRange v.type (-x))
  | .tilde =>
    if isUnsignedInt v.type then
      intBits v.type = 64 ∧ Carries v.value.type (2 ^ 64 - 1 - x) ∧ InRange v.type (2 ^ 64 - 1 - x)
    else Carries v.value.type (-x - 1) ∧ InRange v.type (-x - 1)
  | _ => True

section Operators

variable {l r : IntConst} {x y : Int} {u : Ty}

theorem reading_stands (s : Bool) (hx : Stands l x) : reading s l.bits = asRead s x := by
  rw [hx.bits, reading_pattern s hx.readable]

theorem exact_intern_range (hu : isInteger u) (z w : Int) (h : Host) (hb : h.bits = pattern w)
    (hd : h.defined = true) :
    Exact u (some z) (some (tvInternInt u h)) ↔ w % 2 ^ 64 = z % 2 ^ 64 ∧ InRange u z := by
  rw [exact_intern hu z w h hb]
  constructor
  · rintro ⟨-, hw, -, hr⟩
    exact ⟨hw, hr⟩
  · rintro ⟨hw, hr⟩
    exact ⟨hd, hw, carries_of_inRange hu hr, hr⟩

theorem exact_checked {overflow : Bool → BitVec 64 → BitVec 64 → Bool} {op : BitVec 64 → BitVec 64 → Host}
    {f : Int → Int → Int} (hover : ∀ s a b, overflow s a b ↔ Outside s (f (reading s a) (reading s b)))
    (hop : ∀ x y, op (pattern x) (pattern y) = ⟨pattern (f x y), true⟩) (hu : isInteger u)
    (hx : Stands l x) (hy : Stands r y) :
    Exact u (some (f x y)) (tvIntBinop overflow op l r u) ↔
      Outside (isUnsignedInt u) (f (asRead (isUnsignedInt u) x) (asRead (isUnsignedInt u) y)) ∨
        InRange u (f x y) := by
  have ho := hover (isUnsignedInt u) l.bits r.bits
  rw [reading_stands _ hx, reading_stands _ hy] at ho
  unfold tvIntBinop
  split
  · next h => exact iff_of_true (exact_none _ _) (.inl (ho.mp h))
  · next h =>
      rw [hx.bits, hy.bits, hop, exact_intern_range hu _ (f x y) _ rfl rfl]
      simp only [true_and]
      exact ⟨.inr, fun hor => hor.resolve_left fun hout => h (ho.mpr hout)⟩

theorem exact_bits {op : BitVec 64 → BitVec 64 → BitVec 64} {f : Int → Int → Int}
    (hop : ∀ x y, op (pattern x) (pattern y) = pattern (f x y)) (hu : isInteger u)
    (hx : Stands l x) (hy : Stands r y) :
    Exact u (some (f x y)) (tvIntBits op l r u) ↔ InRange u (f x y) := by
  rw [tvIntBits, hx.bits, hy.bits, hop, exact_intern_range hu _ (f x y) _ rfl rfl]
  simp

theorem exact_div (hu : isInteger u) (hx : Stands l x) (hy : Stands r y) :
    Exact u (exactBinary .slash u x y) (tvIntDiv l r u) ↔ FoldsRight .slash u x y := by
  simp only [exactBinary, FoldsRight, tvIntDiv]
  have hz : r.bits = 0 ↔ y = 0 := by
    rw [hy.bits]
    exact pattern_zero_iff hy.readable
  by_cases h0 : y = 0
  · simp [hz.mpr h0, h0, exact_none]
  have hb0 : ¬ r.bits = 0 := fun h => h0 (hz.mp h)
  have hdiv : ∀ s, (Host.div s l.bits r.bits).bits = pattern ((asRead s x).tdiv (asRead s y)) := by
    intro s
    rw [div_bits, reading_stands s hx, reading_stands s hy]
  rw [if_neg h0, if_neg hb0, if_neg hb0]
  cases hs : isUnsignedInt u with
  | true =>
      rw [if_pos rfl, exact_intern_range hu _ _ _ (hdiv true) (div_defined true hb0 nofun).1]
      simp only [h0, false_or, reduceCtorEq, false_and]
      exact and_congr_left fun hr =>
        sameQuotient_unsigned hx.readable hy.readable h0 (nonneg_of_inRange hs hr)
  | false =>
      have hmin : l.bits = BitVec.intMin 64 ∧ r.bits = -1 ↔ MinByMinusOne x y := by
        rw [hx.bits, hy.bits, pattern_eq_intMin hx.readable, pattern_eq_negOne hy.readable]
        rfl
      rw [if_neg (by simp)]
      by_cases hm : MinByMinusOne x y
      · simp [hmin.mpr hm, hm, exact_none]
      have hread : ¬ (asRead false x = -2 ^ 63 ∧ asRead false y = -1) := by
        intro ⟨h1, h2⟩
        obtain ⟨hxl, hxh⟩ := hx.readable
        obtain ⟨hyl, hyh⟩ := hy.readable
        simp only [asRead, Bool.false_eq_true, ite_false] at h1 h2
        refine hm ⟨?_, ?_⟩
        · split at h1 <;> omega
        · split at h2 <;> omega
      have hmb : ¬ (l.bits = BitVec.intMin 64 ∧ r.bits = -1) := fun h => hm (hmin.mp h)
      rw [if_neg hmb, exact_intern_range hu _ _ _ (hdiv false) (div_defined false hb0 fun _ => hmb).1]
      simp only [h0, hm, false_or, and_false]
      exact and_congr_left fun hr =>
        sameQuotient_signed hx.readable hy.readable h0 hread (inRange_readable hu hr)

theorem exact_mod (hu : isInteger u) (hx : Stands l x) (hy : Stands r y) :
    Exact u (exactBinary .percent u x y) (tvIntMod l r u) ↔ FoldsRight .percent u x y := by
  simp only [exactBinary, FoldsRight, tvIntMod]
  have hz : r.bits = 0 ↔ y = 0 := by
    rw [hy.bits]
    exact pattern_zero_iff hy.readable
  by_cases h0 : y = 0
  · simp [hz.mpr h0, h0, exact_none]
  have hb0 : ¬ r.bits = 0 := fun h => h0 (hz.mp h)
  have hrem : ∀ s, (Host.rem s l.bits r.bits).bits = pattern ((asRead s x).tmod (asRead s y)) := by
    intro s
    rw [rem_bits, reading_stands s hx, reading_stands s hy]
  rw [if_neg h0, if_neg hb0, if_neg hb0]
  simp only [h0, false_or]
  cases hs : isUnsignedInt u with
  | true =>
      rw [if_pos rfl, exact_intern_range hu _ _ _ (hrem true) (div_defined true hb0 nofun).2]
      exact and_congr_left fun hr =>
        sameRemainder_unsigned hx.readable hy.readable h0 (nonneg_of_inRange hs hr)
  | false =>
      rw [if_neg (by simp)]
      have hsame := sameRemainder_signed hx.readable hy.readable h0
      split
      · next h =>
          have hzero : (0 : BitVec 64) = pattern ((asRead false x).tmod (asRead false y)) := by
            rw [← hrem false, h.1, h.2]
            decide
          rw [exact_intern_range hu _ _ _ hzero rfl, hsame]
      · next h =>
          rw [exact_intern_range hu _ _ _ (hrem false) (div_defined false hb0 fun _ => h).2, hsame]

/-- A shift by an amount that the guard lets through; `right` is the condition on
the shift itself. -/
theorem exact_shift {opk : SyntaxKind} {op : BitVec 64 → BitVec 64 → Host} {f : Int → Nat → Int} {right : Prop}
    (hexact : exactBinary opk u x y = if 0 ≤ y ∧ y < width u then some (f x y.toNat) else none)
    (hop : 0 ≤ y → y < 64 →
      (Exact u (some (f x y.toNat)) (some (tvInternInt u (op l.bits r.bits))) ↔ right))
    (hy : Stands r y) :
    Exact u (exactBinary opk u x y) (tvIntShift op l r u) ↔
      ¬ (0 ≤ y ∧ y < 64) ∨ (y < width u ∧ right) := by
  have ha := amount_iff hy.readable
  rw [← hy.bits] at ha
  unfold tvIntShift
  split
  · next h =>
      refine iff_of_true (exact_none _ _) (.inl fun hr => ?_)
      have := ha.mpr hr
      omega
  · next h =>
      obtain ⟨hl, hh⟩ := ha.mp (by omega)
      rw [hexact]
      by_cases hw : y < width u
      · rw [if_pos ⟨hl, hw⟩, hop hl hh]
        simp [hl, hh, hw]
      · rw [if_neg fun h => hw h.2]
        simp [hl, hh, hw, not_exact_undefined]

theorem exact_shl (hu : isInteger u) (hx : Stands l x) (hy : Stands r y) :
    Exact u (exactBinary .shl u x y) (tvIntShl l r u) ↔ FoldsRight .shl u x y := by
  refine exact_shift (f := fun x n => x * 2 ^ n) rfl ?_ hy
  intro hl hh
  have hn : r.bits.toNat = y.toNat := by rw [hy.bits, amount_toNat hl hh]
  have hb : (Host.shl l.bits r.bits).bits = pattern (x * 2 ^ y.toNat) := by
    rw [hx.bits, shl_bits, hn]
  have hd : (Host.shl l.bits r.bits).defined = true ↔ (0 ≤ x ∧ x * 2 ^ y.toNat < 2 ^ 63) := by
    have hr : l.bits.toInt = asRead false x := reading_stands false hx
    have hpos : (1 : Int) ≤ 2 ^ y.toNat := by exact_mod_cast Nat.one_le_two_pow
    have hread := hx.readable.2
    simp only [Host.shl, decide_eq_true_eq, hn, hr]
    by_cases hc : x < 2 ^ 63
    · rw [asRead_low hc]
      have : y.toNat < 64 := by omega
      simp only [this, true_and]
    · rw [asRead_high hc]
      have hge : x * 1 ≤ x * 2 ^ y.toNat := by
        apply Int.mul_le_mul_of_nonneg_left hpos
        omega
      constructor
      · rintro ⟨-, hneg, -⟩
        omega
      · rintro ⟨-, hlt⟩
        omega
  rw [exact_intern hu _ _ _ hb, hd]
  constructor
  · rintro ⟨⟨h0, hlt⟩, -, -, hr⟩
    exact ⟨h0, hlt, hr⟩
  · rintro ⟨h0, hlt, hr⟩
    exact ⟨⟨h0, hlt⟩, rfl, carries_of_inRange hu hr, hr⟩

theorem exact_shr (hu : isInteger u) (hx : Stands l x) (hy : Stands r y) :
    Exact u (exactBinary .shr u x y) (tvIntShr l r u) ↔ FoldsRight .shr u x y := by
  refine exact_shift (f := fun x n => x / 2 ^ n) rfl ?_ hy
  intro hl hh
  have hn : r.bits.toNat = y.toNat := by rw [hy.bits, amount_toNat hl hh]
  have hb : (Host.shr (isUnsignedInt u) l.bits r.bits).bits =
      pattern (asRead (isUnsignedInt u) x / 2 ^ y.toNat) := by
    rw [shr_bits, hn, reading_stands _ hx]
  have hlt : y.toNat < 64 := by omega
  have hd : (Host.shr (isUnsignedInt u) l.bits r.bits).defined = true := by
    simp only [Host.shr, decide_eq_true_eq, hn]
    exact hlt
  have hz : y.toNat = 0 ↔ y = 0 := by omega
  rw [exact_intern_range hu _ _ _ hb hd, sameShift _ x hlt, hz]

end Operators

theorem exact_neg {v : TypedConst} {x : Int} (hx : Stands v.value x) :
    Exact v.type (some (-x)) (tvPrefixNeg v.value) ↔ PrefixRight .minus v x := by
  have hmin : v.value.bits = BitVec.intMin 64 ↔ (x = -2 ^ 63 ∨ x = 2 ^ 63) := by
    rw [hx.bits, pattern_eq_intMin hx.readable]
  simp only [tvPrefixNeg, PrefixRight]
  split
  · next h => exact iff_of_true (exact_none _ _) (.inl (hmin.mp h))
  · next h =>
      have hb : (Host.neg v.value.bits).bits = pattern (-x) := by
        rw [hx.bits]
        exact pattern_neg x
      have hd : (Host.neg v.value.bits).defined = true := decide_eq_true h
      rw [exact_intern hx.integer _ _ _ hb, hd]
      simp only [true_and]
      exact ⟨.inr, fun hor => hor.resolve_left fun hout => h (hmin.mpr hout)⟩

theorem exact_comp {v : TypedConst} {x : Int} (ht : isInteger v.type) (hx : Stands v.value x) :
    Exact v.type (exactPrefix .tilde v.type x) (tvPrefixComp v.value) ↔ PrefixRight .tilde v x := by
  have hb : ~~~v.value.bits = pattern (-x - 1) := by rw [hx.bits, pattern_not]
  simp only [exactPrefix, tvPrefixComp, PrefixRight]
  rw [exact_intern hx.integer _ (-x - 1) _ hb]
  cases kind ht with
  | comptime hc =>
      rw [hc]
      simp [not_unsigned_comptime]
  | signed b hs hu hc hbits hw => simp [hu]
  | unsigned b hu hs hc hbits hw =>
      have h64 : (-x - 1) % 2 ^ 64 = (2 ^ b - 1 - x) % 2 ^ 64 ↔ b = 64 := by
        rcases hw with rfl | rfl | rfl | rfl <;> omega
      simp only [hu, ite_true, hbits, h64, true_and]
      constructor
      · rintro ⟨rfl, hcar, hr⟩
        exact ⟨rfl, hcar, hr⟩
      · rintro ⟨rfl, hcar, hr⟩
        exact ⟨rfl, hcar, hr⟩

theorem unifyArith_integer {a b u : Ty} (ha : isInteger a) (hb : isInteger b) (h : unifyArith a b = some u) :
    isInteger u := by
  unfold unifyArith at h
  have hcf : isInteger comptimeFloat = false := rfl
  split at h
  · cases h
  split at h
  · cases h
    exact ha
  split at h
  · next hf =>
      rcases hf with ⟨-, rfl⟩ | ⟨-, rfl⟩ <;> simp [hcf] at ha hb
  split at h
  · cases h
    exact hb
  split at h
  · cases h
    exact ha
  split at h
  · next hf =>
      rw [hf.1] at ha
      cases ha
  split at h
  · next hf =>
      rw [hf.1] at hb
      cases hb
  · cases h

theorem evalBinary_exact {opk : SyntaxKind} {l r : TypedConst} {x y : Int} {u : Ty} {fold : Option Folded}
    (hl : isInteger l.type) (hr : isInteger r.type) (hx : Stands l.value x) (hy : Stands r.value y)
    (h : evalBinary opk l r = some (u, fold)) :
    Exact u (exactBinary opk u x y) fold ↔ FoldsRight opk u x y := by
  have harith : ∀ opk, binopArith opk l r = some (u, fold) →
      isInteger u ∧ fold = tvArithFold opk l.value r.value u := by
    intro opk ha
    unfold binopArith at ha
    split at ha
    · cases ha
    split at ha
    · next hun _ =>
        cases ha
        exact ⟨unifyArith_integer hl hr hun, rfl⟩
    · cases ha
  have hbitop : ∀ opk, binopBitop opk l r = some (u, fold) →
      isInteger u ∧ fold = tvBitopFold opk l.value r.value u := by
    intro opk ha
    unfold binopBitop at ha
    split at ha
    · cases ha
    split at ha
    · next hun _ =>
        cases ha
        exact ⟨unifyArith_integer hl hr hun, rfl⟩
    · cases ha
  cases opk with
  | plus =>
      obtain ⟨hu, rfl⟩ := harith _ h
      exact exact_checked addOverflow_iff (fun x y => by rw [Host.add, pattern_add]) hu hx hy
  | minus =>
      obtain ⟨hu, rfl⟩ := harith _ h
      exact exact_checked subOverflow_iff (fun x y => by rw [Host.sub, pattern_sub]) hu hx hy
  | star =>
      obtain ⟨hu, rfl⟩ := harith _ h
      exact exact_checked mulOverflow_iff (fun x y => by rw [Host.mul, pattern_mul]) hu hx hy
  | slash =>
      obtain ⟨hu, rfl⟩ := harith _ h
      exact exact_div hu hx hy
  | percent =>
      obtain ⟨hu, rfl⟩ := harith _ h
      exact exact_mod hu hx hy
  | starStar =>
      obtain ⟨hu, rfl⟩ := harith _ h
      exact iff_of_true (exact_none _ _) trivial
  | amp =>
      obtain ⟨hu, rfl⟩ := hbitop _ h
      exact exact_bits pattern_land hu hx hy
  | pipe =>
      obtain ⟨hu, rfl⟩ := hbitop _ h
      exact exact_bits pattern_lor hu hx hy
  | caret =>
      obtain ⟨hu, rfl⟩ := hbitop _ h
      exact exact_bits pattern_xor hu hx hy
  | shl =>
      obtain ⟨hu, rfl⟩ := hbitop _ h
      exact exact_shl hu hx hy
  | shr =>
      obtain ⟨hu, rfl⟩ := hbitop _ h
      exact exact_shr hu hx hy
  | _ => cases h

theorem evalPrefix_exact {opk : SyntaxKind} {v : TypedConst} {x : Int} {u : Ty} {fold : Option Folded}
    (hv : isInteger v.type) (hx : Stands v.value x) (h : evalPrefix opk v = some (u, fold)) :
    Exact u (exactPrefix opk u x) fold ↔ PrefixRight opk v x := by
  cases opk with
  | minus =>
      simp only [evalPrefix] at h
      split at h
      · cases h
        exact exact_neg hx
      · cases h
  | tilde =>
      simp only [evalPrefix, hv, ite_true] at h
      cases h
      exact exact_comp hv hx
  | _ => cases h

/-- Folding is exact, in range and free of undefined host arithmetic on exactly
the operands that `FoldsRight` and `PrefixRight` describe. -/
theorem folding_exact_iff (opk : SyntaxKind) (u : Ty) (fold : Option Folded) :
    (∀ (l r : TypedConst) (x y : Int), isInteger l.type → isInteger r.type → Stands l.value x → Stands r.value y →
      evalBinary opk l r = some (u, fold) → (Exact u (exactBinary opk u x y) fold ↔ FoldsRight opk u x y)) ∧
    ∀ (v : TypedConst) (x : Int), isInteger v.type → Stands v.value x →
      evalPrefix opk v = some (u, fold) → (Exact u (exactPrefix opk u x) fold ↔ PrefixRight opk v x) :=
  ⟨fun _ _ _ _ hl hr hx hy h => evalBinary_exact hl hr hx hy h,
    fun _ _ hv hx h => evalPrefix_exact hv hx h⟩

def byteConst (n : BitVec 64) : TypedConst := ⟨.prim .u8, .prim .u8, n⟩

theorem stands_byte {z : Int} (h : ¬ Outside true z) : Stands (byteConst (pattern z)).value z :=
  ⟨rfl, by simpa [Carries, byteConst, comptimeInt, isUnsignedInt] using h, rfl⟩

theorem folding_exact_bytes :
    Exact (.prim .u8) (some 250) (some ⟨⟨.prim .u8, 250⟩, true⟩) ∧
      Exact (.prim .u8) (exactPrefix .minus (.prim .u8) 0) (some ⟨⟨.prim .u8, 0⟩, true⟩) := by
  constructor
  · refine ((folding_exact_iff .plus (.prim .u8) _).1 (byteConst (pattern 200)) (byteConst (pattern 50)) 200 50 rfl
      rfl (stands_byte (by decide)) (stands_byte (by decide)) rfl).mpr (.inr ?_)
    simp [InRange, comptimeInt, isUnsignedInt, intBits]
  · refine ((folding_exact_iff .minus (.prim .u8) _).2 (byteConst (pattern 0)) 0 rfl (stands_byte (by decide))
      rfl).mpr (.inr ?_)
    simp [InRange, Carries, Outside, byteConst, comptimeInt, isUnsignedInt, intBits]

/-- `200 + 100` at type `u8` folds to the `u8` constant 300. -/
theorem sum_leaves_range :
    Stands (byteConst (pattern 200)).value 200 ∧ Stands (byteConst (pattern 100)).value 100 ∧
      evalBinary .plus (byteConst (pattern 200)) (byteConst (pattern 100)) =
        some (.prim .u8, some ⟨⟨.prim .u8, pattern 300⟩, true⟩) ∧
      ¬ Exact (.prim .u8) (exactBinary .plus (.prim .u8) 200 100) (some ⟨⟨.prim .u8, pattern 300⟩, true⟩) := by
  refine ⟨stands_byte (by decide), stands_byte (by decide), by decide, ?_⟩
  rintro h
  obtain ⟨-, z, hz, -, hr⟩ := h _ rfl
  cases hz
  simp [InRange, comptimeInt, isUnsignedInt, intBits] at hr

/-- `1 << 63` moves a bit into the sign of an `int64_t`. -/
example : (Host.shl (pattern 1) (pattern 63)).defined = false := by decide

end Ore.ConstFolding
