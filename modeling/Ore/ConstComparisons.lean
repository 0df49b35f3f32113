import Ore.IntConstants

namespace Ore.ConstComparisons

open Coercions HostInts InternKeys IntConstants SyntaxKinds TypeHoles

def tvTypeIsUnsigned (t : Ty) : Bool := t ≠ comptimeInt && isUnsignedInt t

/-- The four ordered comparisons; `none` for any other operator. -/
def ordered (opk : SyntaxKind) (a b : Int) : Option Bool :=
  match opk with
  | .lt => some (a < b)
  | .le => some (a ≤ b)
  | .gt => some (a > b)
  | .ge => some (a ≥ b)
  | _ => none

def useUnsigned (l r : IntConst) : Bool := tvTypeIsUnsigned l.type || tvTypeIsUnsigned r.type

def tvIntCompare (l r : IntConst) (opk : SyntaxKind) : Option Bool :=
  if useUnsigned l r then ordered opk l.bits.toNat r.bits.toNat else ordered opk l.bits.toInt r.bits.toInt

/-- Interned values are equal when they are the same index, integers also when
their bits are. -/
def tvValueSemanticEq (a b : IntConst) : Bool := a = b || a.bits = b.bits

def tvValueInRange (opk : SyntaxKind) (lo hi v : IntConst) : Bool :=
  match opk with
  | .dotDotEq => v.bits.toInt ≥ lo.bits.toInt && v.bits.toInt ≤ hi.bits.toInt
  | .dotDotLt => v.bits.toInt ≥ lo.bits.toInt && v.bits.toInt < hi.bits.toInt
  | _ => false

/-- A pattern of a switch arm; `none` where an operand does not fold to an integer. -/
inductive Pattern where
  | wildcard
  | range (opk : SyntaxKind) (lo hi : Option IntConst)
  | value (v : Option IntConst)

structure Arm (β : Type) where
  patterns : List Pattern
  body : Option β

def patternMatches (scrut : IntConst) : Pattern → Bool
  | .wildcard => true
  | .range opk (some lo) (some hi) => tvValueInRange opk lo hi scrut
  | .value (some v) => tvValueSemanticEq v scrut
  | _ => false

def firstArm {β : Type} (test : Pattern → Bool) : List (Arm β) → Option β
  | [] => none
  | arm :: arms => match arm.body with
    | some body => if arm.patterns.any test then some body else firstArm test arms
    | none => firstArm test arms

/-- The body that a switch on a known integer folds to. -/
def foldSwitch {β : Type} (scrut : IntConst) (arms : List (Arm β)) : Option β := firstArm (patternMatches scrut) arms

/-- The comparison that the upper end of a range asks for. -/
def upperOp : SyntaxKind → SyntaxKind
  | .dotDotEq => .le
  | _ => .lt

def isRangeOp (opk : SyntaxKind) : Bool := opk = .dotDotLt || opk = .dotDotEq

def comparesInRange (opk : SyntaxKind) (lo hi v : IntConst) : Bool :=
  isRangeOp opk && tvIntCompare lo v .le = some true && tvIntCompare v hi (upperOp opk) = some true

def comparesEqual (a b : IntConst) : Bool := tvIntCompare a b .lt = some false && tvIntCompare a b .gt = some false

def patternSelects (scrut : IntConst) : Pattern → Bool
  | .wildcard => true
  | .range opk (some lo) (some hi) => comparesInRange opk lo hi scrut
  | .value (some v) => comparesEqual v scrut
  | _ => false

def selectArm {β : Type} (scrut : IntConst) (arms : List (Arm β)) : Option β := firstArm (patternSelects scrut) arms

theorem tvIntCompare_eq (l r : IntConst) (opk : SyntaxKind) :
    tvIntCompare l r opk = ordered opk (reading (useUnsigned l r) l.bits) (reading (useUnsigned l r) r.bits) := by
  unfold tvIntCompare
  cases useUnsigned l r <;> rfl

/-- The readings keep the order of the two numbers. -/
def OrderKept (unsigned : Bool) (x y : Int) : Prop :=
  if unsigned then (x < 0 ∧ 0 ≤ y → x + 2 ^ 64 < y) ∧ (y < 0 ∧ 0 ≤ x → y + 2 ^ 64 < x)
  else (2 ^ 63 ≤ x ∧ y < 2 ^ 63 → y < x - 2 ^ 64) ∧ (2 ^ 63 ≤ y ∧ x < 2 ^ 63 → x < y - 2 ^ 64)

theorem ordered_congr_iff {a b x y : Int} :
    (∀ opk, ordered opk a b = ordered opk x y) ↔ ((a < b ↔ x < y) ∧ (a ≤ b ↔ x ≤ y)) := by
  constructor
  · intro h
    have h1 := h .lt
    have h2 := h .le
    simpa [ordered] using And.intro h1 h2
  · rintro ⟨h1, h2⟩ opk
    have h3 : a > b ↔ x > y := by
      rw [gt_iff_lt, gt_iff_lt, ← not_le, ← not_le, h2]
    have h4 : a ≥ b ↔ x ≥ y := by
      rw [ge_iff_le, ge_iff_le, ← not_lt, ← not_lt, h1]
    unfold ordered
    split <;> simp [h1, h2, h3, h4]

/-- A comparison answers by the numbers when the readings keep their order. -/
theorem compare_iff {a b : IntConst} {x y : Int} (ha : Stands a x) (hb : Stands b y) :
    (∀ opk, tvIntCompare a b opk = ordered opk x y) ↔ OrderKept (useUnsigned a b) x y := by
  simp only [tvIntCompare_eq, ordered_congr_iff]
  have hx := ha.readable
  have hy := hb.readable
  rw [ha.bits, hb.bits, reading_pattern _ hx, reading_pattern _ hy]
  obtain ⟨hxl, hxh⟩ := hx
  obtain ⟨hyl, hyh⟩ := hy
  cases useUnsigned a b with
  | false =>
      simp only [OrderKept, Bool.false_eq_true, ite_false]
      by_cases cx : x < 2 ^ 63 <;> by_cases cy : y < 2 ^ 63
      · rw [asRead_low cx, asRead_low cy]
        omega
      · rw [asRead_low cx, asRead_high cy]
        omega
      · rw [asRead_high cx, asRead_low cy]
        omega
      · rw [asRead_high cx, asRead_high cy]
        omega
  | true =>
      simp only [OrderKept, ite_true]
      by_cases cx : x < 0 <;> by_cases cy : y < 0
      · rw [asRead_negative cx, asRead_negative cy]
        omega
      · rw [asRead_negative cx, asRead_natural cy]
        omega
      · rw [asRead_natural cx, asRead_negative cy]
        omega
      · rw [asRead_natural cx, asRead_natural cy]
        omega

theorem reading_injective (u : Bool) {a b : BitVec 64} (h : reading u a = reading u b) : a = b := by
  rw [← pattern_reading u a, ← pattern_reading u b, h]

theorem semanticEq_eq (a b : IntConst) : tvValueSemanticEq a b = comparesEqual a b := by
  rw [Bool.eq_iff_iff]
  simp only [tvValueSemanticEq, comparesEqual, tvIntCompare_eq, ordered, Bool.or_eq_true, Bool.and_eq_true,
    decide_eq_true_eq, Option.some.injEq, decide_eq_false_iff_not]
  constructor
  · intro h
    have hbits : a.bits = b.bits := by
      rcases h with rfl | h
      · rfl
      · exact h
    rw [hbits]
    omega
  · rintro ⟨h1, h2⟩
    exact .inr (reading_injective (useUnsigned a b) (by omega))

/-- The two constants are compared unsigned, and only one has its top bit set. -/
def Unlike (a b : IntConst) : Prop := useUnsigned a b = true ∧ (a.bits.toInt < 0 ↔ 0 ≤ b.bits.toInt)

theorem compare_le (a b : IntConst) :
    tvIntCompare a b .le = some true ↔ (a.bits.toInt ≤ b.bits.toInt ↔ ¬ Unlike a b) := by
  have := a.bits.isLt
  have := b.bits.isLt
  have ha := BitVec.toInt_eq_toNat_cond a.bits
  have hb := BitVec.toInt_eq_toNat_cond b.bits
  unfold Unlike tvIntCompare
  cases useUnsigned a b with
  | false => simp [ordered]
  | true =>
      simp only [ordered, ite_true, Option.some.injEq, decide_eq_true_eq, true_and]
      split at ha <;> split at hb <;> omega

theorem compare_lt (a b : IntConst) :
    tvIntCompare a b .lt = some true ↔ (a.bits.toInt < b.bits.toInt ↔ ¬ Unlike a b) := by
  have := a.bits.isLt
  have := b.bits.isLt
  have ha := BitVec.toInt_eq_toNat_cond a.bits
  have hb := BitVec.toInt_eq_toNat_cond b.bits
  unfold Unlike tvIntCompare
  cases useUnsigned a b with
  | false => simp [ordered]
  | true =>
      simp only [ordered, ite_true, Option.some.injEq, decide_eq_true_eq, true_and]
      split at ha <;> split at hb <;> omega

/-- The signed test of the upper end. -/
def BelowEnd (opk : SyntaxKind) (v hi : IntConst) : Prop :=
  if opk = .dotDotEq then v.bits.toInt ≤ hi.bits.toInt else v.bits.toInt < hi.bits.toInt

theorem compare_upper (opk : SyntaxKind) (v hi : IntConst) :
    tvIntCompare v hi (upperOp opk) = some true ↔ (BelowEnd opk v hi ↔ ¬ Unlike v hi) := by
  unfold BelowEnd upperOp
  split
  · exact compare_le v hi
  · next h =>
      rw [if_neg fun he => h he]
      exact compare_lt v hi

theorem inRange_iff {opk : SyntaxKind} (hopk : isRangeOp opk) (lo hi v : IntConst) :
    tvValueInRange opk lo hi v = true ↔ lo.bits.toInt ≤ v.bits.toInt ∧ BelowEnd opk v hi := by
  unfold isRangeOp at hopk
  rcases Bool.or_eq_true_iff.mp hopk with h | h <;> rw [decide_eq_true_eq] at h <;> subst h <;>
    simp [tvValueInRange, BelowEnd]

/-- When the signed tests of a range say what the comparisons say: where exactly
one end is unlike the value, the test of the other end has to fail. -/
def RangeRight (opk : SyntaxKind) (lo hi v : IntConst) : Prop :=
  (Unlike lo v → ¬ Unlike v hi → ¬ BelowEnd opk v hi) ∧
    (Unlike v hi → ¬ Unlike lo v → ¬ lo.bits.toInt ≤ v.bits.toInt)

/-- A value unlike both ends passes exactly one of the signed tests. -/
theorem one_test_of_unlike {lo hi v : IntConst} (opk : SyntaxKind) (h1 : Unlike lo v) (h2 : Unlike v hi) :
    lo.bits.toInt ≤ v.bits.toInt ↔ ¬ BelowEnd opk v hi := by
  obtain ⟨-, h1⟩ := h1
  obtain ⟨-, h2⟩ := h2
  unfold BelowEnd
  split <;> omega

theorem flipped_tests {low high unlikeLow unlikeHigh : Prop} (h : unlikeLow → unlikeHigh → (low ↔ ¬ high)) :
    (low ∧ high ↔ (low ↔ ¬ unlikeLow) ∧ (high ↔ ¬ unlikeHigh)) ↔
      (unlikeLow → ¬ unlikeHigh → ¬ high) ∧ (unlikeHigh → ¬ unlikeLow → ¬ low) := by
  by_cases low <;> by_cases high <;> by_cases unlikeLow <;> by_cases unlikeHigh <;> simp_all

theorem range_iff {opk : SyntaxKind} (hopk : isRangeOp opk) (lo hi v : IntConst) :
    (tvValueInRange opk lo hi v = true ↔
      tvIntCompare lo v .le = some true ∧ tvIntCompare v hi (upperOp opk) = some true) ↔
      RangeRight opk lo hi v := by
  rw [inRange_iff hopk, compare_le, compare_upper, RangeRight]
  exact flipped_tests (one_test_of_unlike opk)

def PatternRight (scrut : IntConst) : Pattern → Prop
  | .range opk (some lo) (some hi) => isRangeOp opk → RangeRight opk lo hi scrut
  | _ => True

theorem pattern_iff (scrut : IntConst) (p : Pattern) :
    patternMatches scrut p = patternSelects scrut p ↔ PatternRight scrut p := by
  unfold patternMatches patternSelects PatternRight
  split
  · simp
  · next opk lo hi =>
      by_cases hopk : isRangeOp opk
      · rw [Bool.eq_iff_iff]
        simp only [comparesInRange, hopk, Bool.true_and, Bool.and_eq_true, decide_eq_true_eq, true_implies]
        exact range_iff hopk lo hi scrut
      · have hout : tvValueInRange opk lo hi scrut = false := by
          unfold tvValueInRange
          split <;> first | rfl | exact absurd rfl hopk
        simp [comparesInRange, hopk, hout]
  · next v => simp [semanticEq_eq]
  · simp

def upToFirst {α : Type} (test : α → Bool) : List α → List α
  | [] => []
  | p :: ps => p :: if test p then [] else upToFirst test ps

def patternsOf {β : Type} (arms : List (Arm β)) : List Pattern := (arms.filter (·.body.isSome)).flatMap (·.patterns)

def testedPatterns {β : Type} (scrut : IntConst) (arms : List (Arm β)) : List Pattern :=
  upToFirst (patternSelects scrut) (patternsOf arms)

theorem upToFirst_append {α : Type} (test : α → Bool) (ps qs : List α) :
    upToFirst test (ps ++ qs) = upToFirst test ps ++ if ps.any test then [] else upToFirst test qs := by
  induction ps with
  | nil => rfl
  | cons p ps ih => cases hp : test p <;> simp [upToFirst, hp, ih]

theorem any_upToFirst {α : Type} {test test' : α → Bool} {ps : List α}
    (h : ∀ p ∈ upToFirst test' ps, test p = test' p) :
    ps.any test = ps.any test' := by
  induction ps with
  | nil => rfl
  | cons p ps ih =>
      have hhead := h p List.mem_cons_self
      rw [List.any_cons, List.any_cons, hhead]
      cases hp : test' p with
      | true => rfl
      | false =>
          have htail := ih fun q hq => h q (List.mem_cons_of_mem _ (by simpa [hp] using hq))
          rw [htail]

theorem firstArm_congr {β : Type} {test test' : Pattern → Bool} {arms : List (Arm β)}
    (h : ∀ p ∈ upToFirst test' (patternsOf arms), test p = test' p) : firstArm test arms = firstArm test' arms := by
  induction arms with
  | nil => rfl
  | cons arm arms ih =>
      unfold firstArm
      cases hbody : arm.body with
      | none => exact ih (by simpa [patternsOf, hbody] using h)
      | some body =>
          have hsplit : patternsOf (arm :: arms) = arm.patterns ++ patternsOf arms := by simp [patternsOf, hbody]
          rw [hsplit, upToFirst_append] at h
          have hany := any_upToFirst fun p hp => h p (List.mem_append_left _ hp)
          simp only [hany]
          split
          · rfl
          · next hnone => exact ih fun p hp => h p (List.mem_append_right _ (by rwa [if_neg hnone]))

theorem foldSwitch_eq {β : Type} {scrut : IntConst} {arms : List (Arm β)}
    (h : ∀ p ∈ testedPatterns scrut arms, PatternRight scrut p) :
    foldSwitch scrut arms = selectArm scrut arms :=
  firstArm_congr fun p hp => (pattern_iff scrut p).mpr (h p hp)

theorem foldSwitch_single_iff {β : Type} (scrut : IntConst) (p : Pattern) (body : β) :
    foldSwitch scrut [⟨[p], some body⟩] = selectArm scrut [⟨[p], some body⟩] ↔ PatternRight scrut p := by
  rw [← pattern_iff]
  simp only [foldSwitch, selectArm, firstArm, List.any_cons, List.any_nil, Bool.or_false]
  cases patternMatches scrut p <;> cases patternSelects scrut p <;> simp

/-- When each of the three comparisons agrees with the numbers and with the others. -/
theorem comparisons_agree_iff (a b : IntConst) :
    (∀ x y : Int, Stands a x → Stands b y →
      ((∀ opk, tvIntCompare a b opk = ordered opk x y) ↔ OrderKept (useUnsigned a b) x y)) ∧
    (tvValueSemanticEq a b = true ↔ tvIntCompare a b .lt = some false ∧ tvIntCompare a b .gt = some false) ∧
    (∀ (opk : SyntaxKind) (lo hi v : IntConst), isRangeOp opk →
      ((tvValueInRange opk lo hi v = true ↔
        tvIntCompare lo v .le = some true ∧ tvIntCompare v hi (upperOp opk) = some true) ↔
        RangeRight opk lo hi v)) ∧
    (∀ (β : Type) (scrut : IntConst) (arms : List (Arm β)),
      (∀ p ∈ testedPatterns scrut arms, PatternRight scrut p) → foldSwitch scrut arms = selectArm scrut arms) ∧
    ∀ (β : Type) (scrut : IntConst) (p : Pattern) (body : β),
      foldSwitch scrut [⟨[p], some body⟩] = selectArm scrut [⟨[p], some body⟩] ↔ PatternRight scrut p := by
  refine ⟨fun x y ha hb => compare_iff ha hb, ?_, fun opk lo hi v h => range_iff h lo hi v,
    fun β scrut arms h => foldSwitch_eq h, fun β scrut p body => foldSwitch_single_iff scrut p body⟩
  rw [semanticEq_eq]
  simp [comparesEqual]

theorem comparisons_agree_bytes :
    tvIntCompare ⟨.prim .u8, pattern 200⟩ ⟨comptimeInt, pattern 5⟩ .gt = some true := by
  have ha : Stands ⟨.prim .u8, pattern 200⟩ 200 := ⟨rfl, by simp [Carries, comptimeInt, isUnsignedInt, Outside], rfl⟩
  have hb : Stands ⟨comptimeInt, pattern 5⟩ 5 := ⟨rfl, by simp [Carries, Readable], rfl⟩
  exact ((comparisons_agree_iff _ _).1 200 5 ha hb).mpr (by simp [OrderKept, useUnsigned, tvTypeIsUnsigned]) .gt

/-- `-1 < 5` folds to false when the 5 is a `u8`, and a `u64` 5 is found outside
`0 ..= 2^64 - 1`, although each comparison says that it is inside. -/
theorem comparisons_disagree :
    Stands ⟨comptimeInt, pattern (-1)⟩ (-1) ∧ Stands ⟨.prim .u8, pattern 5⟩ 5 ∧
      tvIntCompare ⟨comptimeInt, pattern (-1)⟩ ⟨.prim .u8, pattern 5⟩ .lt = some false ∧
      tvValueInRange .dotDotEq ⟨.prim .u64, pattern 0⟩ ⟨.prim .u64, pattern (2 ^ 64 - 1)⟩
        ⟨.prim .u64, pattern 5⟩ = false ∧
      tvIntCompare ⟨.prim .u64, pattern 0⟩ ⟨.prim .u64, pattern 5⟩ .le = some true ∧
      tvIntCompare ⟨.prim .u64, pattern 5⟩ ⟨.prim .u64, pattern (2 ^ 64 - 1)⟩ .le = some true := by
  refine ⟨⟨rfl, by simp [Carries, Readable], rfl⟩,
    ⟨rfl, by simp [Carries, comptimeInt, isUnsignedInt, Outside], rfl⟩, ?_, ?_, ?_, ?_⟩ <;> decide

end Ore.ConstComparisons
