import Ore.ConstComparisons
import Ore.Intervals

namespace Ore.SwitchCoverage

open ConstComparisons HostInts InternKeys IntConstants Intervals SyntaxKinds TypeHoles

def int64Min : Int := -2 ^ 63
def int64Max : Int := 2 ^ 63 - 1

def intervalOverlaps (set : List Interval) (lo hi : Int) : Bool := set.any fun iv => lo ≤ iv.hi && iv.lo ≤ hi

/-- The loop over neighbours in the sorted set. -/
def adjacent : List Interval → Bool
  | i :: j :: rest => if i.hi = int64Max ∨ j.lo ≠ i.hi + 1 then false else adjacent (j :: rest)
  | _ => true

def intervalsSpan (set : List Interval) (min max : Int) : Bool :=
  match (sortByLo set).head?, (sortByLo set).getLast? with
  | some first, some last => if first.lo ≠ min ∨ last.hi ≠ max then false else adjacent (sortByLo set)
  | _, _ => false

/-- The least and the greatest value of a type, where an `int64_t` holds both. -/
def intTypeBounds : Ty → Option (Int × Int)
  | .prim .u8 => some (0, 255)
  | .prim .u16 => some (0, 65535)
  | .prim .u32 => some (0, 4294967295)
  | .prim .i8 => some (-128, 127)
  | .prim .i16 => some (-32768, 32767)
  | .prim .i32 => some (-2147483648, 2147483647)
  | .prim .i64 | .prim .isize => some (int64Min, int64Max)
  | _ => none

inductive SwitchDiag where
  | emptyRange
  | overlapsEarlier
  | duplicateCase
  | nonExhaustive
  deriving DecidableEq

structure Coverage where
  ivals : List Interval
  wildcard : Bool
  diags : List SwitchDiag
  deriving DecidableEq

/-- The upper end of the interval that a range adds. `hi_v - 1` wraps on the host. -/
def upperEnd (opk : SyntaxKind) (hi : IntConst) : Int :=
  if opk = .dotDotEq then hi.bits.toInt else (hi.bits - 1).toInt

def Coverage.report (c : Coverage) (d : SwitchDiag) : Coverage := { c with diags := c.diags ++ [d] }

def Coverage.push (c : Coverage) (l h : Int) : Coverage := { c with ivals := c.ivals ++ [⟨l, h⟩] }

def coverRange (c : Coverage) (opk : SyntaxKind) (lo hi : IntConst) : Coverage :=
  let l := lo.bits.toInt
  let h := upperEnd opk hi
  if l > h then c.report .emptyRange
  else if intervalOverlaps c.ivals l h then c.report .overlapsEarlier
  else c.push l h

def coverValue (c : Coverage) (v : IntConst) : Coverage :=
  if intervalOverlaps c.ivals v.bits.toInt v.bits.toInt then c.report .duplicateCase
  else c.push v.bits.toInt v.bits.toInt

/-- What a pattern of an integer switch adds; one that does not fold adds nothing. -/
def coverPattern (c : Coverage) : Pattern → Coverage
  | .wildcard => { c with wildcard := true }
  | .range opk (some lo) (some hi) => coverRange c opk lo hi
  | .value (some v) => coverValue c v
  | _ => c

def switchCoverage (pats : List Pattern) : Coverage := pats.foldl coverPattern ⟨[], false, []⟩

/-- The overlap, empty-range and exhaustiveness diagnostics of a switch over
integers of type `scrut`, with the patterns of all its arms in order. -/
def switchDiags (scrut : Ty) (pats : List Pattern) : List SwitchDiag :=
  let c := switchCoverage pats
  if c.wildcard then c.diags
  else match intTypeBounds scrut with
  | none => (c.report .nonExhaustive).diags
  | some (min, max) => if intervalsSpan c.ivals min max then c.diags else (c.report .nonExhaustive).diags

def Between (min max : Int) (c : IntConst) : Prop := min ≤ c.bits.toInt ∧ c.bits.toInt ≤ max

/-- A value or range pattern whose operands fold to constants between the bounds. -/
def ConstantPattern (min max : Int) : Pattern → Prop
  | .range opk (some lo) (some hi) => isRangeOp opk = true ∧ Between min max lo ∧ Between min max hi
  | .value (some v) => Between min max v
  | _ => False

def isRange : Pattern → Bool
  | .range .. => true
  | _ => false

def typeValue (t : Ty) (z : Int) : IntConst := ⟨t, pattern z⟩

/-- Every range is non-empty and every value of the type matches exactly one pattern. -/
def CoversExactly (t : Ty) (min max : Int) (pats : List Pattern) : Prop :=
  (∀ p ∈ pats, isRange p = true → ∃ z, min ≤ z ∧ z ≤ max ∧ patternMatches (typeValue t z) p = true) ∧
    ∀ z, min ≤ z → z ≤ max → pats.countP (patternMatches (typeValue t z)) = 1

/-- A range that excludes the least `int64_t`. -/
def EndsAtMin : Pattern → Prop
  | .range .dotDotLt (some _) (some hi) => hi.bits = BitVec.intMin 64
  | _ => False

/-- The range that wrapping makes of one that excludes the least `int64_t`. -/
def widened : Pattern → Pattern
  | .range .dotDotLt (some lo) (some hi) =>
    if hi.bits = BitVec.intMin 64 then .range .dotDotEq (some lo) (some ⟨hi.type, pattern int64Max⟩)
    else .range .dotDotLt (some lo) (some hi)
  | p => p

def intervalOf : Pattern → Interval
  | .range opk (some lo) (some hi) => ⟨lo.bits.toInt, upperEnd opk hi⟩
  | .value (some v) => ⟨v.bits.toInt, v.bits.toInt⟩
  | _ => ⟨0, 0⟩

theorem intervalOverlaps_iff (set : List Interval) (i : Interval) (_ : i.Proper) (hset : ∀ k ∈ set, k.Proper) :
    intervalOverlaps set i.lo i.hi = false ↔ ∀ k ∈ set, k.Apart i := by
  simp only [intervalOverlaps, List.any_eq_false, Bool.and_eq_true, decide_eq_true_eq]
  refine forall_congr' fun k => imp_congr_right fun hk => ?_
  have := hset k hk
  unfold Interval.Proper at *
  unfold Interval.Apart
  omega

theorem coverPattern_spec {min max : Int} {c : Coverage} {p : Pattern} (hp : ConstantPattern min max p)
    (hset : ∀ k ∈ c.ivals, k.Proper) :
    ((intervalOf p).Proper ∧ (∀ k ∈ c.ivals, k.Apart (intervalOf p)) ∧
        coverPattern c p = c.push (intervalOf p).lo (intervalOf p).hi) ∨
      (¬ ((intervalOf p).Proper ∧ ∀ k ∈ c.ivals, k.Apart (intervalOf p)) ∧
        ∃ d, coverPattern c p = c.report d) := by
  unfold ConstantPattern at hp
  split at hp
  · next opk lo hi =>
      have hov := intervalOverlaps_iff c.ivals (intervalOf (.range opk (some lo) (some hi)))
      simp only [intervalOf, Interval.Proper] at hov ⊢
      simp only [coverPattern, coverRange]
      by_cases hle : lo.bits.toInt ≤ upperEnd opk hi
      · have hov' := hov hle hset
        rw [if_neg (by omega)]
        split
        · next h =>
            refine .inr ⟨fun hall => ?_, _, rfl⟩
            rw [hov'.mpr hall.2] at h
            cases h
        · next h => exact .inl ⟨hle, hov'.mp (by simpa using h), rfl⟩
      · rw [if_pos (by omega)]
        exact .inr ⟨fun h => hle h.1, _, rfl⟩
  · next v =>
      have hov := intervalOverlaps_iff c.ivals (intervalOf (.value (some v))) (le_refl _) hset
      simp only [intervalOf, Interval.Proper] at hov ⊢
      simp only [coverPattern, coverValue]
      split
      · next h =>
          refine .inr ⟨fun hall => ?_, _, rfl⟩
          rw [hov.mpr hall.2] at h
          cases h
      · next h => exact .inl ⟨le_refl _, hov.mp (by simpa using h), rfl⟩
  · cases hp

theorem coverPattern_keeps (c : Coverage) {min max : Int} {p : Pattern} (hp : ConstantPattern min max p) :
    (coverPattern c p).wildcard = c.wildcard ∧ ∃ ds, (coverPattern c p).diags = c.diags ++ ds := by
  unfold ConstantPattern at hp
  split at hp
  · simp only [coverPattern, coverRange]
    split
    · exact ⟨rfl, _, rfl⟩
    split
    · exact ⟨rfl, _, rfl⟩
    · exact ⟨rfl, [], by simp [Coverage.push]⟩
  · simp only [coverPattern, coverValue]
    split
    · exact ⟨rfl, _, rfl⟩
    · exact ⟨rfl, [], by simp [Coverage.push]⟩
  · cases hp

theorem cover_keeps (c : Coverage) {min max : Int} {pats : List Pattern}
    (hp : ∀ p ∈ pats, ConstantPattern min max p) :
    (pats.foldl coverPattern c).wildcard = c.wildcard ∧
      ∃ ds, (pats.foldl coverPattern c).diags = c.diags ++ ds := by
  induction pats generalizing c with
  | nil => exact ⟨rfl, [], by simp⟩
  | cons p pats ih =>
      obtain ⟨hw, ds, hds⟩ := coverPattern_keeps c (hp p List.mem_cons_self)
      obtain ⟨hw', ds', hds'⟩ := ih (coverPattern c p) fun q hq => hp q (List.mem_cons_of_mem _ hq)
      exact ⟨hw'.trans hw, ds ++ ds', by rw [List.foldl_cons, hds', hds, List.append_assoc]⟩

/-- A run over constant patterns reports nothing when their intervals can be
added, and has then added them all. -/
theorem cover_spec {min max : Int} {pats : List Pattern} (hp : ∀ p ∈ pats, ConstantPattern min max p) {c : Coverage}
    (hc : c.diags = []) (hset : ∀ k ∈ c.ivals, k.Proper) :
    ((pats.foldl coverPattern c).diags = [] ↔ Addable c.ivals (pats.map intervalOf)) ∧
      (Addable c.ivals (pats.map intervalOf) →
        (pats.foldl coverPattern c).ivals = c.ivals ++ pats.map intervalOf) := by
  induction pats generalizing c with
  | nil => simp [Addable, hc]
  | cons p pats ih =>
      have hrest : ∀ q ∈ pats, ConstantPattern min max q := fun q hq => hp q (List.mem_cons_of_mem _ hq)
      simp only [List.foldl_cons, List.map_cons, Addable]
      rcases coverPattern_spec (hp p List.mem_cons_self) hset with ⟨hprop, hapart, hstep⟩ | ⟨hbad, d, hstep⟩
      · rw [hstep]
        have hset' : ∀ k ∈ (c.push (intervalOf p).lo (intervalOf p).hi).ivals, k.Proper := by
          intro k hk
          rcases List.mem_append.mp hk with hk | hk
          · exact hset k hk
          · rw [List.mem_singleton] at hk
            exact hk ▸ hprop
        obtain ⟨h1, h2⟩ := ih hrest (c := c.push (intervalOf p).lo (intervalOf p).hi) hc hset'
        refine ⟨h1.trans ⟨fun h => ⟨hprop, hapart, h⟩, fun h => h.2.2⟩, fun h => ?_⟩
        rw [h2 h.2.2]
        simp [Coverage.push]
      · have hne : ¬ (pats.foldl coverPattern (coverPattern c p)).diags = [] := by
          obtain ⟨-, ds, hds⟩ := cover_keeps (coverPattern c p) hrest
          rw [hds, hstep]
          simp [Coverage.report]
        exact ⟨iff_of_false hne fun h => hbad ⟨h.1, h.2.1⟩, fun h => absurd ⟨h.1, h.2.1⟩ hbad⟩

theorem adjacent_cons (i j : Interval) (rest : List Interval) :
    adjacent (i :: j :: rest) = if i.hi = int64Max ∨ j.lo ≠ i.hi + 1 then false else adjacent (j :: rest) := rfl

theorem adjacent_chain {max : Int} (i : Interval) {rest : List Interval} (hmax : ∀ j ∈ rest, j.lo ≤ int64Max)
    (min : Int) :
    (i.lo = min ∧ (i :: rest).getLast?.map Interval.hi = some max ∧ adjacent (i :: rest) = true) ↔
      Chain max min (i :: rest) := by
  induction rest generalizing i min with
  | nil => simp [Chain, adjacent]
  | cons j rest ih =>
      have hj := hmax j List.mem_cons_self
      rw [Chain, ← ih j (fun k hk => hmax k (List.mem_cons_of_mem _ hk)), List.getLast?_cons_cons]
      rw [adjacent_cons]
      split
      · next h =>
          simp only [Bool.false_eq_true, and_false, false_iff]
          rintro ⟨-, hlo, -⟩
          rcases h with h | h
          · omega
          · exact h hlo
      · next h =>
          rw [not_or, not_not] at h
          simp only [h.2, true_and]

theorem intervalsSpan_iff {set : List Interval} {min max : Int} (hmax : ∀ i ∈ set, i.lo ≤ int64Max) :
    intervalsSpan set min max = true ↔ Chain max min (sortByLo set) := by
  have hmem : ∀ i ∈ sortByLo set, i.lo ≤ int64Max := fun i hi => hmax i ((sortByLo_perm set).mem_iff.mp hi)
  unfold intervalsSpan
  cases hs : sortByLo set with
  | nil => simp [Chain]
  | cons i rest =>
      rw [hs] at hmem
      rw [← adjacent_chain i fun j hj => hmem j (List.mem_cons_of_mem _ hj)]
      obtain ⟨last, hlast⟩ : ∃ last, (i :: rest).getLast? = some last := ⟨_, List.getLast?_eq_some_getLast (by simp)⟩
      simp only [hlast, List.head?_cons, Option.map_some, Option.some.injEq]
      split
      · next h =>
          simp only [Bool.false_eq_true, false_iff]
          rintro ⟨h1, h2, -⟩
          rcases h with h | h
          · exact h h1
          · exact h h2
      · next h =>
          rw [not_or, not_not, not_not] at h
          simp [h.1, h.2]

structure TypeBounds (min max : Int) : Prop where
  low : int64Min ≤ min
  high : max ≤ int64Max
  inhabited : min ≤ max
  full : min = int64Min → max = int64Max

theorem typeBounds {t : Ty} {min max : Int} (h : intTypeBounds t = some (min, max)) : TypeBounds min max := by
  unfold intTypeBounds at h
  split at h <;> cases h <;> constructor <;> simp [int64Min, int64Max]

theorem decrement_toInt {b : BitVec 64} (h : b ≠ BitVec.intMin 64) : (b - 1).toInt = b.toInt - 1 := by
  have hl := b.le_toInt
  have hh := b.toInt_lt
  have hne : b.toInt ≠ -2 ^ 63 := by
    intro he
    apply h
    apply BitVec.eq_of_toInt_eq
    rw [he]
    decide
  have h1 : b - 1 = pattern (b.toInt - 1) := by
    conv_lhs => rw [← pattern_reading false b]
    exact pattern_sub _ 1
  have h2 := reading_pattern false (z := b.toInt - 1) ⟨by omega, by omega⟩
  rw [asRead_low (by omega)] at h2
  rw [h1]
  exact h2

theorem upperEnd_intMin {hi : IntConst} (h : hi.bits = BitVec.intMin 64) : upperEnd .dotDotLt hi = int64Max := by
  rw [upperEnd, if_neg (by decide), h]
  decide

theorem typeValue_toInt (t : Ty) {z : Int} (hl : int64Min ≤ z) (hh : z ≤ int64Max) :
    (typeValue t z).bits.toInt = z := by
  unfold int64Min int64Max at *
  have h := reading_pattern false (z := z) ⟨by omega, by omega⟩
  rw [asRead_low (by omega)] at h
  exact h

/-- A value matches a pattern, with wrapping taken as meant, when it lies in the
interval that the pattern adds. -/
theorem matches_widened (t : Ty) {min max z : Int} {p : Pattern} (hp : ConstantPattern min max p)
    (hl : int64Min ≤ z) (hh : z ≤ int64Max) :
    patternMatches (typeValue t z) (widened p) = true ↔ (intervalOf p).Has z := by
  have hz := typeValue_toInt t hl hh
  unfold ConstantPattern at hp
  split at hp
  · next opk lo hi =>
      obtain ⟨hopk, -, -⟩ := hp
      have hmaxval : (pattern int64Max).toInt = int64Max := by decide
      rcases Bool.or_eq_true_iff.mp hopk with h | h <;> rw [decide_eq_true_eq] at h <;> subst h
      · by_cases hmin : hi.bits = BitVec.intMin 64
        · simp only [widened, hmin, ite_true, patternMatches, tvValueInRange, intervalOf, upperEnd_intMin hmin,
            Interval.Has, hz, hmaxval, Bool.and_eq_true, decide_eq_true_eq, ge_iff_le]
        · have hd := decrement_toInt hmin
          simp only [widened, hmin, ite_false, patternMatches, tvValueInRange, intervalOf, upperEnd, reduceCtorEq,
            Interval.Has, hz, hd, Bool.and_eq_true, decide_eq_true_eq, ge_iff_le]
          omega
      · simp only [widened, patternMatches, tvValueInRange, intervalOf, upperEnd, ite_true, Interval.Has, hz,
          Bool.and_eq_true, decide_eq_true_eq, ge_iff_le]
  · next v =>
      have hb : v.bits = (typeValue t z).bits ↔ v.bits.toInt = z := by
        rw [← BitVec.toInt_inj, hz]
      simp only [widened, patternMatches, tvValueSemanticEq, intervalOf, Interval.Has, Bool.or_eq_true,
        decide_eq_true_eq, hb]
      constructor
      · rintro (rfl | h)
        · rw [hz]
          omega
        · omega
      · intro h
        exact .inr (by omega)
  · cases hp

theorem intervalOf_within {min max : Int} (hb : TypeBounds min max) {p : Pattern} (hp : ConstantPattern min max p) :
    min ≤ (intervalOf p).lo ∧ (intervalOf p).hi ≤ max := by
  unfold ConstantPattern at hp
  split at hp
  · next opk lo hi =>
      obtain ⟨hopk, hlo, hhi⟩ := hp
      refine ⟨hlo.1, ?_⟩
      rcases Bool.or_eq_true_iff.mp hopk with h | h <;> rw [decide_eq_true_eq] at h <;> subst h
      · simp only [intervalOf]
        by_cases hmin : hi.bits = BitVec.intMin 64
        · have hint : hi.bits.toInt = int64Min := by
            rw [hmin]
            decide
          have hle := hhi.1
          have hge := hb.low
          rw [upperEnd_intMin hmin, hb.full (by omega)]
        · rw [upperEnd, if_neg (by decide), decrement_toInt hmin]
          have := hhi.2
          omega
      · exact hhi.2
  · exact hp
  · cases hp

section Switch

variable {t : Ty} {min max : Int} {pats : List Pattern}

theorem intervals_within (hb : TypeBounds min max) (hp : ∀ p ∈ pats, ConstantPattern min max p) :
    ∀ i ∈ pats.map intervalOf, min ≤ i.lo ∧ i.hi ≤ max := by
  intro i hi
  obtain ⟨p, hpm, rfl⟩ := List.mem_map.mp hi
  exact intervalOf_within hb (hp p hpm)

theorem countP_widened (hb : TypeBounds min max) (hp : ∀ p ∈ pats, ConstantPattern min max p) {z : Int}
    (hl : min ≤ z) (hh : z ≤ max) :
    (pats.map widened).countP (patternMatches (typeValue t z)) =
      (pats.map intervalOf).countP fun i => i.Has z := by
  rw [List.countP_map, List.countP_map]
  refine List.countP_congr fun p hpm => ?_
  have := matches_widened t (hp p hpm) (le_trans hb.low hl) (le_trans hh hb.high)
  simpa using this

theorem nonempty_widened (hb : TypeBounds min max) (hp : ∀ p ∈ pats, ConstantPattern min max p) :
    (∀ p ∈ pats.map widened, isRange p = true →
        ∃ z, min ≤ z ∧ z ≤ max ∧ patternMatches (typeValue t z) p = true) ↔
      ∀ i ∈ pats.map intervalOf, i.Proper := by
  simp only [List.forall_mem_map]
  refine forall_congr' fun p => imp_congr_right fun hpm => ?_
  have hin := intervalOf_within hb (hp p hpm)
  constructor
  · intro h
    by_cases hr : isRange (widened p) = true
    · obtain ⟨z, hl, hh, hz⟩ := h hr
      have := (matches_widened t (hp p hpm) (le_trans hb.low hl) (le_trans hh hb.high)).mp hz
      exact le_trans this.1 this.2
    · have hpat := hp p hpm
      unfold ConstantPattern at hpat
      split at hpat
      · refine absurd ?_ hr
        unfold widened
        split
        · split <;> rfl
        · rfl
      · exact le_refl _
      · cases hpat
  · intro h _
    have hlo : min ≤ (intervalOf p).lo := hin.1
    have hhi : (intervalOf p).lo ≤ max := le_trans h hin.2
    refine ⟨(intervalOf p).lo, hlo, hhi, ?_⟩
    exact (matches_widened t (hp p hpm) (le_trans hb.low hlo) (le_trans hhi hb.high)).mpr ⟨le_refl _, h⟩

theorem switchDiags_iff (hbt : intTypeBounds t = some (min, max)) (hp : ∀ p ∈ pats, ConstantPattern min max p) :
    switchDiags t pats = [] ↔ CoversExactly t min max (pats.map widened) := by
  have hb := typeBounds hbt
  have hin := intervals_within hb hp
  obtain ⟨hdiags, hivals⟩ := cover_spec hp (c := ⟨[], false, []⟩) rfl (by simp)
  have hwild : (switchCoverage pats).wildcard = false := (cover_keeps ⟨[], false, []⟩ hp).1
  have hspan : switchDiags t pats = [] ↔
      (switchCoverage pats).diags = [] ∧ intervalsSpan (switchCoverage pats).ivals min max = true := by
    simp only [switchDiags, hwild, hbt, Bool.false_eq_true, ite_false]
    split
    · next h => simp [h]
    · next h => simp [h, Coverage.report]
  rw [hspan, CoversExactly, nonempty_widened hb hp]
  simp only [switchCoverage, hdiags]
  have hcount : (∀ z, min ≤ z → z ≤ max → (pats.map widened).countP (patternMatches (typeValue t z)) = 1) ↔
      ∀ z, min ≤ z → z ≤ max → ((pats.map intervalOf).countP fun i => i.Has z) = 1 :=
    forall_congr' fun z => imp_congr_right fun hl => imp_congr_right fun hh => by rw [countP_widened hb hp hl hh]
  have hlo : (∀ i ∈ pats.map intervalOf, i.Proper) → ∀ i ∈ pats.map intervalOf, i.lo ≤ int64Max :=
    fun hne i hi => le_trans (le_trans (hne i hi) (hin i hi).2) hb.high
  rw [hcount, addable_iff]
  constructor
  · rintro ⟨⟨hne, hap, -⟩, hs⟩
    have hadd := (addable_iff [] _).mpr ⟨hne, hap, by simp⟩
    rw [hivals hadd, List.nil_append] at hs
    refine ⟨hne, (countP_one_iff hne hin).mpr ⟨hap, ?_⟩⟩
    exact (sorted_chain_iff hne hap hin hb.inhabited).mp ((intervalsSpan_iff (hlo hne)).mp hs)
  · rintro ⟨hne, hone⟩
    obtain ⟨hap, hcov⟩ := (countP_one_iff hne hin).mp hone
    have hadd := (addable_iff [] _).mpr ⟨hne, hap, by simp⟩
    refine ⟨⟨hne, hap, by simp⟩, ?_⟩
    rw [hivals hadd, List.nil_append, intervalsSpan_iff (hlo hne)]
    exact (sorted_chain_iff hne hap hin hb.inhabited).mpr hcov

theorem widened_eq {p : Pattern} (h : ¬ EndsAtMin p) : widened p = p := by
  unfold widened
  split
  · exact if_neg h
  · rfl

/-- A range that excludes the least `int64_t` matches nothing. -/
theorem empty_of_endsAtMin {p : Pattern} (h : EndsAtMin p) (v : IntConst) :
    isRange p = true ∧ patternMatches v p = false := by
  unfold EndsAtMin at h
  split at h
  · next lo hi =>
      refine ⟨rfl, ?_⟩
      have hint : hi.bits.toInt = int64Min := by
        rw [h]
        decide
      have hge := v.bits.le_toInt
      simp only [patternMatches, tvValueInRange, hint, Bool.and_eq_false_iff, decide_eq_false_iff_not, not_lt]
      exact .inr hge
  · cases h

theorem not_coversExactly {p : Pattern} (hp : p ∈ pats) (h : EndsAtMin p) : ¬ CoversExactly t min max pats := by
  rintro ⟨hne, -⟩
  obtain ⟨z, -, -, hz⟩ := hne p hp (empty_of_endsAtMin h (typeValue t 0)).1
  rw [(empty_of_endsAtMin h (typeValue t z)).2] at hz
  cases hz

/-- When the diagnostics of a switch are exact: no range excludes the least
`int64_t`, or else the patterns do not even cover exactly when each such range is
taken to run up to the greatest. -/
def CoverageRight (t : Ty) (min max : Int) (pats : List Pattern) : Prop :=
  (∀ p ∈ pats, ¬ EndsAtMin p) ∨ ¬ CoversExactly t min max (pats.map widened)

end Switch

def constPattern (z : Int) : IntConst := ⟨comptimeInt, pattern z⟩

end Ore.SwitchCoverage
