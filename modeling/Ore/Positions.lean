import Ore.LineTables
import Ore.SortedSearch

namespace Ore.Positions

open Lexer LexerScans LineTables SortedSearch
open WorkspaceModel (Bytes)

/-- A packed source range: 16 bits of file, 24 of start, 24 of length. -/
abbrev TinySpan := Nat

def fileMask : Nat := 2 ^ 16 - 1
def offsetMask : Nat := 2 ^ 24 - 1

def spanFile (s : TinySpan) : Nat := s &&& fileMask
def spanStart (s : TinySpan) : Nat := s >>> 16 &&& offsetMask
def spanLength (s : TinySpan) : Nat := s >>> 40 &&& offsetMask
def spanEnd (s : TinySpan) : Nat := spanStart s + spanLength s

def spanMake (file start length : Nat) : TinySpan :=
  (file &&& fileMask) ||| (start &&& offsetMask) <<< 16 ||| (length &&& offsetMask) <<< 40

structure SourceFile where
  evicted : Bool
  text : Bytes
  lineStarts : List Nat

def word : Nat := 2 ^ 32

/-- Failure is the greatest 32-bit number. -/
def dbByteOffsetAt (f : SourceFile) (line0 char0 : UInt32) : Nat :=
  if f.evicted then word - 1
  else match f.lineStarts[line0.toNat]? with
    | none => word - 1
    | some lineStart =>
        let off := (lineStart + char0.toNat) % word
        let lineEnd := match f.lineStarts[line0.toNat + 1]? with
          | some next => next
          | none => (off + 1) % word
        min off (min lineEnd f.text.length)

structure ResolvedSpan where
  line : Nat
  colStart : Nat
  colEnd : Nat
  lineText : Bytes
  deriving DecidableEq

/-- The end of a line without its line break. -/
def trimBreak (text : Bytes) (start : Nat) : Nat → Nat
  | 0 => 0
  | last + 1 => if start < last + 1 && isBreak (text.getD last 0) then trimBreak text start last else last + 1

def lineOf (starts : List Nat) (byteStart : Nat) : Nat :=
  let lo := partitionPoint (fun i => starts.getD i 0 ≤ byteStart) 0 starts.length
  if lo = 0 then 0 else lo - 1

def dbResolveSpan (f : SourceFile) (span : TinySpan) : Option ResolvedSpan :=
  if f.evicted || f.lineStarts.isEmpty || f.text.length < spanStart span then none
  else
    let lineIdx := lineOf f.lineStarts (spanStart span)
    let start := f.lineStarts.getD lineIdx 0
    let stop := trimBreak f.text start ((f.lineStarts[lineIdx + 1]?).getD f.text.length)
    let colStart := (spanStart span + word - start + 1) % word
    let endClamped := min (spanEnd span) stop
    let colEnd := if start < endClamped then endClamped - start + 1 else colStart + 1
    some { line := lineIdx + 1
           colStart := colStart
           colEnd := if colEnd ≤ colStart then colStart + 1 else colEnd
           lineText := (f.text.drop start).take (stop - start) }

theorem spanStart_make {file start length : Nat} (h : start < 2 ^ 24) :
    spanStart (spanMake file start length) = start := by
  refine Nat.eq_of_testBit_eq fun i => ?_
  have hhigh (hi : 24 ≤ i) : start.testBit i = false :=
    Nat.testBit_lt_two_pow (Nat.lt_of_lt_of_le h (Nat.pow_le_pow_right (by decide) hi))
  simp only [spanStart, spanMake, fileMask, offsetMask, Nat.testBit_and, Nat.testBit_shiftRight, Nat.testBit_or,
    Nat.testBit_shiftLeft, Nat.testBit_two_pow_sub_one]
  by_cases hi : i < 24
  · have hfile : ¬ 16 + i < 16 := by omega
    have hlength : ¬ 40 ≤ 16 + i := by omega
    simp [hi, hfile, hlength]
  · simp [hi, hhigh (by omega)]

/-- A line table starts at 0 and increases. -/
structure Table (starts : List Nat) : Prop where
  zero : starts[0]? = some 0
  sorted : starts.Pairwise (· < ·)

/-- The offset is behind the start of the line and before the next one. -/
def InLine (starts : List Nat) (b line : Nat) : Prop :=
  ∃ start, starts[line]? = some start ∧ start ≤ b ∧ ∀ next, starts[line + 1]? = some next → b < next

variable {starts : List Nat} (htable : Table starts)

include htable

theorem Table.getD_mono {i j : Nat} (hij : i ≤ j) (hj : j < starts.length) : starts.getD i 0 ≤ starts.getD j 0 := by
  have hi : i < starts.length := by omega
  have hgeti : starts.getD i 0 = starts[i] := by simp [List.getD, hi]
  have hgetj : starts.getD j 0 = starts[j] := by simp [List.getD, hj]
  rw [hgeti, hgetj]
  rcases Nat.lt_or_eq_of_le hij with hlt | rfl
  · exact Nat.le_of_lt (List.pairwise_iff_getElem.mp htable.sorted i j hi hj hlt)
  · exact Nat.le_refl _

theorem lineOf_eq_iff (b line : Nat) : lineOf starts b = line ↔ InLine starts b line := by
  have hpos : 0 < starts.length := by
    by_contra hnil
    have hzero := htable.zero
    rw [List.getElem?_eq_none (by omega)] at hzero
    cases hzero
  have hget (i : Nat) (hi : i < starts.length) : starts[i]? = some (starts.getD i 0) := by simp [List.getD, hi]
  have hfirst : starts.getD 0 0 = 0 := by simp [List.getD, htable.zero]
  obtain ⟨-, hto, hbelow, habove⟩ := @partitionPoint_spec (fun i => starts.getD i 0 ≤ b) 0 starts.length
    (fun i j hij hj hb => decide_eq_true (Nat.le_trans (htable.getD_mono hij hj) (of_decide_eq_true hb)))
    (Nat.zero_le _)
  unfold lineOf
  generalize partitionPoint (fun i => starts.getD i 0 ≤ b) 0 starts.length = p at hto hbelow habove ⊢
  have hp : p ≠ 0 := by
    rintro rfl
    have hfalse := of_decide_eq_false (habove 0 (Nat.le_refl _) hpos)
    rw [hfirst] at hfalse
    exact hfalse (Nat.zero_le _)
  simp only [hp, if_false]
  constructor
  · rintro rfl
    have hle := hbelow (p - 1) (Nat.zero_le _) (by omega)
    refine ⟨_, hget (p - 1) (by omega), of_decide_eq_true hle, fun next hnext => ?_⟩
    have hlt := (List.getElem?_eq_some_iff.mp hnext).1
    rw [hget _ hlt, Option.some.injEq] at hnext
    have hafter := habove (p - 1 + 1) (by omega) hlt
    rw [← hnext]
    simpa using hafter
  · rintro ⟨start, hstart, hle, hnext⟩
    have hlt := (List.getElem?_eq_some_iff.mp hstart).1
    rw [hget _ hlt, Option.some.injEq] at hstart
    have hbefore : line < p := by
      by_contra hge
      have hfalse := habove line (by omega) hlt
      simp only [decide_eq_false_iff_not] at hfalse
      omega
    have hafter : p ≤ line + 1 := by
      by_contra hgt
      have hin : line + 1 < starts.length := by omega
      have htrue := of_decide_eq_true (hbelow (line + 1) (Nat.zero_le _) (by omega))
      have hless := hnext _ (hget _ hin)
      omega
    omega

omit htable

/-- A file with its text and its line table; the text is shorter than 16 MB. -/
structure Loaded (f : SourceFile) : Prop where
  present : f.evicted = false
  table : lineIndex f.text = some f.lineStarts
  size : f.text.length < 2 ^ 24

variable {f : SourceFile} (h : Loaded f)

include h

theorem Loaded.starts_eq : f.lineStarts = 0 :: breaksIn f.text 0 f.text.length := by
  have htable := h.table
  rw [lineIndex_eq, Option.some.injEq] at htable
  exact htable.symm

theorem Loaded.isTable : Table f.lineStarts :=
  ⟨by rw [h.starts_eq]; rfl, lineIndex_sorted h.table⟩

theorem Loaded.start_le {line start : Nat} (hstart : f.lineStarts[line]? = some start) : start ≤ f.text.length := by
  have hmem := List.mem_of_getElem? hstart
  rw [h.starts_eq, List.mem_cons] at hmem
  rcases hmem with rfl | hmem
  · exact Nat.zero_le _
  · exact (mem_breaksIn.mp hmem).1.2

theorem Loaded.lines_le : f.lineStarts.length ≤ f.text.length + 1 := by
  have hle : (breaksIn f.text 0 f.text.length).length ≤ (List.range' 1 f.text.length).length :=
    List.length_filter_le _ _
  rw [h.starts_eq, List.length_cons]
  simpa using hle

theorem resolveSpan_spec (file length : Nat) {o : Nat} (ho : o ≤ f.text.length) :
    ∃ r line start, dbResolveSpan f (spanMake file o length) = some r ∧ InLine f.lineStarts o line ∧
      f.lineStarts[line]? = some start ∧ r.line = line + 1 ∧ r.colStart = o - start + 1 := by
  have hsize := h.size
  have hmake : spanStart (spanMake file o length) = o := spanStart_make (by omega)
  have hin := (lineOf_eq_iff h.isTable o _).mp rfl
  obtain ⟨start, hstart, hle, hnext⟩ := hin
  have hgetD : f.lineStarts.getD (lineOf f.lineStarts o) 0 = start := by simp [List.getD, hstart]
  have hguard : ¬ (f.evicted || f.lineStarts.isEmpty || decide (f.text.length < spanStart (spanMake file o length))) =
      true := by
    rw [hmake, h.present, h.starts_eq]
    simpa using ho
  unfold dbResolveSpan
  rw [if_neg hguard]
  simp only [hmake, hgetD]
  refine ⟨_, lineOf f.lineStarts o, start, rfl, ⟨start, hstart, hle, hnext⟩, hstart, rfl, ?_⟩
  simp only [word]
  omega

theorem byteOffsetAt_eq {line0 char0 : UInt32} {start : Nat} (hstart : f.lineStarts[line0.toNat]? = some start) :
    dbByteOffsetAt f line0 char0 =
      min ((start + char0.toNat) % word) (min (match f.lineStarts[line0.toNat + 1]? with
        | some next => next
        | none => ((start + char0.toNat) % word + 1) % word) f.text.length) := by
  rw [dbByteOffsetAt, h.present, hstart]
  rfl

/-- The offset lies in the text, and the line reported for it is the addressed one. -/
def OnLine (f : SourceFile) (line0 : UInt32) (off : Nat) : Prop :=
  off ≤ f.text.length ∧ ∃ r, dbResolveSpan f (spanMake 0 off 0) = some r ∧ r.line = line0.toNat + 1

theorem onLine_iff {line0 : UInt32} {off : Nat} (hoff : off ≤ f.text.length) :
    OnLine f line0 off ↔ InLine f.lineStarts off line0.toNat := by
  obtain ⟨r, line, start, hr, hin, -, hline, -⟩ := resolveSpan_spec h 0 0 hoff
  constructor
  · rintro ⟨-, r', hr', hline'⟩
    obtain rfl : r = r' := Option.some.inj (hr.symm.trans hr')
    have hsame : line = line0.toNat := by omega
    exact hsame ▸ hin
  · intro hin'
    have hline' := (lineOf_eq_iff h.isTable off _).mpr hin'
    have hsame := (lineOf_eq_iff h.isTable off _).mpr hin
    exact ⟨hoff, r, hr, by omega⟩

omit h

/-- The character is on the line; or the line is the last one, and the sum does not
leave 32 bits. -/
def CharInside (f : SourceFile) (line0 char0 : UInt32) : Prop :=
  match f.lineStarts[line0.toNat + 1]? with
  | some next => f.lineStarts.getD line0.toNat 0 + char0.toNat < next
  | none => f.lineStarts.getD line0.toNat 0 = 0 ∨ f.lineStarts.getD line0.toNat 0 + char0.toNat + 1 < word

/-- Offsets come back from their positions; and when a position is turned into an
offset of its line. -/
theorem positions_iff (f : SourceFile) (h : Loaded f) :
    (∀ file o length, o ≤ f.text.length → ∃ r, dbResolveSpan f (spanMake file o length) = some r ∧
      dbByteOffsetAt f (UInt32.ofNat (r.line - 1)) (UInt32.ofNat (r.colStart - 1)) = o) ∧
    ∀ line0 char0 : UInt32, line0.toNat < f.lineStarts.length →
      (OnLine f line0 (dbByteOffsetAt f line0 char0) ↔ CharInside f line0 char0) := by
  have hsize := h.size
  refine ⟨?_, ?_⟩
  · intro file o length ho
    obtain ⟨r, line, start, hr, hin, hstart, hline, hcol⟩ := resolveSpan_spec h file length ho
    refine ⟨r, hr, ?_⟩
    obtain ⟨start', hstart', hle, hnext⟩ := hin
    obtain rfl : start' = start := Option.some.inj (hstart'.symm.trans hstart)
    have hlt := (List.getElem?_eq_some_iff.mp hstart).1
    have hcount := h.lines_le
    have hword : UInt32.size = 2 ^ 32 := rfl
    have hlineWord : (UInt32.ofNat (r.line - 1)).toNat = line := by
      rw [UInt32.toNat_ofNat_of_lt' (by omega)]
      omega
    have hcolWord : (UInt32.ofNat (r.colStart - 1)).toNat = o - start' := by
      rw [UInt32.toNat_ofNat_of_lt' (by omega)]
      omega
    rw [byteOffsetAt_eq h (by rw [hlineWord]; exact hstart), hlineWord, hcolWord]
    have hsum : start' + (o - start') = o := by omega
    rw [hsum]
    cases hget : f.lineStarts[line + 1]? with
    | none =>
        simp only [word]
        omega
    | some next =>
        have hless := hnext next hget
        simp only [word]
        omega
  · intro line0 char0 hline
    obtain ⟨start, hstart⟩ : ∃ start, f.lineStarts[line0.toNat]? = some start :=
      ⟨_, List.getElem?_eq_getElem hline⟩
    have hgetD : f.lineStarts.getD line0.toNat 0 = start := by simp [List.getD, hstart]
    have hle := h.start_le hstart
    have hchar := char0.toNat_lt
    have heq : dbByteOffsetAt f line0 char0 = _ := byteOffsetAt_eq h hstart
    rw [onLine_iff h (by rw [heq]; omega), InLine]
    simp only [hstart, Option.some.injEq, exists_eq_left', CharInside, hgetD]
    rw [heq]
    cases hnext : f.lineStarts[line0.toNat + 1]? with
    | none =>
        simp only [word]
        simp
        omega
    | some next =>
        have hnextle := h.start_le hnext
        simp only [word, Option.some.injEq, forall_eq']
        omega

/-- The text `a`, line feed, `b`. -/
def twoLines : SourceFile := ⟨false, [97, 10, 98], [0, 2]⟩

theorem twoLines_loaded : Loaded twoLines := ⟨rfl, by decide, by decide⟩

theorem positions_second_line : OnLine twoLines 1 (dbByteOffsetAt twoLines 1 7) :=
  ((positions_iff twoLines twoLines_loaded).2 1 7 (by decide)).mpr (by simp [CharInside, twoLines, word])

/-- Past the end of the first line lies the second one, and a column near the limit
leads back to the first. -/
theorem position_leaves_line : Loaded twoLines ∧ ¬ OnLine twoLines 0 (dbByteOffsetAt twoLines 0 5) ∧
    ¬ OnLine twoLines 1 (dbByteOffsetAt twoLines 1 4294967295) := by
  refine ⟨twoLines_loaded, ?_, ?_⟩
  · rw [onLine_iff twoLines_loaded (by decide)]
    rintro ⟨start, -, -, hnext⟩
    exact absurd (hnext 2 (by decide)) (by decide)
  · rw [onLine_iff twoLines_loaded (by decide)]
    rintro ⟨start, hstart, hle, -⟩
    have heq : start = 2 := Option.some.inj (hstart.symm.trans (by decide))
    exact absurd (heq ▸ hle) (by decide)

end Ore.Positions
