import Ore.LineTables
import Ore.SortedSearch
import Mathlib.Data.List.Forall2
import Mathlib.Data.List.GetD
import Mathlib.Data.List.Pairwise
import Mathlib.Order.Bounds.Basic

namespace Ore.LayoutColumns

open SyntaxKinds LayoutStream Lexer LexerScans LexerTiling LineTables SortedSearch
open WorkspaceModel (Bytes)

/-- The column that a binary search over a whole line table gives, in 32-bit
arithmetic. -/
def searchColumn (lineStarts : List Nat) (byteStart : Nat) : Nat :=
  if lineStarts.length = 0 then 1
  else
    let line := partitionPoint (fun i => lineStarts.getD i 0 ≤ byteStart) 0 lineStarts.length - 1
    (byteStart + 2 ^ 32 - lineStarts.getD line 0 + 1) % 2 ^ 32

/-- The columns of a sequence of offsets, each asked for when some rows of the
table are filled. -/
def columns (table : List Nat) : Nat → List (Nat × Nat) → List Nat
  | _, [] => []
  | cur, (filled, byteStart) :: rest =>
      let (column, cur) := colAdvance byteStart (table.take filled) cur
      column :: columns table cur rest

/-- Offsets and filled rows do not go back, and the rows still missing are behind the
offset that is asked for. -/
structure RunsAhead (table : List Nat) (queries : List (Nat × Nat)) : Prop where
  forward : queries.Pairwise fun p q => p.1 ≤ q.1 ∧ p.2 ≤ q.2
  ahead : ∀ p ∈ queries, ∀ start ∈ table.drop p.1, p.2 < start

/-- The turn of the re-examination loop once the column of the held token is known. -/
def examineAt (indent : Nat) (held : Token) (s : State) : State ⊕ Except Overflow State :=
  let layoutCol := s.current.indent
  if s.newlineSeen ∧ indent > layoutCol ∧ !isExprContinuation s.prevKind held.kind then
    match pushFrame (emitSynthetic s .virtualLbrace) ⟨indent, .layout⟩ with
    | .ok s => .inl { s with prevKind := .virtualLbrace, newlineSeen := false }
    | .error e => .inr (.error e)
  else if s.newlineSeen ∧ indent < layoutCol ∧ ¬ (held.kind = .rbrace ∧ s.current.kind = .explicit) then
    .inl { popFrame (emitSynthetic (emitSemicolon s) .virtualRbrace) with prevKind := .virtualRbrace }
  else if held.kind = .lbrace then
    match pushFrame (emitReal s held) ⟨indentUnresolved, .explicit⟩ with
    | .ok s => .inr (.ok (advance s held))
    | .error e => .inr (.error e)
  else if held.kind = .rbrace then
    .inr (.ok (advance (popFrame (emitReal (emitSemicolon (closeLayouts s.frames s)) held)) held))
  else if s.newlineSeen ∧ indent = layoutCol ∧ !isExprContinuation s.prevKind held.kind then
    .inr (.ok (advance (emitReal (emitSemicolon s) held) held))
  else .inr (.ok (advance (emitReal s held) held))

def resolveAt (indent : Nat) (s : State) : State :=
  if s.current.kind = .explicit ∧ s.current.indent = indentUnresolved then
    { s with current := ⟨indent, s.current.kind⟩ }
  else s

/-- The driver that searches a finished table for every column. -/
def searchedLoop (table : List Nat) : List Lexed → State → Option (Except Overflow (List Token))
  | [], _ => none
  | ⟨held, _⟩ :: rest, s =>
      if tokenIsTrivia held.kind then
        let s := { s with newlineSeen := s.newlineSeen || held.kind == SyntaxKind.newline }
        if s.triviaBuf.length < triviaScratch then
          searchedLoop table rest { s with triviaBuf := s.triviaBuf ++ [held] }
        else some (.error .trivia)
      else
        let s := resolveAt (searchColumn table held.start) s
        if held.kind = .eof then some (.ok (finishEof held s))
        else if held.kind = .lexError then searchedLoop table rest (advance (emitReal s held) held)
        else match Loop.run (examineAt (searchColumn table held.start) held) (s.frames.length + 3) s with
          | none => none
          | some (.error e) => some (.error e)
          | some (.ok s) => searchedLoop table rest s

/-- A state without the cursor and the table it moves over. -/
def withoutLines (s : State) : State := { s with lineCur := 0, lineStarts := [] }

/-- The layout pass with a finished line table and no cursor. -/
def layoutSearched (table : List Nat) (raw : List Lexed) : Option (Except Overflow (List Token)) :=
  searchedLoop table raw (withoutLines (initial 0 raw))

variable {π : Type} {intern : Intern π} {source : Bytes} {pool : π} {table starts later : List Nat}
  {cur byteStart c indent : Nat} {s s' : State} {held : Token}

section Search

theorem getD_mono (hsorted : table.Pairwise (· ≤ ·)) {i j : Nat} (hij : i ≤ j) (hj : j < table.length) :
    table.getD i 0 ≤ table.getD j 0 := by
  have hi : i < table.length := Nat.lt_of_le_of_lt hij hj
  rw [List.getD_eq_getElem _ _ hi, List.getD_eq_getElem _ _ hj]
  exact hsorted.rel_get_of_le (a := ⟨i, hi⟩) (b := ⟨j, hj⟩) hij

/-- The line that an offset is on: it starts at or before the offset, and the next one
behind it. -/
structure OnLine (table : List Nat) (byteStart c : Nat) : Prop where
  lt : c < table.length
  le : table.getD c 0 ≤ byteStart
  next : ∀ i, c < i → i < table.length → byteStart < table.getD i 0

theorem OnLine.search (h : OnLine table byteStart c) (hsorted : table.Pairwise (· ≤ ·)) :
    partitionPoint (fun i => table.getD i 0 ≤ byteStart) 0 table.length = c + 1 := by
  have hmono : ∀ i j, i ≤ j → j < table.length → decide (table.getD j 0 ≤ byteStart) = true →
      decide (table.getD i 0 ≤ byteStart) = true := by
    intro i j hij hj hle
    simp only [decide_eq_true_eq] at hle ⊢
    exact Nat.le_trans (getD_mono hsorted hij hj) hle
  obtain ⟨-, hto, hbelow, habove⟩ := partitionPoint_spec hmono (Nat.zero_le table.length)
  generalize partitionPoint (fun i => decide (table.getD i 0 ≤ byteStart)) 0 table.length = p at hto hbelow habove ⊢
  have hlt := h.lt
  apply Nat.le_antisymm
  · by_contra hgt
    have hnext := hbelow (c + 1) (Nat.zero_le _) (by omega)
    have hpast := h.next (c + 1) (Nat.lt_succ_self c) (by omega)
    simp only [decide_eq_true_eq] at hnext
    omega
  · by_contra hgt
    have hhere := habove c (by omega) hlt
    simp only [decide_eq_false_iff_not] at hhere
    exact hhere h.le

theorem OnLine.searchColumn (h : OnLine table byteStart c) (hsorted : table.Pairwise (· ≤ ·)) :
    searchColumn table byteStart = (byteStart + 2 ^ 32 - table.getD c 0 + 1) % 2 ^ 32 := by
  have hne : table.length ≠ 0 := Nat.ne_of_gt (Nat.lt_of_le_of_lt (Nat.zero_le c) h.lt)
  simp only [LayoutColumns.searchColumn, if_neg hne]
  rw [h.search hsorted, Nat.add_sub_cancel]

theorem OnLine.greatest (h : OnLine table byteStart c) (hsorted : table.Pairwise (· ≤ ·)) :
    IsGreatest {start | start ∈ table ∧ start ≤ byteStart} (table.getD c 0) := by
  constructor
  · constructor
    · rw [List.getD_eq_getElem _ _ h.lt]
      exact List.getElem_mem h.lt
    · exact h.le
  · rintro start ⟨hmem, hle⟩
    obtain ⟨i, hi, rfl⟩ := List.getElem_of_mem hmem
    rw [← List.getD_eq_getElem (d := 0) _ hi] at hle ⊢
    by_cases hic : i ≤ c
    · exact getD_mono hsorted hic h.lt
    · have hpast := h.next i (by omega) hi
      omega

theorem OnLine.column (h : OnLine table byteStart c) (hsorted : table.Pairwise (· ≤ ·)) {start : Nat}
    (hstart : IsGreatest {q | q ∈ table ∧ q ≤ byteStart} start) :
    LayoutColumns.searchColumn table byteStart = (1 + (byteStart - start)) % 2 ^ 32 := by
  obtain rfl := hstart.unique (h.greatest hsorted)
  have hle := h.le
  rw [h.searchColumn hsorted]
  generalize table.getD c 0 = start at hle
  have hwhole : byteStart + 2 ^ 32 - start + 1 = 1 + (byteStart - start) + 2 ^ 32 := by omega
  rw [hwhole, Nat.add_mod_right]

/-- Rows that are missing from a table and start behind the offset do not matter. -/
theorem OnLine.append (h : OnLine starts byteStart c) (hlater : ∀ start ∈ later, byteStart < start) :
    OnLine (starts ++ later) byteStart c where
  lt := Nat.lt_of_lt_of_le h.lt (by simp)
  le := by
    rw [List.getD_append _ _ _ _ h.lt]
    exact h.le
  next i hi hlt := by
    by_cases hin : i < starts.length
    · rw [List.getD_append _ _ _ _ hin]
      exact h.next i hi hin
    · rw [List.getD_eq_getElem _ _ hlt]
      apply hlater
      rw [List.getElem_append_right (Nat.le_of_not_lt hin)]
      exact List.getElem_mem _

end Search

section Cursor

theorem length_takeWhile (p : Nat → Bool) (l : List Nat) :
    (l.takeWhile p).length = l.findIdx (fun a => !p a) := by
  rw [List.takeWhile_eq_take_findIdx_not, List.length_take]
  exact Nat.min_eq_left List.findIdx_le_length

theorem colAdvance_onLine (hlt : cur < starts.length) (hle : starts.getD cur 0 ≤ byteStart)
    (hsorted : starts.Pairwise (· ≤ ·)) : OnLine starts byteStart (colAdvance byteStart starts cur).2 := by
  have hne : starts.length ≠ 0 := Nat.ne_of_gt (Nat.lt_of_le_of_lt (Nat.zero_le cur) hlt)
  simp only [colAdvance, if_neg hne, length_takeWhile]
  generalize hsteps : (starts.drop (cur + 1)).findIdx (fun a => !decide (a ≤ byteStart)) = steps
  have hrest : steps ≤ (starts.drop (cur + 1)).length := hsteps ▸ List.findIdx_le_length
  rw [List.length_drop] at hrest
  have hend : cur + steps < starts.length := by omega
  constructor
  · exact hend
  · cases hw : steps with
    | zero => exact hle
    | succ n =>
        have hbefore : n < (starts.drop (cur + 1)).findIdx fun a => !decide (a ≤ byteStart) := by omega
        have hpassed := List.not_of_lt_findIdx hbefore
        simp only [List.getElem_drop, Bool.not_eq_false', decide_eq_true_eq] at hpassed
        have hindex : cur + 1 + n = cur + (n + 1) := by omega
        simp only [hindex] at hpassed
        rw [List.getD_eq_getElem _ _ (hw ▸ hend)]
        exact hpassed
  · intro i hi hlt'
    have hmore : steps < (starts.drop (cur + 1)).length := by
      rw [List.length_drop]
      omega
    have hstop := List.findIdx_getElem (w := hsteps.symm ▸ hmore)
    simp only [hsteps, List.getElem_drop, Bool.not_eq_true', decide_eq_false_iff_not, Nat.not_le] at hstop
    rw [← List.getD_eq_getElem (d := 0)] at hstop
    exact Nat.lt_of_lt_of_le hstop (getD_mono hsorted (by omega) hlt')

theorem colAdvance_column (hlt : cur < starts.length) : (colAdvance byteStart starts cur).1 =
    (byteStart + 2 ^ 32 - starts.getD (colAdvance byteStart starts cur).2 0 + 1) % 2 ^ 32 := by
  have hne : starts.length ≠ 0 := Nat.ne_of_gt (Nat.lt_of_le_of_lt (Nat.zero_le cur) hlt)
  simp only [colAdvance, if_neg hne]

/-- With the lexer ahead of the offset, the column is the one that a search of the
finished table gives. -/
theorem colAdvance_search (hlt : cur < starts.length) (hle : starts.getD cur 0 ≤ byteStart)
    (hsorted : (starts ++ later).Pairwise (· ≤ ·)) (hlater : ∀ start ∈ later, byteStart < start) :
    (colAdvance byteStart starts cur).1 = searchColumn (starts ++ later) byteStart := by
  have hline := colAdvance_onLine hlt hle (List.pairwise_append.mp hsorted).1
  rw [(hline.append hlater).searchColumn hsorted, List.getD_append _ _ _ _ hline.lt]
  exact colAdvance_column hlt

/-- Before the first line the cursor stays where it is. -/
theorem colAdvance_before (hall : ∀ start ∈ starts, byteStart < start) (cur : Nat) :
    (colAdvance byteStart starts cur).2 = cur := by
  unfold colAdvance
  split
  · rfl
  · have hnone : (starts.drop (cur + 1)).takeWhile (· ≤ byteStart) = [] := by
      cases hdrop : starts.drop (cur + 1) with
      | nil => rfl
      | cons start rest =>
          have hmem : start ∈ starts.drop (cur + 1) := by simp [hdrop]
          have hbehind := hall start (List.mem_of_mem_drop hmem)
          rw [List.takeWhile_cons_of_neg]
          simpa using hbehind
    simp only [hnone, List.length_nil, Nat.add_zero]

/-- The cursor is at the start of the table or on a line that it has reached. -/
def Reached (table : List Nat) (filled byteStart cur : Nat) : Prop :=
  cur = 0 ∨ cur < (table.take filled).length ∧ table.getD cur 0 ≤ byteStart

theorem Reached.mono {filled filled' byteStart' : Nat} (h : Reached table filled byteStart cur)
    (hfilled : filled ≤ filled') (hle : byteStart ≤ byteStart') : Reached table filled' byteStart' cur := by
  rcases h with hzero | ⟨hlt, hstart⟩
  · exact .inl hzero
  · refine .inr ⟨?_, Nat.le_trans hstart hle⟩
    rw [List.length_take] at hlt ⊢
    omega

theorem columns_cons (table : List Nat) (cur filled byteStart : Nat) (rest : List (Nat × Nat)) :
    columns table cur ((filled, byteStart) :: rest) = (colAdvance byteStart (table.take filled) cur).1 ::
      columns table (colAdvance byteStart (table.take filled) cur).2 rest := rfl

theorem columns_spec (cur : Nat) {queries : List (Nat × Nat)} (hsorted : table.Pairwise (· ≤ ·))
    (h : RunsAhead table queries)
    (hcur : ∀ p ∈ queries, Reached table p.1 p.2 cur) :
    List.Forall₂ (fun p column => (∃ start ∈ table, start ≤ p.2) → column = searchColumn table p.2) queries
      (columns table cur queries) := by
  induction queries generalizing cur with
  | nil => exact .nil
  | cons p queries ih =>
      obtain ⟨filled, byteStart⟩ := p
      obtain ⟨hfirst, hrest⟩ := List.pairwise_cons.mp h.forward
      have hahead := h.ahead _ (List.mem_cons_self ..)
      have hreached := hcur _ (List.mem_cons_self ..)
      have hsplit := List.take_append_drop filled table
      have htake : (table.take filled).Pairwise (· ≤ ·) := hsorted.sublist (List.take_sublist _ _)
      have hmore : RunsAhead table queries := ⟨hrest, fun p hmem => h.ahead p (List.mem_cons_of_mem _ hmem)⟩
      rw [columns_cons]
      by_cases hline : cur < (table.take filled).length ∧ (table.take filled).getD cur 0 ≤ byteStart
      · obtain ⟨hlt, hle⟩ := hline
        have hmoved := colAdvance_onLine hlt hle htake
        refine .cons (fun _ => ?_) (ih _ hmore fun p hmem => ?_)
        · have hsearch := colAdvance_search hlt hle (hsplit.symm ▸ hsorted) hahead
          rwa [hsplit] at hsearch
        · have hon : Reached table filled byteStart (colAdvance byteStart (table.take filled) cur).2 := by
            refine .inr ⟨hmoved.lt, ?_⟩
            have hstart := hmoved.le
            rwa [← List.getD_append _ (table.drop filled) _ _ hmoved.lt, hsplit] at hstart
          exact hon.mono (hfirst p hmem).1 (hfirst p hmem).2
      · have hbehind : ∀ start ∈ table.take filled, byteStart < start := by
          rcases hreached with rfl | ⟨hlt, hle⟩
          · intro start hmem
            obtain ⟨i, hi, rfl⟩ := List.getElem_of_mem hmem
            have hzero : 0 < (table.take filled).length := Nat.lt_of_le_of_lt (Nat.zero_le i) hi
            have hsmall := getD_mono htake (Nat.zero_le i) hi
            rw [List.getD_eq_getElem _ _ hi] at hsmall
            rw [not_and, Nat.not_le] at hline
            exact Nat.lt_of_lt_of_le (hline hzero) hsmall
          · rw [← hsplit, List.getD_append _ _ _ _ hlt] at hle
            exact absurd ⟨hlt, hle⟩ hline
        refine .cons ?_ (ih _ hmore fun p hmem => ?_)
        · rintro ⟨start, hmem, hle⟩
          rw [← hsplit, List.mem_append] at hmem
          have hpast := hmem.elim (hbehind start) (hahead start)
          exact absurd hle (Nat.not_le.mpr hpast)
        · rw [colAdvance_before hbehind]
          exact hreached.mono (hfirst p hmem).1 (hfirst p hmem).2

end Cursor

section Pass

theorem examine_eq (held : Token) (s : State) : examine held s =
    examineAt (colAdvance held.start s.lineStarts s.lineCur).1 held
      { s with lineCur := (colAdvance held.start s.lineStarts s.lineCur).2 } := rfl

/-- The lexer ran ahead of the offset: the rows still missing are behind it, and the
cursor is on a line that starts at or before it. -/
structure Ahead (table : List Nat) (byteStart : Nat) (s : State) : Prop where
  filled : ∃ later, table = s.lineStarts ++ later ∧ ∀ start ∈ later, byteStart < start
  lt : s.lineCur < s.lineStarts.length
  le : s.lineStarts.getD s.lineCur 0 ≤ byteStart

theorem Ahead.column (h : Ahead table byteStart s) (hsorted : table.Pairwise (· ≤ ·)) :
    (colAdvance byteStart s.lineStarts s.lineCur).1 = searchColumn table byteStart := by
  obtain ⟨later, rfl, hlater⟩ := h.filled
  exact colAdvance_search h.lt h.le hsorted hlater

theorem Ahead.moved (h : Ahead table byteStart s) (hsorted : table.Pairwise (· ≤ ·)) :
    Ahead table byteStart { s with lineCur := (colAdvance byteStart s.lineStarts s.lineCur).2 } := by
  have hstarts : s.lineStarts.Pairwise (· ≤ ·) := by
    obtain ⟨later, rfl, -⟩ := h.filled
    exact (List.pairwise_append.mp hsorted).1
  have hline := colAdvance_onLine h.lt h.le hstarts
  exact ⟨h.filled, hline.lt, hline.le⟩

theorem Ahead.congr (h : Ahead table byteStart s) (hcur : s'.lineCur = s.lineCur)
    (hlines : s'.lineStarts = s.lineStarts) : Ahead table byteStart s' := by
  refine ⟨?_, ?_, ?_⟩
  · rw [hlines]
    exact h.filled
  · rw [hlines, hcur]
    exact h.lt
  · rw [hlines, hcur]
    exact h.le

/-- The cursor and its table as they were. -/
def SameLines (s s' : State) : Prop := s'.lineCur = s.lineCur ∧ s'.lineStarts = s.lineStarts

theorem closeLayouts_lines (frames : List LayoutFrame) (s : State) : SameLines s (closeLayouts frames s) ∧
    withoutLines (closeLayouts frames s) = closeLayouts frames (withoutLines s) := by
  induction frames generalizing s with
  | nil => exact ⟨⟨rfl, rfl⟩, rfl⟩
  | cons frame frames ih =>
      by_cases hkind : s.current.kind = .layout
      · have hkind' : (withoutLines s).current.kind = .layout := hkind
        rw [closeLayouts, closeLayouts, if_pos hkind, if_pos hkind']
        exact ih { emitSynthetic s .virtualRbrace with current := frame, frames := frames }
      · have hkind' : ¬ (withoutLines s).current.kind = .layout := hkind
        rw [closeLayouts, closeLayouts, if_neg hkind, if_neg hkind']
        exact ⟨⟨rfl, rfl⟩, rfl⟩

theorem emitSemicolon_lines (s : State) : SameLines s (emitSemicolon s) ∧
    withoutLines (emitSemicolon s) = emitSemicolon (withoutLines s) := by
  by_cases hsemi : shouldEmitSemicolon s.prevKind
  · have hsemi' : shouldEmitSemicolon (withoutLines s).prevKind := hsemi
    rw [emitSemicolon, emitSemicolon, if_pos hsemi, if_pos hsemi']
    exact ⟨⟨rfl, rfl⟩, rfl⟩
  · have hsemi' : ¬ shouldEmitSemicolon (withoutLines s).prevKind := hsemi
    rw [emitSemicolon, emitSemicolon, if_neg hsemi, if_neg hsemi']
    exact ⟨⟨rfl, rfl⟩, rfl⟩

theorem popFrame_nil (h : s.frames = []) : popFrame s = s := by
  simp only [popFrame, h]

theorem popFrame_cons {frame : LayoutFrame} {frames : List LayoutFrame} (h : s.frames = frame :: frames) :
    popFrame s = { s with current := frame, frames := frames } := by
  simp only [popFrame, h]

theorem popFrame_lines (s : State) : SameLines s (popFrame s) ∧
    withoutLines (popFrame s) = popFrame (withoutLines s) := by
  cases hframes : s.frames with
  | nil =>
      have hframes' : (withoutLines s).frames = [] := hframes
      rw [popFrame_nil hframes, popFrame_nil hframes']
      exact ⟨⟨rfl, rfl⟩, rfl⟩
  | cons frame frames =>
      have hframes' : (withoutLines s).frames = frame :: frames := hframes
      rw [popFrame_cons hframes, popFrame_cons hframes']
      exact ⟨⟨rfl, rfl⟩, rfl⟩

theorem closeAll_lines (frames : List LayoutFrame) (s : State) :
    withoutLines (closeAll frames s) = closeAll frames (withoutLines s) := by
  induction frames generalizing s with
  | nil => rfl
  | cons frame frames ih =>
      exact ih { emitSynthetic (emitSynthetic s .virtualRbrace) .virtualSemi with current := frame, frames := frames }

theorem finishEof_lines (held : Token) (s : State) : finishEof held (withoutLines s) = finishEof held s := by
  rw [finishEof, finishEof, ← (emitSemicolon_lines s).2]
  have hclosed := closeAll_lines (emitSemicolon s).frames (emitSemicolon s)
  exact (congrArg (fun t => (emitReal t held).outTokens) hclosed).symm

/-- Leaving a loop turn with a state or an overflow, without the cursor. -/
def leftWithoutLines : Except Overflow State → Except Overflow State := Except.map withoutLines

theorem pushFrame_lines (s : State) (frame : LayoutFrame) :
    pushFrame (withoutLines s) frame = leftWithoutLines (pushFrame s frame) ∧
      ∀ t, pushFrame s frame = .ok t → SameLines s t := by
  by_cases hroom : s.frames.length < maxFrames
  · have hroom' : (withoutLines s).frames.length < maxFrames := hroom
    rw [pushFrame, pushFrame, if_pos hroom, if_pos hroom']
    refine ⟨rfl, fun t ht => ?_⟩
    cases ht
    exact ⟨rfl, rfl⟩
  · have hroom' : ¬ (withoutLines s).frames.length < maxFrames := hroom
    rw [pushFrame, pushFrame, if_neg hroom, if_neg hroom']
    exact ⟨rfl, fun t ht => by cases ht⟩

/-- What a turn from a state gives, and what it gives without the cursor. -/
structure Alike (s : State) (r r' : State ⊕ Except Overflow State) : Prop where
  view : r' = r.map withoutLines leftWithoutLines
  again : ∀ t, r = .inl t → SameLines s t
  left : ∀ t, r = .inr (.ok t) → SameLines s t

theorem alike_again {t t' : State} (h : SameLines s t) (ht : withoutLines t = t') : Alike s (.inl t) (.inl t') where
  view := ht ▸ rfl
  again _ ht' := Sum.inl.inj ht' ▸ h
  left _ ht' := absurd ht' Sum.inl_ne_inr

theorem alike_left {t t' : State} (h : SameLines s t) (ht : withoutLines t = t') :
    Alike s (.inr (.ok t)) (.inr (.ok t')) where
  view := ht ▸ rfl
  again _ ht' := absurd ht' Sum.inr_ne_inl
  left _ ht' := Except.ok.inj (Sum.inr.inj ht') ▸ h

theorem alike_error (s : State) (e : Overflow) : Alike s (.inr (.error e)) (.inr (.error e)) where
  view := rfl
  again _ ht := absurd ht Sum.inr_ne_inl
  left _ ht := by cases Sum.inr.inj ht

@[simp] theorem synthetic_lines (s : State) (kind : SyntaxKind) :
    withoutLines (emitSynthetic s kind) = emitSynthetic (withoutLines s) kind := by
  simp only [withoutLines, emitSynthetic]

@[simp] theorem real_lines (s : State) (held : Token) :
    withoutLines (emitReal s held) = emitReal (withoutLines s) held := by
  simp only [withoutLines, emitReal]

@[simp] theorem advance_lines (s : State) (held : Token) :
    withoutLines (advance s held) = advance (withoutLines s) held := by
  simp only [withoutLines, advance]

/-- A turn with a known column neither reads nor moves the cursor. -/
theorem examineAt_lines (indent : Nat) (held : Token) (s : State) :
    Alike s (examineAt indent held s) (examineAt indent held (withoutLines s)) := by
  have hseen : (withoutLines s).newlineSeen = s.newlineSeen := rfl
  have hcurrent : (withoutLines s).current = s.current := rfl
  have hprev : (withoutLines s).prevKind = s.prevKind := rfl
  have hframes : (withoutLines s).frames = s.frames := rfl
  simp only [examineAt, hseen, hcurrent, hprev, hframes]
  by_cases hopen : s.newlineSeen ∧ indent > s.current.indent ∧ !isExprContinuation s.prevKind held.kind
  · obtain ⟨hpush, hpushed⟩ := pushFrame_lines (emitSynthetic s .virtualLbrace) ⟨indent, .layout⟩
    rw [if_pos hopen, if_pos hopen, ← synthetic_lines, hpush]
    cases hframe : pushFrame (emitSynthetic s .virtualLbrace) ⟨indent, .layout⟩ with
    | error e => exact alike_error s e
    | ok t => exact alike_again (hpushed t hframe) rfl
  rw [if_neg hopen, if_neg hopen]
  obtain ⟨hsemi, hsemi'⟩ := emitSemicolon_lines s
  by_cases hclose : s.newlineSeen ∧ indent < s.current.indent ∧
      ¬(held.kind = .rbrace ∧ s.current.kind = .explicit)
  · rw [if_pos hclose, if_pos hclose, ← hsemi', ← synthetic_lines]
    obtain ⟨hpop, hpop'⟩ := popFrame_lines (emitSynthetic (emitSemicolon s) .virtualRbrace)
    rw [← hpop']
    exact alike_again ⟨hpop.1.trans hsemi.1, hpop.2.trans hsemi.2⟩ rfl
  rw [if_neg hclose, if_neg hclose]
  by_cases hleft : held.kind = .lbrace
  · obtain ⟨hpush, hpushed⟩ := pushFrame_lines (emitReal s held) ⟨indentUnresolved, .explicit⟩
    rw [if_pos hleft, if_pos hleft, ← real_lines, hpush]
    cases hframe : pushFrame (emitReal s held) ⟨indentUnresolved, .explicit⟩ with
    | error e => exact alike_error s e
    | ok t => exact alike_left (hpushed t hframe) (advance_lines t held)
  rw [if_neg hleft, if_neg hleft]
  by_cases hright : held.kind = .rbrace
  · obtain ⟨hlayouts, hlayouts'⟩ := closeLayouts_lines s.frames s
    obtain ⟨hclosed, hclosed'⟩ := emitSemicolon_lines (closeLayouts s.frames s)
    obtain ⟨hpop, hpop'⟩ := popFrame_lines (emitReal (emitSemicolon (closeLayouts s.frames s)) held)
    rw [if_pos hright, if_pos hright, ← hlayouts', ← hclosed', ← real_lines, ← hpop']
    exact alike_left ⟨(hpop.1.trans hclosed.1).trans hlayouts.1, (hpop.2.trans hclosed.2).trans hlayouts.2⟩
      (advance_lines _ held)
  rw [if_neg hright, if_neg hright]
  by_cases hequal : s.newlineSeen ∧ indent = s.current.indent ∧ !isExprContinuation s.prevKind held.kind
  · rw [if_pos hequal, if_pos hequal, ← hsemi', ← real_lines]
    exact alike_left hsemi (advance_lines _ held)
  · rw [if_neg hequal, if_neg hequal, ← real_lines]
    exact alike_left ⟨rfl, rfl⟩ (advance_lines _ held)

/-- The re-examination of a token is the same with the column that a search gives. -/
theorem examineLoop_searched (h : Ahead table held.start s) (hsorted : table.Pairwise (· ≤ ·)) :
    Loop.run (examineAt (searchColumn table held.start) held) (s.frames.length + 3) (withoutLines s) =
      (examineLoop held s).map leftWithoutLines := by
  refine Loop.run_view (Ahead table held.start) withoutLines leftWithoutLines ?_ ?_ _ s h
  · intro t ht
    rw [examine_eq, ht.column hsorted]
    exact (examineAt_lines _ held { t with lineCur := (colAdvance held.start t.lineStarts t.lineCur).2 }).view
  · intro t t' ht hturn
    rw [examine_eq] at hturn
    obtain ⟨hcur, hlines⟩ := (examineAt_lines _ held _).again t' hturn
    exact (ht.moved hsorted).congr hcur hlines

theorem examineLoop_ahead (h : Ahead table held.start s) (hsorted : table.Pairwise (· ≤ ·))
    (hloop : examineLoop held s = some (.ok s')) : Ahead table held.start s' := by
  refine Loop.run_ended (Ahead table held.start) (fun r => ∀ t, r = .ok t → Ahead table held.start t) ?_ ?_ h hloop
    s' rfl
  · intro t t' ht hturn
    rw [examine_eq] at hturn
    obtain ⟨hcur, hlines⟩ := (examineAt_lines _ held _).again t' hturn
    exact (ht.moved hsorted).congr hcur hlines
  · rintro t r ht hturn t' rfl
    rw [examine_eq] at hturn
    obtain ⟨hcur, hlines⟩ := (examineAt_lines _ held _).left t' hturn
    exact (ht.moved hsorted).congr hcur hlines

theorem examineLoop_lines (hloop : examineLoop held s = some (.ok s')) : s'.lineStarts = s.lineStarts := by
  refine Loop.run_ended (fun t => t.lineStarts = s.lineStarts)
    (fun r => ∀ t, r = .ok t → t.lineStarts = s.lineStarts) ?_ ?_ rfl hloop s' rfl
  · intro t t' ht hturn
    rw [examine_eq] at hturn
    exact ((examineAt_lines _ held _).again t' hturn).2.trans ht
  · rintro t r ht hturn t' rfl
    rw [examine_eq] at hturn
    exact ((examineAt_lines _ held _).left t' hturn).2.trans ht

theorem resolveIndent_searched (held : Token) (h : Ahead table held.start s) (hsorted : table.Pairwise (· ≤ ·)) :
    withoutLines (resolveIndent held s) = resolveAt (searchColumn table held.start) (withoutLines s) ∧
      Ahead table held.start (resolveIndent held s) := by
  by_cases hopen : s.current.kind = .explicit ∧ s.current.indent = indentUnresolved
  · have hopen' : (withoutLines s).current.kind = .explicit ∧
      (withoutLines s).current.indent = indentUnresolved := hopen
    rw [resolveIndent, if_pos hopen, resolveAt, if_pos hopen', ← h.column hsorted]
    exact ⟨rfl, (h.moved hsorted).congr rfl rfl⟩
  · have hopen' : ¬ ((withoutLines s).current.kind = .explicit ∧
      (withoutLines s).current.indent = indentUnresolved) := hopen
    rw [resolveIndent, if_neg hopen, resolveAt, if_neg hopen']
    exact ⟨rfl, h⟩

theorem resolveIndent_lines (held : Token) (s : State) : (resolveIndent held s).lineStarts = s.lineStarts := by
  unfold resolveIndent
  split <;> rfl

theorem recorded_sorted (source : Bytes) (tok : Token) : (recorded source tok).Pairwise (· ≤ ·) := by
  unfold recorded
  split
  · exact .nil
  · exact (breaksIn_sorted _ _ _).imp Nat.le_of_lt

theorem recorded_le {tok : Token} {q : Nat} (h : q ∈ recorded source tok) : tok.start < q ∧ q ≤ tok.byteEnd :=
  (mem_breaksIn.mp (mem_recorded h)).1

theorem pulls_sorted {a : Nat} {pulls : List Lexed} (h : Pulls source a pulls) :
    (a :: pulls.flatMap (·.lines)).Pairwise (· ≤ ·) := by
  induction h with
  | eof => simp
  | @cons tok rest hlt hbound hreal hrest ih =>
      obtain ⟨-, hlater⟩ := List.pairwise_cons.mp ih
      rw [List.flatMap_cons, List.pairwise_cons, List.pairwise_append]
      refine ⟨fun q hq => ?_, recorded_sorted source tok, hlater, fun p hp q hq => ?_⟩
      · rcases List.mem_append.mp hq with hq | hq
        · exact Nat.le_of_lt (recorded_le hq).1
        · exact Nat.le_of_lt (Nat.lt_trans hlt (lt_of_recorded hrest hq))
      · exact Nat.le_trans (recorded_le hp).2 (Nat.le_of_lt (lt_of_recorded hrest hq))

/-- The pass with the cursor and the pass that searches the finished table give the
same tokens, from any offset on. -/
theorem layoutLoop_searched (hsorted : table.Pairwise (· ≤ ·)) {a : Nat} {pulls : List Lexed}
    (h : Pulls source a pulls) (s : State) (htable : table = s.lineStarts ++ pulls.flatMap (·.lines))
    (hlt : s.lineCur < s.lineStarts.length) (hle : s.lineStarts.getD s.lineCur 0 ≤ a) :
    layoutLoop pulls s = searchedLoop table pulls (withoutLines s) := by
  induction h generalizing s with
  | eof =>
      have hahead : Ahead table source.length { s with lineStarts := s.lineStarts ++ [] } := by
        rw [List.append_nil]
        exact ⟨⟨[], htable, fun start hmem => absurd hmem List.not_mem_nil⟩, hlt, hle⟩
      obtain ⟨hresolve, -⟩ := resolveIndent_searched (endToken source) hahead hsorted
      rw [layoutLoop, searchedLoop]
      have htrivia : ¬ tokenIsTrivia (endToken source).kind = true := Bool.false_ne_true
      simp only [if_neg htrivia]
      have hkind : (endToken source).kind = .eof := rfl
      rw [if_pos hkind, if_pos hkind]
      have hsame : withoutLines { s with lineStarts := s.lineStarts ++ [] } = withoutLines s := rfl
      rw [← hsame, ← hresolve, finishEof_lines]
  | @cons tok rest hbyte hbound hreal hrest ih =>
      have hlater : ∀ start ∈ rest.flatMap (·.lines), tok.start < start := fun start hmem =>
        Nat.lt_trans hbyte (lt_of_recorded hrest hmem)
      have hwide : s.lineCur < (s.lineStarts ++ recorded source tok).length := by
        rw [List.length_append]
        omega
      have hstart : (s.lineStarts ++ recorded source tok).getD s.lineCur 0 ≤ tok.start := by
        rw [List.getD_append _ _ _ _ hlt]
        exact hle
      rw [List.flatMap_cons, ← List.append_assoc] at htable
      have hahead : Ahead table tok.start { s with lineStarts := s.lineStarts ++ recorded source tok } :=
        ⟨⟨_, htable, hlater⟩, hwide, hstart⟩
      have hnext (t : State) (ht : Ahead table tok.start t)
          (hlines : t.lineStarts = s.lineStarts ++ recorded source tok) :
          layoutLoop rest t = searchedLoop table rest (withoutLines t) :=
        ih t (hlines.symm ▸ htable) ht.lt (Nat.le_trans ht.le (Nat.le_of_lt hbyte))
      rw [layoutLoop, searchedLoop]
      by_cases htrivia : tokenIsTrivia tok.kind = true
      · simp only [if_pos htrivia]
        have hscratch : (withoutLines s).triviaBuf = s.triviaBuf := rfl
        rw [hscratch]
        by_cases hroom : s.triviaBuf.length < triviaScratch
        · rw [if_pos hroom, if_pos hroom]
          exact hnext _ (hahead.congr rfl rfl) rfl
        · rw [if_neg hroom, if_neg hroom]
      simp only [if_neg htrivia]
      obtain ⟨hresolve, hresolved⟩ := resolveIndent_searched _ hahead hsorted
      have hlines : (resolveIndent tok { s with lineStarts := s.lineStarts ++ recorded source tok }).lineStarts =
          s.lineStarts ++ recorded source tok := resolveIndent_lines tok _
      generalize resolveIndent tok { s with lineStarts := s.lineStarts ++ recorded source tok } = t
        at hresolve hresolved hlines ⊢
      have hsame : withoutLines { s with lineStarts := s.lineStarts ++ recorded source tok } = withoutLines s := rfl
      rw [hsame] at hresolve
      rw [if_neg (isReal_ne_eof hreal), if_neg (isReal_ne_eof hreal), ← hresolve]
      by_cases herror : tok.kind = .lexError
      · rw [if_pos herror, if_pos herror, ← real_lines, ← advance_lines]
        exact hnext _ (hresolved.congr rfl rfl) hlines
      rw [if_neg herror, if_neg herror]
      have hframes : (withoutLines t).frames = t.frames := rfl
      rw [hframes, examineLoop_searched hresolved hsorted]
      cases hloop : examineLoop tok t with
      | none => rfl
      | some r =>
          cases r with
          | error e => rfl
          | ok t' => exact hnext t' (examineLoop_ahead hresolved hsorted hloop) (examineLoop_lines hloop ▸ hlines)

end Pass

/-- The search counts from the greatest line start that is not above the offset. -/
theorem searchColumn_greatest (hsorted : table.Pairwise (· ≤ ·)) {start : Nat}
    (hstart : IsGreatest {q | q ∈ table ∧ q ≤ byteStart} start) :
    searchColumn table byteStart = (1 + (byteStart - start)) % 2 ^ 32 := by
  obtain ⟨hmem, hle⟩ := hstart.1
  obtain ⟨i, hi, rfl⟩ := List.getElem_of_mem hmem
  have hzero : 0 < table.length := Nat.lt_of_le_of_lt (Nat.zero_le i) hi
  have hfirst := getD_mono hsorted (Nat.zero_le i) hi
  rw [List.getD_eq_getElem _ _ hi] at hfirst
  exact (colAdvance_onLine hzero (Nat.le_trans hfirst hle) hsorted).column hsorted hstart

/-- The cursor gives the columns that a binary search over the finished table gives: for
every sequence of offsets that the filling of the table runs ahead of, and in the layout
pass over every source. -/
theorem column_cursor :
    (∀ (table : List Nat) (queries : List (Nat × Nat)), table.Pairwise (· ≤ ·) → RunsAhead table queries →
      List.Forall₂ (fun query column => ∀ start, IsGreatest {q | q ∈ table ∧ q ≤ query.2} start →
        column = searchColumn table query.2 ∧ column = (1 + (query.2 - start)) % 2 ^ 32) queries
        (columns table 0 queries)) ∧
    ∀ (π : Type) (intern : Intern π) (source : Bytes) (pool : π),
      ∃ pulls l, lexPulls intern source pool = some (pulls, l) ∧ l.lineStarts.Pairwise (· ≤ ·) ∧
        layoutStream (bomLength source) pulls = layoutSearched l.lineStarts pulls := by
  constructor
  · intro table queries hsorted hahead
    have hcolumns := columns_spec 0 hsorted hahead fun _ _ => .inl rfl
    refine hcolumns.imp fun query column hcolumn start hstart => ?_
    have hsearch := hcolumn ⟨start, hstart.1⟩
    exact ⟨hsearch, hsearch.trans (searchColumn_greatest hsorted hstart)⟩
  · intro π intern source pool
    obtain ⟨pulls, l, hlex, hpulls, hlines⟩ := lexPulls_spec intern source pool
    have hsorted : l.lineStarts.Pairwise (· ≤ ·) := hlines ▸ pulls_sorted hpulls
    refine ⟨pulls, l, hlex, hsorted, ?_⟩
    exact layoutLoop_searched hsorted hpulls (initial (bomLength source) pulls) hlines (by simp [initial])
      (by simp [initial])

/-- The columns over an empty line and a line of which the table lacks nothing more. -/
theorem column_cursor_emptyLine :
    List.Forall₂ (fun query column => ∀ start, IsGreatest {q | q ∈ [0, 2, 3] ∧ q ≤ query.2} start →
      column = searchColumn [0, 2, 3] query.2 ∧ column = (1 + (query.2 - start)) % 2 ^ 32)
      [(1, 0), (2, 2), (3, 3), (3, 5)] [1, 1, 1, 3] :=
  column_cursor.1 [0, 2, 3] [(1, 0), (2, 2), (3, 3), (3, 5)] (by decide) ⟨by decide, by decide⟩

end Ore.LayoutColumns
