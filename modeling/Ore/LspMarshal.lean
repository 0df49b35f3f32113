import Mathlib.Data.List.DropRight
import Ore.DecimalText
import Ore.FrameStream
import Ore.Loop
import Ore.UriPaths

namespace Ore.LspMarshal

open DecimalText FrameStream
open Lexer (ch lineFeed carriageReturn)
open UriPaths (cString)
open WorkspaceModel (Bytes)

def headerLineMax : Nat := 256

inductive HeaderLine
  | eof
  | tooLong
  | cut (line : Bytes)
  | line (line rest : Bytes)

/-- `buf` is what was read of the line. -/
def readHeaderLine (buf : Bytes) : Bytes → HeaderLine
  | [] => if buf = [] then .eof else .cut buf
  | c :: rest =>
      if headerLineMax - 1 ≤ buf.length then .tooLong
      else if c = lineFeed then .line (buf ++ [c]) rest
      else readHeaderLine (buf ++ [c]) rest

def isEol (c : UInt8) : Bool := c = carriageReturn || c = lineFeed

def rstripEol (s : Bytes) : Bytes := s.rdropWhile isEol

def lower (c : UInt8) : UInt8 := if ch 'A' ≤ c && c ≤ ch 'Z' then c + 32 else c

def strcasecmp (a b : Bytes) : Bool := a.map lower = b.map lower

/-- `Content-Length` -/
def contentLengthName : Bytes := [67, 111, 110, 116, 101, 110, 116, 45, 76, 101, 110, 103, 116, 104]

def isBlank (c : UInt8) : Bool := c = 32 || c = 9

def headerField (line : Bytes) : Option (Bytes × Bytes) :=
  match (cString line).dropWhile (· ≠ ch ':') with
  | [] => none
  | _ :: value => some ((cString line).takeWhile (· ≠ ch ':'), value.dropWhile isBlank)

def lengthValue (value : Bytes) : Option Nat :=
  (strtoul value).bind fun (v, stop) => if stop.dropWhile isBlank = [] then some v else none

structure Header where
  input : Bytes
  contentLength : Option Nat
  gotAnyHeader : Bool

inductive HeaderEnd
  | eof
  | fail
  | blank (contentLength : Option Nat) (rest : Bytes)

def headerTurn (s : Header) : Header ⊕ HeaderEnd :=
  match readHeaderLine [] s.input with
  | .eof => .inr (if s.gotAnyHeader then .fail else .eof)
  | .tooLong => .inr .fail
  -- A line cut by the end of the input: after it, read as anything but blank, the next
  -- line meets that end.
  | .cut line => .inr (if rstripEol line = [] then .blank s.contentLength [] else .fail)
  | .line line rest =>
      if rstripEol line = [] then .inr (.blank s.contentLength rest)
      else
        match headerField (rstripEol line) with
        | none => .inr .fail
        | some (name, value) =>
            if strcasecmp name contentLengthName then
              match lengthValue value with
              | none => .inr .fail
              | some v => .inl ⟨rest, some v, true⟩
            else .inl ⟨rest, s.contentLength, true⟩

def messageMax : Nat := 64 * 1024 * 1024

def lspReadMessage (input : Bytes) : Received UInt8 Bytes :=
  match Loop.run headerTurn (input.length + 1) ⟨input, none, false⟩ with
  | some (.blank (some n) rest) =>
      if messageMax < n then .fail
      else if rest.length < n then .fail
      else .message (rest.take n) (rest.drop n)
  | some .eof => .eof
  | _ => .fail

def lspWriteMessage (body : Bytes) : Bytes :=
  contentLengthName ++ [ch ':', 32] ++ decimal body.length ++ [carriageReturn, lineFeed, carriageReturn, lineFeed] ++
    body

section Lines

variable {buf input line rest text : Bytes}

theorem readHeaderLine_line : readHeaderLine buf input = .line line rest ↔
    ∃ text, lineFeed ∉ text ∧ buf.length + text.length + 1 < headerLineMax ∧ line = buf ++ text ++ [lineFeed] ∧
      input = text ++ lineFeed :: rest := by
  induction input generalizing buf with
  | nil =>
      rw [readHeaderLine]
      constructor
      · intro h
        split at h <;> cases h
      · rintro ⟨text, -, -, -, h⟩
        cases text <;> cases h
  | cons c input ih =>
      rw [readHeaderLine]
      by_cases hlong : headerLineMax - 1 ≤ buf.length
      · rw [if_pos hlong]
        constructor
        · exact nofun
        · rintro ⟨text, -, hlen, -⟩
          omega
      rw [if_neg hlong]
      by_cases hc : c = lineFeed
      · rw [if_pos hc]
        constructor
        · intro h
          injection h with hline hrest
          refine ⟨[], List.not_mem_nil, by simp; omega, ?_, ?_⟩
          · rw [← hline, hc, List.append_nil]
          · rw [hc, hrest, List.nil_append]
        · rintro ⟨text, hno, -, hline, hinput⟩
          cases text with
          | nil =>
              obtain ⟨-, rfl⟩ := List.cons.inj hinput
              rw [hline, hc, List.append_nil]
          | cons d text =>
              obtain ⟨rfl, -⟩ := List.cons.inj hinput
              exact absurd (hc ▸ List.mem_cons_self ..) hno
      · rw [if_neg hc, ih]
        constructor
        · rintro ⟨text, hno, hlen, hline, rfl⟩
          rw [List.length_append, List.length_singleton] at hlen
          refine ⟨c :: text, ?_, by rw [List.length_cons]; omega, ?_, rfl⟩
          · rw [List.mem_cons, not_or]
            exact ⟨fun h => hc h.symm, hno⟩
          · rw [hline, List.append_assoc buf, List.singleton_append]
        · rintro ⟨text, hno, hlen, hline, hinput⟩
          cases text with
          | nil => exact absurd (List.cons.inj hinput).1 hc
          | cons d text =>
              obtain ⟨rfl, rfl⟩ := List.cons.inj hinput
              refine ⟨text, fun h => hno (List.mem_cons_of_mem _ h), ?_, ?_, rfl⟩
              · rw [List.length_append, List.length_singleton]
                rw [List.length_cons] at hlen
                omega
              · rw [hline, List.append_assoc buf [c], List.singleton_append]

theorem readHeaderLine_cut : readHeaderLine buf input = .cut line ↔
    lineFeed ∉ input ∧ (input ≠ [] → buf.length + input.length < headerLineMax) ∧ line = buf ++ input ∧ line ≠ [] := by
  induction input generalizing buf with
  | nil =>
      rw [readHeaderLine, List.append_nil]
      by_cases hbuf : buf = []
      · rw [if_pos hbuf]
        constructor
        · exact nofun
        · rintro ⟨-, -, rfl, hne⟩
          exact absurd hbuf hne
      · rw [if_neg hbuf]
        constructor
        · intro h
          injection h with h
          exact ⟨List.not_mem_nil, fun h => absurd rfl h, h.symm, h ▸ hbuf⟩
        · rintro ⟨-, -, rfl, -⟩
          rfl
  | cons c input ih =>
      rw [readHeaderLine]
      by_cases hlong : headerLineMax - 1 ≤ buf.length
      · rw [if_pos hlong]
        constructor
        · exact nofun
        · rintro ⟨-, hlen, -⟩
          have hlen := hlen (List.cons_ne_nil _ _)
          rw [List.length_cons] at hlen
          omega
      rw [if_neg hlong]
      by_cases hc : c = lineFeed
      · rw [if_pos hc]
        constructor
        · exact nofun
        · rintro ⟨hno, -⟩
          exact absurd (hc ▸ List.mem_cons_self ..) hno
      · rw [if_neg hc, ih, List.append_assoc, List.singleton_append]
        constructor
        · rintro ⟨hno, hlen, hline, hne⟩
          refine ⟨?_, fun _ => ?_, hline, hne⟩
          · rw [List.mem_cons, not_or]
            exact ⟨fun h => hc h.symm, hno⟩
          · cases input with
            | nil =>
                rw [List.length_singleton]
                omega
            | cons d input =>
                have hlen := hlen (List.cons_ne_nil _ _)
                rw [List.length_append, List.length_singleton] at hlen
                rw [List.length_cons]
                omega
        · rintro ⟨hno, hlen, hline, hne⟩
          refine ⟨fun h => hno (List.mem_cons_of_mem _ h), fun _ => ?_, hline, hne⟩
          have hlen := hlen (List.cons_ne_nil _ _)
          rw [List.length_cons] at hlen
          rw [List.length_append, List.length_singleton]
          omega

theorem rstripEol_snoc {c : UInt8} (h : isEol c = true) (s : Bytes) : rstripEol (s ++ [c]) = rstripEol s :=
  List.rdropWhile_concat_pos _ _ _ h

theorem rstripEol_of_not {c : UInt8} (h : isEol c = false) (s : Bytes) : rstripEol (s ++ [c]) = s ++ [c] :=
  List.rdropWhile_concat_neg _ _ _ (by simp [h])

end Lines

section Headers

def Line (l : Bytes) : Prop := ∃ text, lineFeed ∉ text ∧ text.length + 1 < headerLineMax ∧ l = text ++ [lineFeed]

def Cut (l : Bytes) : Prop := l ≠ [] ∧ lineFeed ∉ l ∧ l.length < headerLineMax

/-- Header lines up to a blank one, from the length declared before them to the one declared
last. -/
inductive Headers (Last : Bytes → Prop) : Option Nat → Bytes → Option Nat → Prop
  | blank {n : Option Nat} {l : Bytes} : Last l → rstripEol l = [] → Headers Last n l n
  | contentLength {n m : Option Nat} {l rest name value : Bytes} {v : Nat} : Line l →
      headerField (rstripEol l) = some (name, value) → strcasecmp name contentLengthName = true →
      lengthValue value = some v → Headers Last (some v) rest m → Headers Last n (l ++ rest) m
  | other {n m : Option Nat} {l rest name value : Bytes} : Line l →
      headerField (rstripEol l) = some (name, value) → strcasecmp name contentLengthName = false →
      Headers Last n rest m → Headers Last n (l ++ rest) m

variable {input head rest l : Bytes} {n m : Option Nat} {got : Bool} {fuel : Nat}

theorem readHeaderLine_of_line (h : Line l) (rest : Bytes) : readHeaderLine [] (l ++ rest) = .line l rest := by
  obtain ⟨text, hno, hlen, rfl⟩ := h
  apply readHeaderLine_line.mpr
  exact ⟨text, hno, by rw [List.length_nil]; omega, rfl, by rw [List.append_assoc, List.singleton_append]⟩

theorem line_of_readHeaderLine (h : readHeaderLine [] input = .line l rest) : Line l ∧ input = l ++ rest := by
  obtain ⟨text, hno, hlen, rfl, rfl⟩ := readHeaderLine_line.mp h
  rw [List.length_nil] at hlen
  rw [List.nil_append]
  exact ⟨⟨text, hno, by omega, rfl⟩, by rw [List.append_assoc, List.singleton_append]⟩

theorem readHeaderLine_of_cut (h : Cut l) : readHeaderLine [] l = .cut l := by
  obtain ⟨hne, hno, hlen⟩ := h
  apply readHeaderLine_cut.mpr
  exact ⟨hno, fun _ => by rw [List.length_nil]; omega, rfl, hne⟩

theorem cut_of_readHeaderLine (h : readHeaderLine [] input = .cut l) : Cut l ∧ input = l := by
  obtain ⟨hno, hlen, hl, hne⟩ := readHeaderLine_cut.mp h
  obtain rfl : l = input := hl
  have hlen := hlen hne
  rw [List.length_nil] at hlen
  exact ⟨⟨hne, hno, by omega⟩, rfl⟩

theorem rstripEol_ne_nil {name value : Bytes} (h : headerField (rstripEol l) = some (name, value)) :
    rstripEol l ≠ [] := by
  intro hblank
  rw [hblank] at h
  cases h

theorem headerTurn_contentLength {name value : Bytes} {v : Nat} (hline : Line l)
    (hfield : headerField (rstripEol l) = some (name, value)) (hname : strcasecmp name contentLengthName = true)
    (hvalue : lengthValue value = some v) : headerTurn ⟨l ++ rest, n, got⟩ = .inl ⟨rest, some v, true⟩ := by
  simp only [headerTurn, readHeaderLine_of_line hline, if_neg (rstripEol_ne_nil hfield), hfield, if_pos hname, hvalue]

theorem headerTurn_other {name value : Bytes} (hline : Line l) (hfield : headerField (rstripEol l) = some (name, value))
    (hname : strcasecmp name contentLengthName = false) :
    headerTurn ⟨l ++ rest, n, got⟩ = .inl ⟨rest, n, true⟩ := by
  simp only [headerTurn, readHeaderLine_of_line hline, if_neg (rstripEol_ne_nil hfield), hfield, hname,
    Bool.false_eq_true, if_false]

theorem headerTurn_blank (hline : Line l) (hblank : rstripEol l = []) :
    headerTurn ⟨l ++ rest, n, got⟩ = .inr (.blank n rest) := by
  simp only [headerTurn, readHeaderLine_of_line hline, if_pos hblank]

theorem headerTurn_cut (hcut : Cut l) (hblank : rstripEol l = []) :
    headerTurn ⟨l ++ [], n, got⟩ = .inr (.blank n []) := by
  rw [List.append_nil]
  simp only [headerTurn, readHeaderLine_of_cut hcut, if_pos hblank]

theorem line_length_pos (h : Line l) : 0 < l.length := by
  obtain ⟨text, -, -, rfl⟩ := h
  rw [List.length_append, List.length_singleton]
  omega

theorem run_of_headers (got : Bool) (tail : Bytes) {Last : Bytes → Prop}
    (hlast : ∀ l n got, Last l → rstripEol l = [] → headerTurn ⟨l ++ tail, n, got⟩ = .inr (.blank n tail))
    (h : Headers Last n head m) (hfuel : (head ++ tail).length < fuel) :
    Loop.run headerTurn fuel ⟨head ++ tail, n, got⟩ = some (.blank m tail) := by
  induction h generalizing fuel got with
  | blank hline hblank =>
      cases fuel with
      | zero => exact absurd hfuel (Nat.not_lt_zero _)
      | succ fuel => exact Loop.run_exit (hlast _ _ _ hline hblank) fuel
  | @contentLength n m l rest name value v hline hfield hname hvalue hrest ih =>
      cases fuel with
      | zero => exact absurd hfuel (Nat.not_lt_zero _)
      | succ fuel =>
          have hpos := line_length_pos hline
          rw [List.append_assoc] at hfuel ⊢
          rw [List.length_append] at hfuel
          rw [Loop.run, headerTurn_contentLength hline hfield hname hvalue]
          exact ih true (by omega)
  | @other n m l rest name value hline hfield hname hrest ih =>
      cases fuel with
      | zero => exact absurd hfuel (Nat.not_lt_zero _)
      | succ fuel =>
          have hpos := line_length_pos hline
          rw [List.append_assoc] at hfuel ⊢
          rw [List.length_append] at hfuel
          rw [Loop.run, headerTurn_other hline hfield hname]
          exact ih true (by omega)

theorem headers_of_run (h : Loop.run headerTurn fuel ⟨input, n, got⟩ = some (.blank m rest)) :
    (∃ head, Headers Line n head m ∧ input = head ++ rest) ∨ Headers Cut n input m ∧ rest = [] := by
  induction fuel generalizing input n got with
  | zero => cases h
  | succ fuel ih =>
      rw [Loop.run, headerTurn] at h
      cases hread : readHeaderLine [] input with
      | eof =>
          simp only [hread] at h
          split at h <;> cases h
      | tooLong =>
          simp only [hread] at h
          cases h
      | cut l =>
          obtain ⟨hcut, rfl⟩ := cut_of_readHeaderLine hread
          simp only [hread] at h
          by_cases hblank : rstripEol input = []
          · rw [if_pos hblank] at h
            cases h
            exact .inr ⟨.blank hcut hblank, rfl⟩
          · rw [if_neg hblank] at h
            cases h
      | line l tail =>
          obtain ⟨hline, rfl⟩ := line_of_readHeaderLine hread
          simp only [hread] at h
          by_cases hblank : rstripEol l = []
          · rw [if_pos hblank] at h
            cases h
            exact .inl ⟨l, .blank hline hblank, rfl⟩
          rw [if_neg hblank] at h
          cases hfield : headerField (rstripEol l) with
          | none =>
              simp only [hfield] at h
              cases h
          | some field =>
              obtain ⟨name, value⟩ := field
              simp only [hfield] at h
              by_cases hname : strcasecmp name contentLengthName = true
              · rw [if_pos hname] at h
                cases hvalue : lengthValue value with
                | none =>
                    simp only [hvalue] at h
                    cases h
                | some v =>
                    simp only [hvalue] at h
                    rcases ih h with ⟨head, hhead, rfl⟩ | ⟨hcut, rfl⟩
                    · left
                      exact ⟨l ++ head, .contentLength hline hfield hname hvalue hhead, (List.append_assoc ..).symm⟩
                    · exact .inr ⟨.contentLength hline hfield hname hvalue hcut, rfl⟩
              · rw [if_neg hname] at h
                have hname : strcasecmp name contentLengthName = false := by simpa using hname
                rcases ih h with ⟨head, hhead, rfl⟩ | ⟨hcut, rfl⟩
                · left
                  exact ⟨l ++ head, .other hline hfield hname hhead, (List.append_assoc ..).symm⟩
                · exact .inr ⟨.other hline hfield hname hcut, rfl⟩

theorem headers_of_lspReadMessage {body : Bytes} (h : lspReadMessage input = .message body rest) :
    body.length ≤ messageMax ∧
      ((∃ head, Headers Line none head (some body.length) ∧ input = head ++ (body ++ rest)) ∨
        Headers Cut none input (some 0) ∧ body = [] ∧ rest = []) := by
  rw [lspReadMessage] at h
  cases hrun : Loop.run headerTurn (input.length + 1) ⟨input, none, false⟩ with
  | none =>
      rw [hrun] at h
      cases h
  | some out =>
      rw [hrun] at h
      cases out with
      | eof => cases h
      | fail => cases h
      | blank n tail =>
          cases n with
          | none => cases h
          | some n =>
              simp only at h
              by_cases hmax : messageMax < n
              · rw [if_pos hmax] at h
                cases h
              by_cases hshort : tail.length < n
              · rw [if_neg hmax, if_pos hshort] at h
                cases h
              rw [if_neg hmax, if_neg hshort] at h
              cases h
              have hlen : (tail.take n).length = n := by
                rw [List.length_take]
                omega
              refine ⟨by omega, ?_⟩
              rw [hlen, List.take_append_drop]
              rcases headers_of_run hrun with hhead | ⟨hcut, rfl⟩
              · exact .inl hhead
              · obtain rfl : n = 0 := by simpa using hshort
                exact .inr ⟨hcut, rfl, rfl⟩

theorem lspReadMessage_of_headers {body : Bytes} (hmax : body.length ≤ messageMax)
    (h : Headers Line none head (some body.length)) (rest : Bytes) :
    lspReadMessage (head ++ (body ++ rest)) = .message body rest := by
  have hrun := run_of_headers false (body ++ rest) (fun _ _ _ => headerTurn_blank) h
    (Nat.lt_succ_self (head ++ (body ++ rest)).length)
  rw [lspReadMessage, hrun]
  simp only
  rw [if_neg (Nat.not_lt.mpr hmax), if_neg (by rw [List.length_append]; omega), List.take_left, List.drop_left]

theorem lspReadMessage_of_cut (h : Headers Cut none input (some 0)) : lspReadMessage input = .message [] [] := by
  have hrun := run_of_headers false [] (fun _ _ _ => headerTurn_cut) h (Nat.lt_succ_self (input ++ []).length)
  rw [List.append_nil] at hrun
  rw [lspReadMessage, hrun]
  rfl

theorem headers_length_pos {Last : Bytes → Prop} (hlast : ∀ l, Last l → 0 < l.length) (h : Headers Last n head m) :
    0 < head.length := by
  induction h with
  | blank hl _ => exact hlast _ hl
  | contentLength hline _ _ _ _ ih | other hline _ _ _ ih =>
      rw [List.length_append]
      omega

theorem lspReadMessage_shorter {body : Bytes} (h : lspReadMessage input = .message body rest) :
    rest.length < input.length := by
  obtain ⟨-, ⟨head, hhead, rfl⟩ | ⟨hcut, -, rfl⟩⟩ := headers_of_lspReadMessage h
  · have hpos := headers_length_pos (fun _ hl => line_length_pos hl) hhead
    simp only [List.length_append]
    omega
  · exact headers_length_pos (fun l hl => List.length_pos_iff.mpr hl.1) hcut

/-- A body is read where header lines declare its length and a blank line stands before it,
or where a blank line that the end of the input cuts leaves none to be read. -/
theorem lspReadMessage_iff (input body rest : Bytes) : lspReadMessage input = .message body rest ↔
    body.length ≤ messageMax ∧
      ((∃ head, Headers Line none head (some body.length) ∧ input = head ++ (body ++ rest)) ∨
        Headers Cut none input (some 0) ∧ body = [] ∧ rest = []) := by
  constructor
  · exact headers_of_lspReadMessage
  · rintro ⟨hmax, ⟨head, hhead, rfl⟩ | ⟨hcut, rfl, rfl⟩⟩
    · exact lspReadMessage_of_headers hmax hhead rest
    · exact lspReadMessage_of_cut hcut

end Headers

section Frames

variable {body p rest : Bytes}

def declared (body : Bytes) : Bytes :=
  contentLengthName ++ ch ':' :: 32 :: decimal body.length ++ [carriageReturn, lineFeed]

theorem lspWriteMessage_eq (body : Bytes) :
    lspWriteMessage body = declared body ++ ([carriageReturn, lineFeed] ++ body) := by
  simp [lspWriteMessage, declared]

theorem decimal_short (h : body.length ≤ messageMax) : (decimal body.length).length ≤ 8 := by
  apply decimal_length_le (by decide)
  exact Nat.lt_of_le_of_lt h (by decide)

theorem declared_line (h : body.length ≤ messageMax) : Line (declared body) := by
  have hshort := decimal_short h
  refine ⟨contentLengthName ++ ch ':' :: 32 :: decimal body.length ++ [carriageReturn], ?_, ?_, ?_⟩
  · intro hmem
    simp only [List.mem_append, List.mem_cons, List.not_mem_nil, or_false] at hmem
    rcases hmem with (hname | hcolon | hspace | hdigit) | hreturn
    · exact absurd hname (by decide)
    · exact absurd hcolon (by decide)
    · exact absurd hspace (by decide)
    · exact absurd (isDigit_of_mem_decimal hdigit) (by decide)
    · exact absurd hreturn (by decide)
  · have hname : contentLengthName.length = 14 := rfl
    have hmax : headerLineMax = 256 := rfl
    simp only [List.length_append, List.length_cons, List.length_nil]
    omega
  · rw [declared, List.append_assoc _ [carriageReturn], List.singleton_append]

theorem digit_plain {c : UInt8} (h : isDigit c = true) : isEol c = false ∧ isBlank c = false ∧ c ≠ 0 := by
  have hc := h
  rw [isDigit, Bool.and_eq_true, decide_eq_true_iff, UInt8.le_iff_toNat_le] at hc
  have hlow : 48 ≤ c.toNat := hc.1
  have hne (d : UInt8) (hd : d.toNat < 48) : c ≠ d := by
    rintro rfl
    omega
  simp [isEol, isBlank, hne 32 (by decide), hne 9 (by decide), hne carriageReturn (by decide), hne lineFeed (by decide),
    hne 0 (by decide)]

theorem rstripEol_declared (body : Bytes) :
    rstripEol (declared body) = contentLengthName ++ ch ':' :: 32 :: decimal body.length := by
  obtain ⟨ds, d, hds⟩ : ∃ ds d, decimal body.length = ds ++ [d] :=
    ⟨_, _, (List.dropLast_concat_getLast (decimal_ne_nil _)).symm⟩
  have hd : isDigit d = true := isDigit_of_mem_decimal (n := body.length) (by rw [hds]; simp)
  have hline : declared body =
      (contentLengthName ++ ch ':' :: 32 :: ds ++ [d]) ++ [carriageReturn] ++ [lineFeed] := by
    simp [declared, hds]
  rw [hline, rstripEol_snoc (by decide), rstripEol_snoc (by decide), rstripEol_of_not (digit_plain hd).1, hds]
  simp

theorem declared_field (body : Bytes) :
    headerField (rstripEol (declared body)) = some (contentLengthName, decimal body.length) := by
  have hstring : cString (contentLengthName ++ ch ':' :: 32 :: decimal body.length) =
      contentLengthName ++ ch ':' :: 32 :: decimal body.length := by
    apply List.takeWhile_eq_self_iff.mpr
    intro c hc
    simp only [List.mem_append, List.mem_cons] at hc
    rcases hc with hname | rfl | rfl | hdigit
    · have hall : contentLengthName.all (fun c => decide (c ≠ 0)) = true := by decide
      exact List.all_eq_true.mp hall c hname
    · decide
    · decide
    · simpa using (digit_plain (isDigit_of_mem_decimal hdigit)).2.2
  have hname : ∀ c ∈ contentLengthName, decide (c ≠ ch ':') = true := List.all_eq_true.mp (by decide)
  have hblank : (32 :: decimal body.length).dropWhile isBlank = decimal body.length := by
    rw [List.dropWhile_cons_of_pos (by decide)]
    cases hds : decimal body.length with
    | nil => rfl
    | cons d ds =>
        have hd : isDigit d = true := isDigit_of_mem_decimal (n := body.length) (by rw [hds]; simp)
        rw [List.dropWhile_cons_of_neg (by simp [(digit_plain hd).2.1])]
  rw [rstripEol_declared, headerField, hstring, List.dropWhile_append_of_pos hname,
    List.dropWhile_cons_of_neg (by simp), List.takeWhile_append_of_pos hname, List.takeWhile_cons_of_neg (by simp),
    List.append_nil]
  simp only [hblank]

theorem declared_value (h : body.length ≤ messageMax) : lengthValue (decimal body.length) = some body.length := by
  have hlt : body.length < 2 ^ 64 := Nat.lt_of_le_of_lt h (by decide)
  have hread := strtoul_decimal (t := []) hlt nofun
  rw [List.append_nil] at hread
  rw [lengthValue, hread, Option.bind_some]
  rfl

theorem blankLine_line : Line [carriageReturn, lineFeed] := ⟨[carriageReturn], by decide, by decide, rfl⟩

theorem lspReadMessage_write (h : body.length ≤ messageMax) (rest : Bytes) :
    lspReadMessage (lspWriteMessage body ++ rest) = .message body rest := by
  have hhead : Headers Line none (declared body ++ [carriageReturn, lineFeed]) (some body.length) :=
    .contentLength (declared_line h) (declared_field body) (by decide) (declared_value h)
      (.blank blankLine_line (by decide))
  rw [lspWriteMessage_eq, ← List.append_assoc (declared body), List.append_assoc _ body]
  exact lspReadMessage_of_headers h hhead rest

theorem run_declared {e : HeaderEnd} (h : body.length ≤ messageMax)
    (hexit : headerTurn ⟨rest, some body.length, true⟩ = .inr e) :
    Loop.run headerTurn ((declared body ++ rest).length + 1) ⟨declared body ++ rest, none, false⟩ = some e := by
  obtain ⟨k, hk⟩ : ∃ k, (declared body ++ rest).length = k + 1 := by
    apply Nat.exists_eq_succ_of_ne_zero
    simp [declared]
  rw [hk, Loop.run, headerTurn_contentLength (declared_line h) (declared_field body) (by decide) (declared_value h)]
  exact Loop.run_exit hexit k

theorem headerTurn_start {c : UInt8} (hc : isEol c = false) (hno : lineFeed ∉ c :: p)
    (hlen : (c :: p).length < headerLineMax) : headerTurn ⟨c :: p, none, false⟩ = .inr .fail := by
  have hblank : rstripEol (c :: p) ≠ [] := by
    intro hnil
    rw [rstripEol, List.rdropWhile_eq_nil_iff] at hnil
    rw [hnil c (List.mem_cons_self ..)] at hc
    cases hc
  simp only [headerTurn, readHeaderLine_of_cut ⟨List.cons_ne_nil _ _, hno, hlen⟩, if_neg hblank]

/-- A message that is cut short is not taken for another one. -/
theorem lspReadMessage_truncated {body' : Bytes} (h : body.length ≤ messageMax) (hp : p <+: lspWriteMessage body)
    (hread : lspReadMessage p = .message body' rest) : body' = body ∧ rest = [] := by
  obtain ⟨text, hno, hlen, hdeclared⟩ := declared_line h
  have hwritten : lspWriteMessage body = text ++ lineFeed :: carriageReturn :: lineFeed :: body := by
    rw [lspWriteMessage_eq, hdeclared]
    simp
  have hstart : text.head? = some 67 := by
    have hhead := congrArg List.head? hdeclared
    cases text with
    | nil =>
        have hhead : some (67 : UInt8) = some lineFeed := hhead
        exact absurd hhead (by decide)
    | cons c text => exact hhead.symm
  have hcases : p <+: text ∨ ∃ t, p = declared body ++ t ∧ t <+: carriageReturn :: lineFeed :: body := by
    rw [hwritten] at hp
    rcases prefix_append_cases hp with hcut | ⟨q, rfl, hq⟩
    · exact .inl hcut
    · rcases List.prefix_cons_iff.mp hq with rfl | ⟨t, rfl, ht⟩
      · left
        rw [List.append_nil]
      · exact .inr ⟨t, by rw [hdeclared, List.append_assoc, List.singleton_append], ht⟩
  rcases hcases with hcut | ⟨t, rfl, ht⟩
  · cases p with
    | nil => cases hread
    | cons c p =>
        obtain rfl : c = 67 := by
          obtain ⟨q, rfl⟩ := hcut
          exact Option.some.inj hstart
        have hlength := hcut.length_le
        have hfail := headerTurn_start (by decide) (fun hmem => hno (hcut.subset hmem)) (by omega)
        rw [lspReadMessage, Loop.run_exit hfail] at hread
        cases hread
  rcases List.prefix_cons_iff.mp ht with rfl | ⟨t, rfl, ht'⟩
  · have hexit : headerTurn ⟨[], some body.length, true⟩ = .inr .fail := rfl
    rw [lspReadMessage, run_declared h hexit] at hread
    cases hread
  rcases List.prefix_cons_iff.mp ht' with rfl | ⟨r, rfl, hr⟩
  · have hexit : headerTurn ⟨[carriageReturn] ++ [], some body.length, true⟩ = .inr (.blank (some body.length) []) :=
      headerTurn_cut ⟨List.cons_ne_nil _ _, by decide, by decide⟩ (by decide)
    rw [List.append_nil] at hexit
    rw [lspReadMessage, run_declared h hexit] at hread
    simp only [List.length_nil] at hread
    rw [if_neg (Nat.not_lt.mpr h)] at hread
    by_cases hpos : 0 < body.length
    · rw [if_pos hpos] at hread
      cases hread
    · obtain rfl : body = [] := List.length_eq_zero_iff.mp (by omega)
      cases hread
      exact ⟨rfl, rfl⟩
  · have hexit : headerTurn ⟨carriageReturn :: lineFeed :: r, some body.length, true⟩ =
        .inr (.blank (some body.length) r) :=
      (headerTurn_blank blankLine_line (by decide) : headerTurn ⟨[carriageReturn, lineFeed] ++ r, _, _⟩ = _)
    rw [lspReadMessage, run_declared h hexit] at hread
    simp only at hread
    rw [if_neg (Nat.not_lt.mpr h)] at hread
    by_cases hshort : r.length < body.length
    · rw [if_pos hshort] at hread
      cases hread
    · obtain rfl : r = body := hr.eq_of_length_le (by omega)
      rw [if_neg hshort, List.take_length, List.drop_length] at hread
      cases hread
      exact ⟨rfl, rfl⟩

theorem lspCodec : Codec lspReadMessage lspWriteMessage (·.length ≤ messageMax) where
  eof := rfl
  nonempty := by
    intro body _ hnil
    rw [lspWriteMessage_eq] at hnil
    simp [declared] at hnil
  whole := fun _ rest h => lspReadMessage_write h rest
  truncated := fun _ _ _ _ h hp hread => lspReadMessage_truncated h hp hread

/-- Bodies written to a stream are read back, each of them whole. Of a stream that is cut
anywhere the first of them are read, and nothing that was not written. -/
theorem stream_read (bodies : List Bytes) (hmax : ∀ body ∈ bodies, body.length ≤ messageMax) (p : Bytes)
    (hp : p <+: bodies.flatMap lspWriteMessage) :
    (readAll lspReadMessage (p.length + 1) p).1 <+: bodies ∧
      (p = bodies.flatMap lspWriteMessage → readAll lspReadMessage (p.length + 1) p = (bodies, true)) :=
  lspCodec.readAll_prefix hmax hp (Nat.lt_succ_self _)

/-- `{}`, and the first two bytes of a message. -/
theorem stream_read_cut :
    (readAll lspReadMessage ((lspWriteMessage [123, 125] ++ [67, 111]).length + 1)
      (lspWriteMessage [123, 125] ++ [67, 111])).1 <+: [[123, 125], [91, 93]] :=
  (stream_read [[123, 125], [91, 93]] (by decide) (lspWriteMessage [123, 125] ++ [67, 111]) (by decide +kernel)).1

end Frames

end Ore.LspMarshal
