import Ore.DecimalText

namespace Ore.DiagTemplates

open DecimalText

section Emission

inductive DiagAnchor
  | none
  | fileRaw (fileId start length : UInt32)
  | body (fileId decl rel : UInt32)
  deriving DecidableEq

inductive Spec
  | strId | cString | type | int | char | span
  deriving DecidableEq

/-- `%S`, `%s`, `%T`, `%d`, `%c` and `%P`. -/
def specOf (c : UInt8) : Option Spec :=
  if c = 83 then some .strId
  else if c = 115 then some .cString
  else if c = 84 then some .type
  else if c = 100 then some .int
  else if c = 99 then some .char
  else if c = 80 then some .span
  else none

/-- What the caller passes, a C string without its terminator. -/
inductive VaArg
  | strId (id : Nat)
  | cString (text : Option (List UInt8))
  | type (index : Nat)
  | int (i : Int32)
  | char (ch : UInt32)
  | span (anchor : DiagAnchor)
  deriving DecidableEq

inductive DiagArg
  | strId (id : Nat)
  | rawStr (text : List UInt8)
  | type (index : Nat)
  | int (i : Int32)
  | char (ch : UInt32)
  | span (anchor : DiagAnchor)
  deriving DecidableEq

def ascii (s : String) : List UInt8 := s.toList.map byte

/-- The length of a copied string is kept in 32 bits. -/
def rawStr (text : Option (List UInt8)) : List UInt8 :=
  let text := text.getD (ascii "(null)")
  text.take (text.length % 2 ^ 32)

def diagArg : Spec → VaArg → Option DiagArg
  | .strId, .strId id => some (.strId id)
  | .cString, .cString text => some (.rawStr (rawStr text))
  | .type, .type index => some (.type index)
  | .int, .int i => some (.int i)
  | .char, .char ch => some (.char ch)
  | .span, .span anchor => some (.span anchor)
  | _, _ => none

def placeholder (n : Nat) : List UInt8 := 123 :: decimal n ++ [125]

/-- The template so far, at most `cap` bytes, and its arguments, at most `argsCap`. -/
def buildLoop (cap argsCap : Nat) :
    List UInt8 → List VaArg → List UInt8 → List DiagArg → Option (List UInt8 × List DiagArg)
  | [], _, t, args => some (t, args)
  | [c], _, t, args => some (if t.length < cap then t ++ [c] else t, args)
  | c :: d :: fmt, va, t, args =>
      if ¬ t.length < cap then some (t, args)
      else if c ≠ 37 then buildLoop cap argsCap (d :: fmt) va (t ++ [c]) args
      else if d = 37 then buildLoop cap argsCap fmt va (t ++ [37]) args
      else if argsCap ≤ args.length then some (t, args)
      else match specOf d with
        | none => buildLoop cap argsCap fmt va (if t.length + 1 < cap then t ++ [37, d] else t) args
        | some spec => match va with
          | [] => none
          | v :: va => match diagArg spec v with
            | none => none
            | some arg =>
                -- A placeholder that does not fit is cut and ends the template.
                if (placeholder args.length).length < cap - t.length then
                  buildLoop cap argsCap fmt va (t ++ placeholder args.length) (args ++ [arg])
                else some (t ++ (placeholder args.length).take (cap - t.length - 1), args ++ [arg])

def buildTemplateAndArgs (fmt : List UInt8) (va : List VaArg) : Option (List UInt8 × List DiagArg) :=
  buildLoop 511 8 fmt va [] []

end Emission

section Rendering

/-- The pool of strings and the printed types, which a diagnostic refers to. -/
structure Env where
  strings : Nat → Option (List UInt8)
  typeText : Nat → List UInt8

/-- A buffer without its terminator, and how much was written to it, whether or not there was room. -/
structure Buffer where
  len : Nat
  shown : List UInt8
  written : Nat
  deriving DecidableEq

def Buffer.append (b : Buffer) (s : List UInt8) : Buffer :=
  let cap := b.len - 1
  let pos := min b.written cap
  let copy := min (cap - pos) s.length
  { b with shown := b.shown ++ s.take copy, written := b.written + s.length }

def hexDigit (n : Nat) : UInt8 := UInt8.ofNat (if n < 10 then 48 + n else 55 + n)

def isPrint (ch : UInt32) : Bool := 32 ≤ ch && ch < 127

def charText (ch : UInt32) : List UInt8 :=
  if isPrint ch then [39, UInt8.ofNat ch.toNat, 39]
  else [39, 92, 120, hexDigit (ch.toNat % 256 / 16), hexDigit (ch.toNat % 16), 39]

def intText (i : Int32) : List UInt8 :=
  if i.toInt < 0 then 45 :: decimal i.toInt.natAbs else decimal i.toInt.natAbs

def spanText : DiagAnchor → List UInt8
  | .none => ascii "<none>"
  | .fileRaw fileId start length =>
      ascii "file#" ++ decimal fileId.toNat ++ [58] ++ decimal start.toNat ++ [45] ++ decimal (start + length).toNat
  | .body _ decl rel => ascii "decl#" ++ decimal decl.toNat ++ ascii ":rel#" ++ decimal rel.toNat

/-- A printed type is cut after 255 bytes. -/
def argText (env : Env) : DiagArg → List UInt8
  | .strId id => (env.strings id).getD (ascii "<bad str>")
  | .rawStr text => text
  | .type index => (env.typeText index).take 255
  | .int i => intText i
  | .char ch => charText ch
  | .span anchor => spanText anchor

/-- The number of a placeholder, its digits and what follows it, after its opening brace. -/
def placeholderAt (rest : List UInt8) : Option (Nat × List UInt8 × List UInt8) :=
  let digits := rest.takeWhile isDigit
  match rest.dropWhile isDigit with
  | c :: after => if digits ≠ [] ∧ c = 125 then some (value digits % 2 ^ 32, digits, after) else none
  | [] => none

theorem placeholderAt_length {rest digits after : List UInt8} {idx : Nat}
    (h : placeholderAt rest = some (idx, digits, after)) : after.length < rest.length := by
  rw [placeholderAt] at h
  have hle := (List.dropWhile_suffix (l := rest) isDigit).length_le
  split at h
  · rename_i c after' hdrop
    split at h
    · obtain ⟨-, -, rfl⟩ := Prod.mk.inj (Option.some.inj h)
      rw [hdrop, List.length_cons] at hle
      omega
    · cases h
  · cases h

/-- The walk over the template; two braces are one, and a placeholder without an argument stays. -/
def formatLoop (env : Env) (args : List DiagArg) : List UInt8 → Buffer → Buffer
  | [], b => b
  | c :: rest, b =>
      if c = 123 ∧ rest.head? = some 123 then formatLoop env args rest.tail (b.append [123])
      else if c = 125 ∧ rest.head? = some 125 then formatLoop env args rest.tail (b.append [125])
      else if c = 123 then
        match h : placeholderAt rest with
        | some (idx, digits, after) =>
            formatLoop env args after
              (b.append (((args[idx]?).map (argText env)).getD (123 :: digits ++ [125])))
        | none => formatLoop env args rest (b.append [c])
      else formatLoop env args rest (b.append [c])
termination_by rest => rest.length
decreasing_by
  · rw [List.length_tail, List.length_cons]
    omega
  · rw [List.length_tail, List.length_cons]
    omega
  · exact (placeholderAt_length h).trans (Nat.lt_succ_self _)
  · exact Nat.lt_succ_self _
  · exact Nat.lt_succ_self _

/-- A diagnostic as its bundle keeps it; the template is a string of the pool. -/
structure Diag where
  template : Option (List UInt8)
  args : List DiagArg
  deriving DecidableEq

def formatDiag (env : Env) (d : Diag) (buflen : Nat) : Buffer :=
  match d.template with
  | none => Buffer.append ⟨buflen, [], 0⟩ (ascii "<bad template>")
  | some template => formatLoop env d.args template ⟨buflen, [], 0⟩

/-- The message that is printed, from a buffer of 256 bytes or else one that is large enough. -/
def printedMessage (env : Env) (d : Diag) : List UInt8 :=
  let b := formatDiag env d 256
  if 256 ≤ b.written then (formatDiag env d (b.written + 1)).shown else b.shown

/-- What is emitted for a format. -/
def emit (fmt : List UInt8) (va : List VaArg) : Option Diag :=
  (buildTemplateAndArgs fmt va).map fun (template, args) => ⟨some template, args⟩

end Rendering

section Pieces

inductive Piece
  | text (c : UInt8)
  | arg (spec : Spec)
  | unknown (c : UInt8)
  deriving DecidableEq

/-- What a format says. -/
def pieces : List UInt8 → List Piece
  | [] => []
  | [c] => [.text c]
  | c :: d :: fmt =>
      if c ≠ 37 then .text c :: pieces (d :: fmt)
      else if d = 37 then .text 37 :: pieces fmt
      else match specOf d with
        | none => .unknown d :: pieces fmt
        | some spec => .arg spec :: pieces fmt

/-- The arguments that a format takes. -/
def takenArgs : List Piece → List VaArg → Option (List DiagArg)
  | [], _ => some []
  | .text _ :: ps, va | .unknown _ :: ps, va => takenArgs ps va
  | .arg _ :: _, [] => none
  | .arg spec :: ps, v :: va => (diagArg spec v).bind fun arg => (takenArgs ps va).map (arg :: ·)

def template : Nat → List Piece → List UInt8
  | _, [] => []
  | n, .text c :: ps => c :: template n ps
  | n, .arg _ :: ps => placeholder n ++ template (n + 1) ps
  | n, .unknown c :: ps => 37 :: c :: template n ps

/-- The message that a format and its arguments stand for. -/
def message (env : Env) : List Piece → List DiagArg → List UInt8
  | [], _ => []
  | .text c :: ps, args => c :: message env ps args
  | .arg _ :: ps, arg :: args => argText env arg ++ message env ps args
  | .arg _ :: ps, [] => message env ps []
  | .unknown c :: ps, args => 37 :: c :: message env ps args

/-- What may follow a byte of the text: no brace that makes a pair, and after an opening one no digit
and no argument. -/
def follows (c : UInt8) : Option Piece → Bool
  | some (.text d) => (c ≠ 123 ∨ (d ≠ 123 ∧ isDigit d = false)) ∧ (c ≠ 125 ∨ d ≠ 125)
  | some (.arg _) => c ≠ 123
  | some (.unknown _) => false
  | none => true

/-- A format with known specifiers only whose braces are read back as they are. -/
def plain : List Piece → Bool
  | [] => true
  | .text c :: ps => follows c ps.head? && plain ps
  | .arg _ :: ps => plain ps
  | .unknown _ :: _ => false

end Pieces

section Building

variable {cap argsCap : Nat} {fmt t : List UInt8} {va : List VaArg} {args taken : List DiagArg}

theorem append_text (t : List UInt8) (n : Nat) (c : UInt8) (ps : List Piece) :
    t ++ template n (.text c :: ps) = t ++ [c] ++ template n ps := List.append_cons ..

theorem append_arg (t : List UInt8) (n : Nat) (spec : Spec) (ps : List Piece) :
    t ++ template n (.arg spec :: ps) = t ++ placeholder n ++ template (n + 1) ps := (List.append_assoc ..).symm

theorem plain_tail {p : Piece} {ps : List Piece} (h : plain (p :: ps) = true) : plain ps = true := by
  cases p with
  | text c => exact (Bool.and_eq_true_iff.mp h).2
  | arg spec => exact h
  | unknown c => cases h

theorem buildLoop_pieces (hplain : plain (pieces fmt) = true) (htaken : takenArgs (pieces fmt) va = some taken) 
    (hargs : args.length + taken.length ≤ argsCap) (hfits : (t ++ template args.length (pieces fmt)).length < cap) :
    buildLoop cap argsCap fmt va t args = some (t ++ template args.length (pieces fmt), args ++ taken) := by
  have hroom : ¬ ¬ t.length < cap := by
    rw [List.length_append] at hfits
    omega
  fun_induction pieces fmt generalizing va t args taken with
  | case1 =>
      obtain rfl : [] = taken := Option.some.inj htaken
      rw [buildLoop, template, List.append_nil, List.append_nil]
  | case2 c =>
      obtain rfl : [] = taken := Option.some.inj htaken
      rw [buildLoop, if_pos (not_not.mp hroom), template, template, List.append_nil]
  | case3 c d fmt hc ih =>
      rw [append_text] at hfits ⊢
      rw [buildLoop, if_neg hroom, if_pos hc]
      refine ih (plain_tail hplain) htaken hargs hfits ?_
      rw [List.length_append] at hfits
      omega
  | case4 c fmt hc ih =>
      rw [append_text] at hfits ⊢
      rw [buildLoop, if_neg hroom, if_neg hc, if_pos rfl]
      refine ih (plain_tail hplain) htaken hargs hfits ?_
      rw [List.length_append] at hfits
      omega
  | case5 c d fmt hc hd hspec ih => cases hplain
  | case6 c d fmt hc hd spec hspec ih =>
      cases va with
      | nil => cases htaken
      | cons v va =>
          obtain ⟨arg, harg, htail⟩ := Option.bind_eq_some_iff.mp htaken
          obtain ⟨rest, hrest, rfl⟩ := Option.map_eq_some_iff.mp htail
          rw [List.length_cons] at hargs
          rw [append_arg] at hfits ⊢
          have hfull : ¬ argsCap ≤ args.length := by omega
          have hspace : (placeholder args.length).length < cap - t.length := by
            rw [List.length_append, List.length_append] at hfits
            omega
          rw [buildLoop, if_neg hroom, if_neg hc, if_neg hd, if_neg hfull]
          simp only [hspec, harg]
          rw [if_pos hspace, List.append_cons args arg rest]
          have hlength : (args ++ [arg]).length = args.length + 1 := by rw [List.length_append, List.length_singleton]
          rw [← hlength] at hfits ⊢
          refine ih (plain_tail hplain) hrest ?_ hfits ?_
          · omega
          · rw [List.length_append] at hfits
            omega

/-- A format that fits is kept whole. -/
theorem emit_pieces (hplain : plain (pieces fmt) = true) (htaken : takenArgs (pieces fmt) va = some taken)
    (hargs : taken.length ≤ 8) (hfits : (template 0 (pieces fmt)).length < 511) :
    emit fmt va = some ⟨some (template 0 (pieces fmt)), taken⟩ := by
  have hbuild : buildLoop 511 8 fmt va [] [] = some ([] ++ template 0 (pieces fmt), [] ++ taken) :=
    buildLoop_pieces hplain htaken (by rwa [List.length_nil, Nat.zero_add]) hfits
  rw [emit, buildTemplateAndArgs, hbuild]
  rfl

end Building

section Showing

variable {env : Env} {b : Buffer} {buflen n : Nat} {full rest : List UInt8} {args : List DiagArg} {c : UInt8}

/-- A buffer to which `full` was written. -/
structure Holds (buflen : Nat) (b : Buffer) (full : List UInt8) : Prop where
  len : b.len = buflen
  written : b.written = full.length
  shown : b.shown = full.take (buflen - 1)

theorem holds_empty (buflen : Nat) : Holds buflen ⟨buflen, [], 0⟩ [] := ⟨rfl, rfl, List.take_nil.symm⟩

theorem Holds.append (h : Holds buflen b full) (s : List UInt8) : Holds buflen (b.append s) (full ++ s) := by
  refine ⟨h.len, ?_, ?_⟩
  · simp only [Buffer.append, h.written, List.length_append]
  · have hcopy : min (buflen - 1 - min full.length (buflen - 1)) s.length =
        min (buflen - 1 - full.length) s.length := by
      omega
    simp only [Buffer.append, h.shown, h.written, h.len]
    rw [List.take_append, hcopy, ← List.take_eq_take_min]

theorem placeholderAt_none (h : ∀ d ∈ rest.head?, isDigit d = false) : placeholderAt rest = none := by
  rw [placeholderAt]
  cases rest with
  | nil => rfl
  | cons d rest =>
      have hd : ¬ isDigit d = true := by simp [h d rfl]
      rw [List.takeWhile_cons_of_neg hd, List.dropWhile_cons_of_neg hd]
      exact if_neg fun h => h.1 rfl

theorem decimal_digits (n : Nat) (rest : List UInt8) :
    (decimal n ++ 125 :: rest).takeWhile isDigit = decimal n ∧
      (decimal n ++ 125 :: rest).dropWhile isDigit = 125 :: rest := by
  have hall : ∀ d ∈ decimal n, isDigit d = true := fun d hd => isDigit_of_mem_decimal hd
  have hbrace : ¬ isDigit 125 = true := by decide
  rw [List.takeWhile_append_of_pos hall, List.takeWhile_cons_of_neg hbrace, List.append_nil,
    List.dropWhile_append_of_pos hall, List.dropWhile_cons_of_neg hbrace]
  exact ⟨rfl, rfl⟩

theorem placeholderAt_decimal (hn : n < 2 ^ 32) :
    placeholderAt (decimal n ++ 125 :: rest) = some (n, decimal n, rest) := by
  obtain ⟨htake, hdrop⟩ := decimal_digits n rest
  rw [placeholderAt]
  simp only [htake, hdrop]
  rw [if_pos ⟨decimal_ne_nil n, trivial⟩, value_decimal, Nat.mod_eq_of_lt hn]

theorem formatLoop_text (hopen : c = 123 → ∀ d ∈ rest.head?, d ≠ 123 ∧ isDigit d = false)
    (hclose : c = 125 → rest.head? ≠ some 125) :
    formatLoop env args (c :: rest) b = formatLoop env args rest (b.append [c]) := by
  rw [formatLoop, if_neg fun h => (hopen h.1 123 h.2).1 rfl, if_neg fun h => hclose h.1 h.2]
  split
  · rename_i hc
    have hnone := placeholderAt_none fun d hd => (hopen hc d hd).2
    split
    · rename_i hsome
      rw [hnone] at hsome
      cases hsome
    · rfl
  · rfl

theorem formatLoop_placeholder {arg : DiagArg} (hn : n < 2 ^ 32) (harg : args[n]? = some arg) :
    formatLoop env args (placeholder n ++ rest) b = formatLoop env args rest (b.append (argText env arg)) := by
  have hhead : (decimal n ++ 125 :: rest).head? ≠ some 123 := by
    intro h
    obtain ⟨d, ds, hd⟩ := List.exists_cons_of_ne_nil (decimal_ne_nil n)
    rw [hd] at h
    have hmem : d ∈ decimal n := hd ▸ List.mem_cons_self
    have hdigit := isDigit_of_mem_decimal hmem
    rw [Option.some.inj h] at hdigit
    cases hdigit
  have hplaceholder : placeholder n ++ rest = 123 :: (decimal n ++ 125 :: rest) := by simp [placeholder]
  rw [hplaceholder, formatLoop, if_neg fun h => hhead h.2, if_neg fun h => absurd h.1 (by decide), if_pos rfl]
  split
  · rename_i hsome
    rw [placeholderAt_decimal hn] at hsome
    obtain ⟨rfl, rfl, rfl⟩ := Prod.mk.inj (Option.some.inj hsome)
    rw [harg, Option.map_some, Option.getD_some]
  · rename_i hnone
    rw [placeholderAt_decimal hn] at hnone
    cases hnone

theorem template_head (n : Nat) (ps : List Piece) : (template n ps).head? = ps.head?.map fun
    | .text c => c
    | .arg _ => 123
    | .unknown _ => 37 := by
  cases ps with
  | nil => rfl
  | cons p ps => cases p <;> rfl

theorem follows_template {ps : List Piece} (h : follows c ps.head? = true) :
    (c = 123 → ∀ d ∈ (template n ps).head?, d ≠ 123 ∧ isDigit d = false) ∧
      (c = 125 → (template n ps).head? ≠ some 125) := by
  rw [template_head]
  cases hhead : ps.head? with
  | none =>
      refine ⟨fun _ d hd => ?_, fun _ hd => ?_⟩
      · cases hd
      · cases hd
  | some p =>
      rw [hhead] at h
      cases p with
      | text d =>
          obtain ⟨hopen, hclose⟩ := of_decide_eq_true h
          refine ⟨?_, ?_⟩
          · rintro hc _ ⟨rfl⟩
            exact hopen.resolve_left (not_not.mpr hc)
          · intro hc hd
            exact hclose.resolve_left (not_not.mpr hc) (Option.some.inj hd)
      | arg spec =>
          refine ⟨fun hc => absurd hc (of_decide_eq_true h), ?_⟩
          intro _ hd
          have hbrace : (123 : UInt8) = 125 := Option.some.inj hd
          exact absurd hbrace (by decide)
      | unknown d => cases h

theorem formatLoop_pieces {ps : List Piece} {va : List VaArg} {pre taken : List DiagArg} (hplain : plain ps = true)
    (htaken : takenArgs ps va = some taken) (hlen : (pre ++ taken).length < 2 ^ 32) (h : Holds buflen b full) :
    Holds buflen (formatLoop env (pre ++ taken) (template pre.length ps) b) (full ++ message env ps taken) := by
  induction ps generalizing va pre taken b full with
  | nil =>
      rw [template, formatLoop, message, List.append_nil]
      exact h
  | cons p ps ih =>
      cases p with
      | text c =>
          obtain ⟨hfollows, htail⟩ := Bool.and_eq_true_iff.mp hplain
          obtain ⟨hopen, hclose⟩ := follows_template (n := pre.length) hfollows
          rw [template, formatLoop_text hopen hclose, message, List.append_cons]
          exact ih htail htaken hlen (h.append [c])
      | arg spec =>
          cases va with
          | nil => cases htaken
          | cons v va =>
              obtain ⟨arg, -, htail⟩ := Option.bind_eq_some_iff.mp htaken
              obtain ⟨taken, hrest, rfl⟩ := Option.map_eq_some_iff.mp htail
              have hget : (pre ++ arg :: taken)[pre.length]? = some arg := by simp
              have hlt : pre.length < 2 ^ 32 := by
                rw [List.length_append] at hlen
                omega
              have hlength : pre.length + 1 = (pre ++ [arg]).length := by rw [List.length_append, List.length_singleton]
              rw [template, formatLoop_placeholder hlt hget, message, ← List.append_assoc, hlength, List.append_cons]
              exact ih hplain hrest (by rwa [← List.append_cons]) (h.append (argText env arg))
      | unknown c => cases hplain

/-- What is put together again from an emitted diagnostic, in a buffer of any length, is the message of
the format, the arguments as they are; all of it is printed. -/
theorem emitted_shown {fmt : List UInt8} {va : List VaArg} {taken : List DiagArg} (env : Env)
    (hplain : plain (pieces fmt) = true) (htaken : takenArgs (pieces fmt) va = some taken) (hargs : taken.length ≤ 8)
    (hfits : (template 0 (pieces fmt)).length < 511) :
    ∃ d, emit fmt va = some d ∧ d.args = taken ∧
      (∀ buflen, (formatDiag env d buflen).shown = (message env (pieces fmt) taken).take (buflen - 1) ∧
        (formatDiag env d buflen).written = (message env (pieces fmt) taken).length) ∧
      printedMessage env d = message env (pieces fmt) taken := by
  have hlen : ([] ++ taken).length < 2 ^ 32 := hargs.trans_lt (by decide)
  have hholds (buflen : Nat) : Holds buflen (formatDiag env ⟨some (template 0 (pieces fmt)), taken⟩ buflen)
      (message env (pieces fmt) taken) := formatLoop_pieces hplain htaken hlen (holds_empty buflen)
  refine ⟨_, emit_pieces hplain htaken hargs hfits, rfl,
    fun buflen => ⟨(hholds buflen).shown, (hholds buflen).written⟩, ?_⟩
  simp only [printedMessage, (hholds 256).written]
  split
  · rw [(hholds _).shown, Nat.add_sub_cancel, List.take_length]
  · rw [(hholds 256).shown, List.take_of_length_le (by omega)]

/-- An argument with a placeholder in it, and a format with braces. -/
theorem emitted_shown_braces : ∃ d, emit (ascii "%S \x7b...\x7d") [.strId 4] = some d ∧
    printedMessage ⟨fun _ => some (ascii "\x7b0\x7d"), fun _ => []⟩ d = ascii "\x7b0\x7d \x7b...\x7d" := by
  have hplain : plain (pieces (ascii "%S \x7b...\x7d")) = true := by decide
  have htaken : takenArgs (pieces (ascii "%S \x7b...\x7d")) [.strId 4] = some [.strId 4] := by decide
  obtain ⟨d, hemit, -, -, hprinted⟩ := emitted_shown ⟨fun _ => some (ascii "\x7b0\x7d"), fun _ => []⟩ hplain htaken
    (by decide) (by decide)
  refine ⟨d, hemit, hprinted.trans ?_⟩
  decide

end Showing

end Ore.DiagTemplates
