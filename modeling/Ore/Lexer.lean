import Ore.LayoutStream
import Ore.WorkspaceModel

namespace Ore.Lexer

open SyntaxKinds LayoutStream
open WorkspaceModel (Bytes)

/-- The string pool is a parameter: its state, and what interning does to it. -/
abbrev Intern (π : Type) := π → Bytes → π × Nat

/-- The streaming cursor. -/
structure LexCursor (π : Type) where
  source : Bytes
  pos : Nat
  tokStart : Nat
  pool : π
  lineStarts : List Nat
  pending : Token
  eofEmitted : Bool
  deriving DecidableEq, Repr

def ch (c : Char) : UInt8 := c.toNat.toUInt8

def lineFeed : UInt8 := 10
def carriageReturn : UInt8 := 13
def doubleQuote : UInt8 := 34
def singleQuote : UInt8 := 39
def backslash : UInt8 := 92
def backQuote : UInt8 := 96

def isIdStart (c : UInt8) : Bool := ch 'a' ≤ c && c ≤ ch 'z' || ch 'A' ≤ c && c ≤ ch 'Z' || c = ch '_'
def isDigit (c : UInt8) : Bool := ch '0' ≤ c && c ≤ ch '9'
def isHexDigit (c : UInt8) : Bool := isDigit c || ch 'a' ≤ c && c ≤ ch 'f' || ch 'A' ≤ c && c ≤ ch 'F'
def isIdCont (c : UInt8) : Bool := isIdStart c || isDigit c
def isBreak (c : UInt8) : Bool := c = lineFeed || c = carriageReturn

/-- The reserved keywords of each length; the other identifiers are no
keywords. -/
def keywords : List (String × SyntaxKind) :=
  [("if", .ifKw), ("fn", .fnKw), ("Fn", .fnTypeKw), ("nil", .nilKw), ("elif", .elifKw), ("else", .elseKw),
    ("enum", .enumKw), ("true", .trueKw), ("loop", .loopKw), ("with", .withKw), ("mask", .maskKw), ("false", .falseKw),
    ("const", .constKw), ("break", .breakKw), ("defer", .deferKw), ("union", .unionKw), ("struct", .structKw),
    ("switch", .switchKw), ("effect", .effectKw), ("return", .returnKw), ("orelse", .orelseKw), ("handle", .handleKw),
    ("handler", .handlerKw), ("comptime", .comptimeKw), ("continue", .continueKw), ("unreachable", .unreachableKw)]

def keywordKind (s : Bytes) : SyntaxKind :=
  ((keywords.find? fun k => k.1.toList.map ch = s).map (·.2)).getD .ident

variable {π : Type}

namespace LexCursor

/-- Past the end, a NUL is read. -/
def peekAt (l : LexCursor π) (off : Nat) : UInt8 := l.source.getD (l.pos + off) 0

def curr (l : LexCursor π) : UInt8 := l.peekAt 0

def advance (l : LexCursor π) : LexCursor π := if l.pos < l.source.length then { l with pos := l.pos + 1 } else l

/-- The increment of the scans that rely on the NUL behind the source. -/
def bump (l : LexCursor π) (n : Nat) : LexCursor π := { l with pos := l.pos + n }

def advanceBy : Nat → LexCursor π → LexCursor π
  | 0, l => l
  | n + 1, l => advanceBy n l.advance

def emit (l : LexCursor π) (kind : SyntaxKind) (sid : Nat) :
    LexCursor π := { l with pending := ⟨kind, sid, l.tokStart, l.pos⟩ }

def emitPlain (l : LexCursor π) (kind : SyntaxKind) : LexCursor π := l.emit kind 0

def lexeme (l : LexCursor π) (start len : Nat) : Bytes := (l.source.drop start).take len

def emitText (intern : Intern π) (l : LexCursor π) (kind : SyntaxKind) (text : Bytes) : LexCursor π :=
  let (pool, sid) := intern l.pool text
  { l with pool := pool }.emit kind sid

def emitInterned (intern : Intern π) (l : LexCursor π) (kind : SyntaxKind) : LexCursor π :=
  l.emitText intern kind (l.lexeme l.tokStart (l.pos - l.tokStart))

/-- Called after a line break was consumed. -/
def recordLineStart (l : LexCursor π) : LexCursor π := { l with lineStarts := l.lineStarts ++ [l.pos] }

end LexCursor

open LexCursor

def scan {α ρ : Type} (body : α × LexCursor π → (α × LexCursor π) ⊕ ρ) (a : α) (l : LexCursor π) : Option ρ :=
  Loop.run body (l.source.length + 1 - l.pos) (a, l)

def scanWith (next : LexCursor π → LexCursor π) (p : LexCursor π → Bool) (l : LexCursor π) : Option (LexCursor π) :=
  scan (fun s : Unit × LexCursor π => if p s.2 then .inl ((), next s.2) else .inr s.2) () l

def scanWhile : (LexCursor π → Bool) → LexCursor π → Option (LexCursor π) := scanWith (·.bump 1)

/-- A hyphen continues an identifier when an identifier byte follows it. -/
def atIdCont (l : LexCursor π) : Bool := isIdCont l.curr || l.curr = ch '-' && isIdCont (l.peekAt 1)

def lexIdentifierOrKeyword (intern : Intern π) (l : LexCursor π) : Option (LexCursor π) :=
  (scanWhile atIdCont l).map fun l =>
    let text := l.lexeme l.tokStart (l.pos - l.tokStart)
    if text = [ch '_'] then l.emitPlain .underscore
    else if keywordKind text = .ident then l.emitInterned intern .ident
    else l.emitPlain (keywordKind text)

def scanDecimalDigits (l : LexCursor π) : Option (LexCursor π) := scanWhile
    (fun l => isDigit l.curr || l.curr = ch '_') l

def scanFraction (l : LexCursor π) : Option (Bool × LexCursor π) :=
  if l.curr = ch '.' && isDigit (l.peekAt 1) then (scanDecimalDigits l.advance).map fun l => (true, l)
  else some (false, l)

def isSign (c : UInt8) : Bool := c = ch '+' || c = ch '-'

def scanExponent (l : LexCursor π) : Option (Bool × LexCursor π) :=
  if (l.curr = ch 'e' || l.curr = ch 'E') && isDigit (l.peekAt (if isSign (l.peekAt 1) then 2 else 1)) then
    let l := l.advance
    let l := if isSign l.curr then l.advance else l
    (scanDecimalDigits l).map fun l => (true, l)
  else some (false, l)

def basePredicate (c1 : UInt8) : Option (UInt8 → Bool) :=
  if c1 = ch 'x' || c1 = ch 'X' then some isHexDigit
  else if c1 = ch 'b' || c1 = ch 'B' then some fun c => c = ch '0' || c = ch '1'
  else if c1 = ch 'o' || c1 = ch 'O' then some fun c => ch '0' ≤ c && c ≤ ch '7'
  else none

def lexNumber (intern : Intern π) (l : LexCursor π) : Option (LexCursor π) :=
  match if l.curr = ch '0' then basePredicate (l.peekAt 1) else none with
  | some digit =>
      (scanWhile (fun l => digit l.curr || l.curr = ch '_') l.advance.advance).map (·.emitInterned intern .intLit)
  | none =>
      (scanDecimalDigits l).bind fun l => (scanFraction l).bind fun (fraction, l) =>
        (scanExponent l).map fun (exponent, l) =>
          l.emitInterned intern (if fraction || exponent then .floatLit else .intLit)

def isSimpleEscape (esc : UInt8) : Bool :=
  esc = backslash || esc = doubleQuote || esc = singleQuote || esc = ch 'n' || esc = ch 't' || esc = ch 'r' || esc =
    ch '0'

/-- Up to two hex digits; a missing one is diagnosed and skipped. -/
def hexEscape (l : LexCursor π) : LexCursor π :=
  if isHexDigit l.curr then
    let l := l.advance
    if isHexDigit l.curr then l.advance else l
  else l

/-- One turn over the body of a quoted literal: leaves with whether it was
closed. -/
def quotedTurn (quote : UInt8) (l : LexCursor π) : LexCursor π ⊕ Bool × LexCursor π :=
  if l.curr = quote then .inr (true, l.advance)
  else if l.curr = 0 || isBreak l.curr then .inr (false, l)
  else if l.curr = backslash then
    let l := l.advance
    if isSimpleEscape l.curr then .inl l.advance
    else if l.curr = ch 'x' then .inl (hexEscape l.advance)
    else if l.curr = 0 then .inr (false, l)
    else .inl l.advance
  else .inl l.advance

def scanQuoted (quote : UInt8) (l : LexCursor π) : Option (Bool × LexCursor π) :=
  scan (fun s : Unit × LexCursor π => (quotedTurn quote s.2).map (fun l => ((), l)) id) () l.advance

def innerText (width : Nat) (l : LexCursor π) : Bytes :=
  let total := l.pos - l.tokStart
  if total < 2 * width then [] else l.lexeme (l.tokStart + width) (total - 2 * width)

def lexQuoted (intern : Intern π) (quote : UInt8) (kind : SyntaxKind) (l : LexCursor π) : Option (LexCursor π) :=
  (scanQuoted quote l).map fun (closed, l) =>
    if closed then l.emitText intern kind (innerText 1 l) else l.emitPlain .lexError

def lexString (intern : Intern π) : LexCursor π → Option (LexCursor π) := lexQuoted intern doubleQuote .stringLit
def lexByteLit (intern : Intern π) : LexCursor π → Option (LexCursor π) := lexQuoted intern singleQuote .byteLit

def lexLineComment (intern : Intern π) (l : LexCursor π) : Option (LexCursor π) :=
  (scanWith advance (fun l => l.curr ≠ 0 && !isBreak l.curr) (l.advanceBy 2)).map (·.emitInterned intern .comment)

def passByte (l : LexCursor π) : LexCursor π :=
  if l.curr = lineFeed then l.advance.recordLineStart
  else if l.curr = carriageReturn then
    let l := l.advance
    (if l.curr = lineFeed then l.advance else l).recordLineStart
  else l.advance

/-- Block comments nest. -/
def blockCommentTurn (intern : Intern π) (depth : Nat) (l : LexCursor π) : (Nat × LexCursor π) ⊕ LexCursor π :=
  if l.curr = 0 then .inr (l.emitPlain .lexError)
  else if l.curr = ch '/' && l.peekAt 1 = ch '*' then .inl (depth + 1, l.advanceBy 2)
  else if l.curr = ch '*' && l.peekAt 1 = ch '/' then
    if depth = 1 then .inr ((l.advanceBy 2).emitInterned intern .comment) else .inl (depth - 1, l.advanceBy 2)
  else .inl (depth, passByte l)

def lexBlockComment (intern : Intern π) (l : LexCursor π) : Option (LexCursor π) :=
  scan (fun s : Nat × LexCursor π => blockCommentTurn intern s.1 s.2) 1 (l.advanceBy 2)

def atAsmQuote (l : LexCursor π) : Bool := l.curr = backQuote && l.peekAt 1 = backQuote && l.peekAt 2 = backQuote

def asmTurn (intern : Intern π) (l : LexCursor π) : LexCursor π ⊕ LexCursor π :=
  if l.curr = 0 then .inr (l.emitPlain .lexError)
  else if atAsmQuote l then
    let l := l.advanceBy 3
    .inr (l.emitText intern .asmLit (innerText 3 l))
  else .inl (passByte l)

def lexAsmLit (intern : Intern π) (l : LexCursor π) : Option (LexCursor π) :=
  scan (fun s : Unit × LexCursor π => (asmTurn intern s.2).map (fun l => ((), l)) id) () (l.advanceBy 3)

def eightSpaces (l : LexCursor π) : Bool :=
  l.pos + 8 ≤ l.source.length && (List.range 8).all fun k => l.peekAt k = ch ' '

/-- Whole runs of eight spaces first, then one by one. -/
def lexSpaces (l : LexCursor π) : Option (LexCursor π) :=
  (scanWith (·.bump 8) eightSpaces l).bind fun l =>
    (scanWith advance (·.curr = ch ' ') l).map (·.emitPlain .whitespace)

def lexNewline (l : LexCursor π) : LexCursor π :=
  let l := if l.curr = carriageReturn then
      let l := l.advance
      if l.curr = lineFeed then l.advance else l
    else l.advance
  (l.emitPlain .newline).recordLineStart

/-- An operator and its longer forms: the first that matches the next byte. -/
def lexOperator (l : LexCursor π) (kind : SyntaxKind) (longer : List (UInt8 × SyntaxKind)) : LexCursor π :=
  let l := l.advance
  match longer.find? fun c => c.1 = l.curr with
  | some c => l.advance.emitPlain c.2
  | none => l.emitPlain kind

def delimiters : List (UInt8 × SyntaxKind) :=
  [(40, .lparen), (41, .rparen), (91, .lbracket), (93, .rbracket), (123, .lbrace), (125, .rbrace), (59, .semi),
    (44, .comma), (64, .atSign), (35, .hash), (63, .question), (94, .caret)]

def operators : List (UInt8 × SyntaxKind × List (UInt8 × SyntaxKind)) :=
  [(ch '~', .tilde, [(ch '=', .tildeEq)]),
    (ch '+', .plus, [(ch '=', .plusEq), (ch '+', .plusPlus)]),
    (ch '-', .minus, [(ch '>', .rarrow), (ch '=', .minusEq), (ch '-', .minusMinus)]),
    (ch '*', .star, [(ch '=', .starEq), (ch '*', .starStar)]),
    (ch '%', .percent, [(ch '=', .percentEq)]),
    (ch '&', .amp, [(ch '&', .ampAmp), (ch '=', .ampEq)]),
    (ch '|', .pipe, [(ch '|', .pipePipe), (ch '=', .pipeEq)]),
    (ch '!', .bang, [(ch '=', .bangEq)]),
    (ch '=', .eq, [(ch '=', .eqEq), (ch '>', .fatarrow)]),
    (ch '<', .lt, [(ch '=', .le), (ch '<', .shl), (ch '-', .larrow)]),
    (ch '>', .gt, [(ch '=', .ge), (ch '>', .shr)]),
    (ch '/', .slash, [(ch '=', .slashEq)])]

def lexColon (l : LexCursor π) : Option (LexCursor π) :=
  let l := l.advance
  if l.curr = ch ':' then some (l.advance.emitPlain .colonColon)
  else if l.curr = ch '=' then some (l.advance.emitPlain .colonEq)
  else if isIdStart l.curr then (scanWhile atIdCont l).map (·.emitPlain .label)
  else some (l.emitPlain .colon)

def lexDot (l : LexCursor π) : LexCursor π :=
  let l := l.advance
  if l.curr = ch '.' then
    lexOperator l .dotDot [(ch '.', .dotDotDot), (ch '<', .dotDotLt), (ch '=', .dotDotEq)]
  else l.emitPlain .dot

def scanOne (intern : Intern π) (l : LexCursor π) : Option (LexCursor π) :=
  let c := l.curr
  if isDigit c then lexNumber intern l
  else if isIdStart c then lexIdentifierOrKeyword intern l
  else if c = ch ' ' then lexSpaces l
  else if isBreak c then some (lexNewline l)
  else if c = doubleQuote then lexString intern l
  else if c = singleQuote then lexByteLit intern l
  else if c = backQuote && atAsmQuote l then lexAsmLit intern l
  else if c = ch ':' then lexColon l
  else if c = ch '.' then some (lexDot l)
  else if c = ch '/' && l.peekAt 1 = ch '/' then lexLineComment intern l
  else if c = ch '/' && l.peekAt 1 = ch '*' then lexBlockComment intern l
  else match delimiters.find? fun d => d.1 = c with
    | some d => some (lexOperator l d.2 [])
    | none => match operators.find? fun o => o.1 = c with
      | some o => some (lexOperator l o.2.1 o.2.2)
      | none => some (l.advance.emitPlain .lexError)

/-- A byte order mark is not part of the text. -/
def bomLength (source : Bytes) : Nat := if [0xEF, 0xBB, 0xBF].isPrefixOf source then 3 else 0

def lexBegin (source : Bytes) (pool : π) : LexCursor π where
  source := source
  pos := bomLength source
  tokStart := 0
  pool := pool
  lineStarts := [bomLength source]
  pending := ⟨.none, 0, 0, 0⟩
  eofEmitted := false

def lexNext (intern : Intern π) (l : LexCursor π) : Option (LexCursor π) :=
  if l.eofEmitted then some l
  else if l.source.length ≤ l.pos then some { { l with tokStart := l.pos }.emitPlain .eof with eofEmitted := true }
  else scanOne intern { l with tokStart := l.pos }

def pulled (l l' : LexCursor π) : Lexed := ⟨l'.pending, l'.lineStarts.drop l.lineStarts.length⟩

def lexTurn (intern : Intern π) (s : List Lexed × LexCursor π) :
    (List Lexed × LexCursor π) ⊕ Option (List Lexed × LexCursor π) :=
  match lexNext intern s.2 with
  | none => .inr none
  | some l =>
      if l.pending.kind = .eof then .inr (some (s.1 ++ [pulled s.2 l], l)) else .inl (s.1 ++ [pulled s.2 l], l)

def lexPulls (intern : Intern π) (source : Bytes) (pool : π) : Option (List Lexed × LexCursor π) :=
  (Loop.run (lexTurn intern) (source.length + 2) ([], lexBegin source pool)).join

/-- The batch form: all tokens, and the line table. -/
def lex (intern : Intern π) (source : Bytes) (pool : π) : Option (List Token × List Nat) :=
  (lexPulls intern source pool).map fun (pulls, l) => (pulls.map (·.tok), l.lineStarts)

end Ore.Lexer
