import Ore.Loop
import Ore.SyntaxKinds

namespace Ore.LayoutStream

open SyntaxKinds

/-- What one pull of the lexer cursor yields: a raw token, and the line
starts recorded while it was scanned. -/
structure Lexed where
  tok : Token
  lines : List Nat
  deriving DecidableEq, Repr

/-- The forward cursor over the line table, in 32-bit arithmetic. Returns the
one-based column and the moved cursor. -/
def colAdvance (byteStart : Nat) (lineStarts : List Nat) (cur : Nat) : Nat × Nat :=
  if lineStarts.length = 0 then (1, cur)
  else
    let c := cur + ((lineStarts.drop (cur + 1)).takeWhile (· ≤ byteStart)).length
    ((byteStart + 2 ^ 32 - lineStarts.getD c 0 + 1) % 2 ^ 32, c)

def shouldEmitSemicolon : SyntaxKind → Bool
  | .lbrace | .virtualLbrace | .semi | .virtualSemi | .eof => false
  | _ => true

def isStartContinuation : SyntaxKind → Bool
  | .star | .starStar | .slash | .percent | .eqEq | .bangEq | .le | .ge | .ampAmp | .pipePipe | .pipe | .caret
  | .shl | .shr | .plusEq | .minusEq | .starEq | .slashEq | .percentEq | .eq | .ampEq | .pipeEq | .tildeEq
  | .orelseKw | .comma | .lbrace | .virtualLbrace | .rparen | .rbracket | .rbrace | .virtualRbrace | .elseKw
  | .elifKw | .rarrow | .colon | .dotDot | .colonEq | .gt => true
  | _ => false

def isEndContinuation : SyntaxKind → Bool
  | .plus | .minus | .star | .starStar | .slash | .percent | .eqEq | .bangEq | .le | .ge | .ampAmp | .pipePipe
  | .amp | .pipe | .caret | .shl | .shr | .plusEq | .minusEq | .starEq | .slashEq | .percentEq | .eq | .ampEq
  | .pipeEq | .tildeEq | .orelseKw | .comma | .lbrace | .virtualLbrace | .lparen | .lbracket | .dot | .lt => true
  | _ => false

def isExprContinuation (prev cur : SyntaxKind) : Bool := isStartContinuation cur || isEndContinuation prev

inductive FrameKind
  | root | layout | explicit
  deriving DecidableEq, Repr

structure LayoutFrame where
  indent : Nat
  kind : FrameKind
  deriving DecidableEq, Repr

def maxFrames : Nat := 256
def triviaScratch : Nat := 256
def indentUnresolved : Nat := 0

/-- The locals of the driver. `frames` has its top first; `lineStarts` is the
table the lexer is still filling. -/
structure State where
  outTokens : List Token
  frames : List LayoutFrame
  current : LayoutFrame
  prevKind : SyntaxKind
  prevByteEnd : Nat
  newlineSeen : Bool
  lineCur : Nat
  triviaBuf : List Token
  lineStarts : List Nat
  deriving DecidableEq, Repr

/-- The two assertions on the fixed-size buffers. -/
inductive Overflow
  | frames | trivia
  deriving DecidableEq, Repr

def emitSynthetic (s : State) (kind : SyntaxKind) : State :=
  { s with outTokens := s.outTokens ++ [⟨kind, 0, s.prevByteEnd, s.prevByteEnd⟩] }

def emitSemicolon (s : State) : State :=
  if shouldEmitSemicolon s.prevKind then emitSynthetic s .virtualSemi else s

/-- Flush the pending trivia, then push the token. -/
def emitReal (s : State) (tok : Token) : State :=
  { s with outTokens := s.outTokens ++ s.triviaBuf ++ [tok], triviaBuf := [] }

/-- The bookkeeping after a real token went out. -/
def advance (s : State) (tok : Token) : State :=
  { s with prevKind := tok.kind, prevByteEnd := tok.byteEnd, newlineSeen := false }

def pushFrame (s : State) (frame : LayoutFrame) : Except Overflow State :=
  if s.frames.length < maxFrames then .ok { s with frames := s.current :: s.frames, current := frame }
  else .error .frames

def popFrame (s : State) : State :=
  match s.frames with
  | [] => s
  | frame :: frames => { s with current := frame, frames := frames }

/-- Rule (4): close the layouts inside the innermost explicit frame. -/
def closeLayouts : List LayoutFrame → State → State
  | [], s => s
  | frame :: frames, s =>
      if s.current.kind = .layout then
        closeLayouts frames { emitSynthetic s .virtualRbrace with current := frame, frames := frames }
      else s

/-- End of file: close every open frame. -/
def closeAll : List LayoutFrame → State → State
  | [], s => s
  | frame :: frames, s =>
      closeAll frames
        { emitSynthetic (emitSynthetic s .virtualRbrace) .virtualSemi with current := frame, frames := frames }

/-- One turn of the re-examination loop on the held token: `inl` examines the
same token again, `inr` goes on to the next raw token. -/
def examine (held : Token) (s : State) : State ⊕ Except Overflow State :=
  let (indent, lineCur) := colAdvance held.start s.lineStarts s.lineCur
  let s := { s with lineCur := lineCur }
  let layoutCol := s.current.indent
  if s.newlineSeen ∧ indent > layoutCol ∧ !isExprContinuation s.prevKind held.kind then
    match pushFrame (emitSynthetic s .virtualLbrace) ⟨indent, .layout⟩ with
    | .ok s => .inl { s with prevKind := .virtualLbrace, newlineSeen := false }
    | .error e => .inr (.error e)
  else if s.newlineSeen ∧ indent < layoutCol ∧ ¬ (held.kind = .rbrace ∧ s.current.kind = .explicit) then
    .inl { popFrame (emitSynthetic (emitSemicolon s) .virtualRbrace) with prevKind := .virtualRbrace }
  else if held.kind = .lbrace then
    match pushFrame (emitReal s held) ⟨indentUnresolved, .explicit⟩ with
    | .ok s => .inr (.ok (advance s held))
    | .error e => .inr (.error e)
  else if held.kind = .rbrace then
    .inr (.ok (advance (popFrame (emitReal (emitSemicolon (closeLayouts s.frames s)) held)) held))
  else if s.newlineSeen ∧ indent = layoutCol ∧ !isExprContinuation s.prevKind held.kind then
    .inr (.ok (advance (emitReal (emitSemicolon s) held) held))
  else .inr (.ok (advance (emitReal s held) held))

/-- Each turn that repeats either opens a block and then sees no new line, or
pops a frame. -/
def examineLoop (held : Token) (s : State) : Option (Except Overflow State) :=
  Loop.run (examine held) (s.frames.length + 3) s

/-- The first non-trivia token after an explicit brace fixes its column. -/
def resolveIndent (held : Token) (s : State) : State :=
  if s.current.kind = .explicit ∧ s.current.indent = indentUnresolved then
    let (indent, lineCur) := colAdvance held.start s.lineStarts s.lineCur
    { s with current := ⟨indent, s.current.kind⟩, lineCur := lineCur }
  else s

def finishEof (held : Token) (s : State) : List Token :=
  let s := emitSemicolon s
  (emitReal (closeAll s.frames s) held).outTokens

/-- The driver over the raw tokens still to be pulled. A stream without an end
token, or a re-examination that never ends, is `none`. -/
def layoutLoop : List Lexed → State → Option (Except Overflow (List Token))
  | [], _ => none
  | ⟨held, lines⟩ :: rest, s =>
      let s := { s with lineStarts := s.lineStarts ++ lines }
      if tokenIsTrivia held.kind then
        let s := { s with newlineSeen := s.newlineSeen || held.kind == SyntaxKind.newline }
        if s.triviaBuf.length < triviaScratch then
          layoutLoop rest { s with triviaBuf := s.triviaBuf ++ [held] }
        else some (.error .trivia)
      else
        let s := resolveIndent held s
        if held.kind = .eof then some (.ok (finishEof held s))
        else if held.kind = .lexError then layoutLoop rest (advance (emitReal s held) held)
        else match examineLoop held s with
          | none => none
          | some (.error e) => some (.error e)
          | some (.ok s) => layoutLoop rest s

def initial (lineStart : Nat) (raw : List Lexed) : State where
  outTokens := []
  frames := []
  current := ⟨1, .root⟩
  prevKind := .eof
  prevByteEnd := (raw.head?.map (·.tok.start)).getD 0
  newlineSeen := false
  lineCur := 0
  triviaBuf := []
  lineStarts := [lineStart]

/-- The layout pass over the stream of a cursor whose first line starts at
`lineStart`. -/
def layoutStream (lineStart : Nat) (raw : List Lexed) : Option (Except Overflow (List Token)) :=
  layoutLoop raw (initial lineStart raw)

end Ore.LayoutStream
