import Ore.GreenBuilder
import Ore.LexerTiling

namespace Ore.ParserCursor

open SyntaxKinds GreenTree GreenBuilder
open WorkspaceModel (Bytes)

/-- The string ids of the contextual keywords. -/
structure ParserKws where
  named : Nat
  scopedKw : Nat
  pub : Nat
  pvt : Nat
  abstractKw : Nat
  distinctKw : Nat
  bitField : Nat
  linear : Nat
  ctl : Nat
  val : Nat
  finalCtl : Nat
  direct : Nat
  overrideKw : Nat
  inKw : Nat

structure ParseError where
  tokPos : Nat
  msg : String
  deriving DecidableEq, Repr

structure Parser where
  gb : Builder Green
  pos : Nat
  errors : List ParseError
  parsingType : Bool
  noTrailingLambda : Bool
  fixCount : Nat
  inRecovery : Bool

/-- The functions that the others recurse through. -/
inductive Call
  | expr (precedence : Nat)
  | primary
  | ifExpr
  deriving DecidableEq, Repr

/-- The input of a parse, and the recursive calls. -/
structure Context where
  tokens : List Token
  source : Bytes
  kws : ParserKws
  call : Call → Parser → Option Parser

/-- A piece of the parser. A failed assertion, or a recursion without end, is
`none`. -/
def Parse (α : Type) := Context → Parser → Option (α × Parser)

instance : Monad Parse where
  pure a := fun _ p => some (a, p)
  bind m f := fun c p => (m c p).bind fun (a, p) => f a c p

section Reading

variable (c : Context) (p : Parser)

/-- Past the end, the last token is read. -/
def current : Option Token := c.tokens[p.pos]?.or c.tokens.getLast?

def peek : SyntaxKind := ((current c p).map (·.kind)).getD .eof

def isEof : Bool := peek c p = .eof

def logicalIndex (tokens : List Token) : Nat → Nat → Nat
  | 0, i => i
  | offset + 1, i =>
      if i < tokens.length then
        logicalIndex tokens offset (i + 1 + ((tokens.drop (i + 1)).takeWhile fun t => tokenIsTrivia t.kind).length)
      else i

def peekAt (offset : Nat) : SyntaxKind :=
  (((c.tokens[logicalIndex c.tokens offset p.pos]?).or c.tokens.getLast?).map (·.kind)).getD .eof

/-- A brace or semicolon that is asked for may be a virtual one. -/
def kindMatchesWithVirtual (asked cur : SyntaxKind) : Bool :=
  asked = cur || (asked = .lbrace && cur = .virtualLbrace) || (asked = .rbrace && cur = .virtualRbrace) ||
    (asked = .semi && cur = .virtualSemi)

def check (kind : SyntaxKind) : Bool := kindMatchesWithVirtual kind (peek c p)

def tokIsKw (t : Option Token) (kw : Nat) : Bool := t.any fun t => t.kind = .ident && t.stringId = kw

def atKw (kw : ParserKws → Nat) : Bool := tokIsKw (current c p) (kw c.kws)

end Reading

def kindIsOpenBrace (k : SyntaxKind) : Bool := k = .lbrace || k = .virtualLbrace
def kindIsCloseBrace (k : SyntaxKind) : Bool := k = .rbrace || k = .virtualRbrace
def kindIsStmtSep (k : SyntaxKind) : Bool := k = .semi || k = .virtualSemi

def leafOf (source : Bytes) (t : Token) : GreenToken := ⟨t.kind, LexerTiling.text source t⟩

def ask {α : Type} (f : Context → Parser → α) : Parse α := fun c p => some (f c p, p)

def test (f : Context → Parser → Bool) : Parse Bool := ask f

def update (f : Context → Parser → Parser) : Parse Unit := fun c p => some ((), f c p)

def call (k : Call) : Parse Unit := fun c p => (c.call k p).map fun p => ((), p)

def guarded (test : Parse Bool) (m : Parse Unit) : Parse Unit := do
  if ← test then m else pure ()

def rounds {σ : Type} (turn : σ → Parse (Option σ)) : Nat → σ → Parse Unit
  | 0, _ => fun _ _ => none
  | n + 1, a => do
    match ← turn a with
    | some a => rounds turn n a
    | none => pure ()

/-- A loop with a variable. Each turn that goes on has to consume a token. -/
def loopFrom {σ : Type} (turn : σ → Parse (Option σ)) (a : σ) : Parse Unit := fun c p =>
  rounds turn (c.tokens.length - p.pos + 1) a c p

def repeatWhile (body : Parse Bool) : Parse Unit := loopFrom
    (fun _ => do if ← body then pure (some ()) else pure none) ()

def startNode (kind : SyntaxKind) : Parse Unit := update fun _ p => { p with gb := p.gb.startNode kind }

def startNodeAt (checkpoint : Nat) (kind : SyntaxKind) : Parse Unit := fun _ p =>
  (p.gb.startNodeAt checkpoint kind).map fun gb => ((), { p with gb := gb })

def finishNode : Parse Unit := fun _ p => (buildTree p.gb .finishNode).map fun gb => ((), { p with gb := gb })

/-- `p_start_node` and `p_finish_node` around a piece. -/
def node {α : Type} (kind : SyntaxKind) (body : Parse α) : Parse α := do
  startNode kind
  let a ← body
  finishNode
  pure a

def nodeAt {α : Type} (checkpoint : Nat) (kind : SyntaxKind) (body : Parse α) : Parse α := do
  startNodeAt checkpoint kind
  let a ← body
  finishNode
  pure a

def pCheckpoint : Parse Nat := ask fun _ p => p.gb.children.length

/-- The kinds of the open nodes, outermost first. -/
def openKinds (p : Parser) : List SyntaxKind := p.gb.parents.reverse.map (·.1)

def emitToken (c : Context) (gb : Builder Green) (t : Token) : Builder Green := gb.push (.token (leafOf c.source t))

/-- The trivia at the cursor goes into the open node. -/
def skipTrivia : Parse Unit := update fun c p =>
  let run := (c.tokens.drop p.pos).takeWhile fun t => tokenIsTrivia t.kind
  { p with gb := run.foldl (emitToken c) p.gb, pos := p.pos + run.length }

/-- The token at the cursor goes into the open node. A separator or closing
brace ends the broken unit. -/
def takeToken : Parse Unit := update fun c p =>
  match current c p with
  | none => p
  | some t =>
      { p with gb := emitToken c p.gb t, pos := p.pos + 1,
               inRecovery := if kindIsStmtSep t.kind || kindIsCloseBrace t.kind then false else p.inRecovery }

/-- At the end nothing moves. -/
def pAdvance : Parse Unit := do
  if ← test isEof then pure ()
  else do
    takeToken
    skipTrivia

def pPeek : Parse SyntaxKind := ask peek
def pPeekAt (offset : Nat) : Parse SyntaxKind := ask fun c p => peekAt c p offset
def pCheck (kind : SyntaxKind) : Parse Bool := ask fun c p => check c p kind
def pAtKw (kw : ParserKws → Nat) : Parse Bool := ask fun c p => atKw c p kw
def pIsEof : Parse Bool := ask isEof
def pPos : Parse Nat := ask fun _ p => p.pos

def pMatch (kind : SyntaxKind) : Parse Bool := do
  if ← pCheck kind then do
    pAdvance
    pure true
  else pure false

def pMatchKw (kw : ParserKws → Nat) : Parse Bool := do
  if ← pAtKw kw then do
    pAdvance
    pure true
  else pure false

/-- Only the first error of a broken unit is kept. -/
def pError (msg : String) : Parse Unit := update fun _ p =>
  if p.inRecovery then p else { p with errors := p.errors ++ [⟨p.pos, msg⟩], inRecovery := true }

def pConsume (kind : SyntaxKind) (msg : String) : Parse Bool := do
  if ← pMatch kind then pure true
  else do
    pError msg
    pure false

def expect (kind : SyntaxKind) (msg : String) : Parse Unit := do
  let _ ← pConsume kind msg
  pure ()

/-- The tokens at which a recovery may stop. -/
inductive Sync
  | semi | rbrace | rparen | rbracket | gt | comma | pipe | lbrace
  deriving DecidableEq, Repr

def Sync.stops (k : SyntaxKind) : Sync → Bool
  | .semi => kindMatchesWithVirtual .semi k
  | .rbrace => kindMatchesWithVirtual .rbrace k
  | .rparen => k = .rparen
  | .rbracket => k = .rbracket
  | .gt => k = .gt
  | .comma => k = .comma
  | .pipe => k = .pipe
  | .lbrace => kindIsOpenBrace k

def atSync (sync : List Sync) (c : Context) (p : Parser) : Bool := sync.any (Sync.stops (peek c p))

def parseFixCap : Nat := 1000

def skipOne : Parse Unit := do
  pAdvance
  update fun _ p => { p with fixCount := p.fixCount + 1 }

def recoverTurn (sync : List Sync) : Parse Bool := do
  if ← test fun c p => !isEof c p && !atSync sync c p && p.fixCount < parseFixCap then do
    skipOne
    pure true
  else pure false

/-- The run of unexpected tokens up to a sync token becomes an error node. -/
def pRecover (sync : List Sync) (msg : String) : Parse Unit := do
  guarded (test fun _ p => p.fixCount < parseFixCap) (pError msg)
  node .errorNode do
    let start ← pPos
    repeatWhile (recoverTurn sync)
    guarded (test fun c p => p.pos = start && !isEof c p) skipOne

def syncOf : SyntaxKind → List Sync
  | .argList => [.rparen, .comma]
  | .paramList => [.rparen, .comma, .lbrace]
  | .effectRowType | .effectLabelList => [.gt, .comma]
  | .initList | .switchPatternList => [.comma]
  | _ => []

def computeSync (p : Parser) : List Sync := [.semi, .rbrace] ++ (openKinds p).flatMap syncOf

def pRecoverAuto (msg : String) : Parse Unit := do
  pRecover (← ask fun _ p => computeSync p) msg

/-- A piece after which the cursor has to have moved. -/
def recoverIfStuck (msg : String) (body : Parse Unit) : Parse Unit := do
  let before ← pPos
  body
  guarded (test fun _ p => p.pos = before) (pRecoverAuto msg)

/-- A piece in type position, or outside it. -/
def withParsingType {α : Type} (b : Bool) (body : Parse α) : Parse α := do
  let saved ← ask fun _ p => p.parsingType
  update fun _ p => { p with parsingType := b }
  let a ← body
  update fun _ p => { p with parsingType := saved }
  pure a

/-- A piece with trailing thunks switched on or off. -/
def withNoTrailingLambda {α : Type} (b : Bool) (body : Parse α) : Parse α := do
  let saved ← ask fun _ p => p.noTrailingLambda
  update fun _ p => { p with noTrailingLambda := b }
  let a ← body
  update fun _ p => { p with noTrailingLambda := saved }
  pure a

def commaSeparated (stop : SyntaxKind) (item : Parse Unit) : Parse Unit := repeatWhile do
  if ← test fun c p => !isEof c p && peek c p ≠ stop then do
    item
    pMatch .comma
  else pure false

def untilRbrace (turn : Parse Bool) : Parse Unit := repeatWhile do
  if ← test fun c p => !isEof c p && !check c p .rbrace then turn else pure false

end Ore.ParserCursor
