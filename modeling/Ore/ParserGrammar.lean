import Ore.ParserCursor

namespace Ore.ParserGrammar

open SyntaxKinds GreenTree GreenBuilder ParserCursor
open WorkspaceModel (Bytes)

def precNone : Nat := 0
def precBind : Nat := 1
def precLambda : Nat := 2
def precAssign : Nat := 3
def precOr : Nat := 4
def precAnd : Nat := 5
def precEquality : Nat := 6
def precComparison : Nat := 7
def precRange : Nat := 8
def precBitwise : Nat := 9
def precShift : Nat := 10
def precTerm : Nat := 11
def precFactor : Nat := 12
def precPower : Nat := 13
def precUnary : Nat := 14
def precPostfix : Nat := 15

def getInfixPrecedence : SyntaxKind → Nat
  | .eq | .plusEq | .minusEq | .starEq | .slashEq | .percentEq | .ampEq | .pipeEq | .tildeEq => precAssign
  | .pipePipe | .orelseKw => precOr
  | .ampAmp => precAnd
  | .eqEq | .bangEq => precEquality
  | .lt | .le | .gt | .ge => precComparison
  | .dotDotLt | .dotDotEq => precRange
  | .pipe | .amp | .tilde => precBitwise
  | .shl | .shr => precShift
  | .plus | .minus => precTerm
  | .star | .slash | .percent => precFactor
  | .starStar => precPower
  | _ => precNone

def isRightAssociative : SyntaxKind → Bool
  | .starStar | .eq | .plusEq | .minusEq | .starEq | .slashEq | .percentEq | .ampEq | .pipeEq | .tildeEq => true
  | _ => false

def kindIsAssignOpToken : SyntaxKind → Bool
  | .eq | .plusEq | .minusEq | .starEq | .slashEq | .percentEq | .pipeEq | .ampEq | .tildeEq | .colonEq => true
  | _ => false

def isRangeOp (k : SyntaxKind) : Bool := k = .dotDotLt || k = .dotDotEq

def isBindOp (k : SyntaxKind) : Bool := k = .colonColon || k = .colonEq || k = .colon

def parseExprAt (precedence : Nat) : Parse Unit := call (.expr precedence)

/-- A bracket group behind a type is consumed. -/
def skipGroup : Parse Unit := loopFrom (fun depth => do
    if ← test fun c p => 0 < depth && !isEof c p then do
      let k ← pPeek
      pAdvance
      pure (some (if k = .lt then depth + 1 else if k = .gt then depth - 1 else depth))
    else pure none) 1

def parseTypeExpr : Parse Unit := withParsingType true do
  parseExprAt precBitwise
  guarded (test fun c p => p.parsingType && peek c p = .lt) do
    pError "generic type application is not supported (ore has no generics)"
    pAdvance
    skipGroup

def parseQualifiedType (kind : SyntaxKind) : Parse Unit := node kind do
  pAdvance
  expect .ident "expected a type name after the type keyword"

def parseDistinctType : Parse Unit := node .distinctType do
  pAdvance
  parseTypeExpr

def bitFieldTurn : Parse Bool := do
  if ← pCheck .ident then do
    node .bitField do
      pAdvance
      expect .colon "expected ':' after field name"
      parseTypeExpr
      guarded (pConsume .pipe "expected '|' before bit width") (parseExprAt precBitwise)
    let _ ← pMatch .semi
    pure true
  else do
    pRecoverAuto "expected bit-field field name"
    pure true

def parseBitFieldType : Parse Unit := node .bitFieldType do
  pAdvance
  parseTypeExpr
  expect .lbrace "expected '\x7b' after bit-field backing type"
  withParsingType false (node .bitFieldList (untilRbrace bitFieldTurn))
  expect .rbrace "expected '\x7d' to close bit-field"

def isModifierKw (kws : ParserKws) (t : Token) : Bool :=
  t.kind = .comptimeKw || t.kind = .ident &&
    [kws.pub, kws.pvt, kws.abstractKw, kws.named, kws.scopedKw, kws.linear].contains t.stringId

def atModifierKw (c : Context) (p : Parser) : Bool := (current c p).any (isModifierKw c.kws)

/-- The type of a typed bind. The result says whether a value follows. -/
def bindType (bindOp : SyntaxKind) : Parse Bool := do
  if bindOp = .colon then do
    parseTypeExpr
    if ← pMatch .colon then pure true else pMatch .eq
  else pure true

def modifierTurn : Parse Bool := do
  if ← test atModifierKw then do
    pAdvance
    pure true
  else pure false

def bindValue : Parse Unit := do
  repeatWhile modifierTurn
  if ← test fun c p => atKw c p (·.distinctKw) || atKw c p (·.bitField) then parseTypeExpr
  else parseExprAt precBind

def emitBindDeclTail (bindOp : SyntaxKind) (lhsCp : Nat) (isDestructure : Bool) : Parse Unit :=
  nodeAt lhsCp (if isDestructure then .destructureDecl else .bindDecl) do
    pAdvance
    guarded (bindType bindOp) bindValue

def parseNamedBindDecl : Parse Unit := do
  let cp ← pCheckpoint
  pAdvance
  let bindOp ← pPeek
  emitBindDeclTail bindOp cp false

def parseBareDestructureTail (lhsCp : Nat) : Parse Unit := do
  nodeAt lhsCp .productExpr (repeatWhile do
    if ← pMatch .comma then do
      parseExprAt precNone
      pure true
    else pure false)
  let op ← pPeek
  if op = .colonColon || op = .colonEq then emitBindDeclTail op lhsCp true
  else pError "expected `::` or `:=` after comma-separated destructure targets"

def exprStmt : Parse Unit := do
  let cp ← pCheckpoint
  parseExprAt precNone
  guarded (test fun c p => peek c p = .comma) (parseBareDestructureTail cp)

def parseStmt : Parse Unit := do
  if ← test fun c p => peek c p = .ident && isBindOp (peekAt c p 1) then parseNamedBindDecl
  else exprStmt

def stmtTurn (stmtParser : Parse Unit) : Parse Bool := do
  recoverIfStuck "expected statement" do
    stmtParser
    let _ ← pMatch .semi
  pure true

def parseBlock (stmtParser : Parse Unit) : Parse Unit := node .blockStmt do
  let _ ← pMatch .label
  guarded (pConsume .lbrace "expected '\x7b' to start block") do
    node .stmtList (untilRbrace (stmtTurn stmtParser))
    expect .rbrace "expected '\x7d' to end block"

def parseBody (stmtParser : Parse Unit) : Parse Unit := do
  if ← test fun c p => check c p .label || check c p .lbrace || check c p .virtualLbrace then parseBlock stmtParser
  else parseExprAt precNone

def effectRowTail : Parse Unit := do
  match ← pPeek with
  | .dotDotDot => node .effectRowTail pAdvance
  | .dotDot => node .effectRowTail do
      pAdvance
      expect .ident "expected effect-variable name after '..'"
  | _ => pure ()

def effectLabelTurn : Parse Bool := do
  if ← test fun c p => !isEof c p && peek c p ≠ .gt && peek c p ≠ .dotDotDot && peek c p ≠ .dotDot then do
    parseTypeExpr
    pMatch .comma
  else pure false

def parseEffectRow : Parse Unit := node .effectRowType do
  expect .lt "expected '<' to start effect row"
  node .effectLabelList (repeatWhile effectLabelTurn)
  effectRowTail
  expect .gt "expected '>' to close effect row"

def parseParam (nameRequired : Bool) : Parse Unit := node .param do
  let _ ← pMatch .comptimeKw
  if nameRequired then
    guarded (pConsume .ident "expected parameter name") (guarded (pMatch .colon) parseTypeExpr)
  else parseTypeExpr

def atEffectRow : Parse Bool := ask fun c p => peek c p = .lt

def fnLambdaBodyStarts (c : Context) (p : Parser) : Bool :=
  !([SyntaxKind.rparen, .comma, .gt, .rbracket, .pipe, .eof].contains (peek c p) || kindIsStmtSep (peek c p) ||
    kindIsCloseBrace (peek c p))

def parseLambda (kind : SyntaxKind) : Parse Unit := node kind do
  pAdvance
  expect .lparen "expected '(' to start lambda parameters"
  node .paramList do
    commaSeparated .rparen (parseParam true)
    expect .rparen "expected ')' after parameters"
  guarded atEffectRow parseEffectRow
  guarded (pMatch .rarrow) parseTypeExpr
  guarded (test fnLambdaBodyStarts) (parseBody parseStmt)

def parseFnLambda : Parse Unit := parseLambda .lambdaExpr

def parseFnType : Parse Unit := node .fnType do
  pAdvance
  expect .lparen "expected '(' after Fn"
  node .paramList do
    commaSeparated .rparen (parseParam false)
    expect .rparen "expected ')'"
  guarded atEffectRow parseEffectRow
  guarded (pMatch .rarrow) parseTypeExpr

def emitTrailingThunkLambda : Parse Unit := do
  if ← test fun c p => peek c p = .fnKw then parseFnLambda
  else node .lambdaExpr do
    node .paramList (pure ())
    parseBody parseStmt

def isThunkStart (k : SyntaxKind) : Bool := k = .fnKw || k = .lbrace || k = .virtualLbrace

def atThunk (c : Context) (p : Parser) : Bool := !p.parsingType && !p.noTrailingLambda && isThunkStart (peek c p)

def infixCall (leftCp : Nat) : Parse Unit := nodeAt leftCp .callExpr (node .argList do
    pAdvance
    withNoTrailingLambda false (commaSeparated .rparen (parseExprAt precNone))
    expect .rparen "expected ')' after arguments"
    guarded (test atThunk) emitTrailingThunkLambda)

def sliceEnd (leftCp : Nat) : Parse Unit := do
  guarded (test fun c p => peek c p ≠ .rbracket) (parseExprAt precRange)
  expect .rbracket "expected ']' to close slice"
  nodeAt leftCp .sliceExpr (pure ())

def pMatchRangeOp : Parse Bool := do
  if ← pMatch .dotDotLt then pure true else pMatch .dotDotEq

def infixBracket (leftCp : Nat) : Parse Unit := do
  pAdvance
  if ← test fun c p => isRangeOp (peek c p) then do
    pError "open-left slice not allowed; write `[0..<hi]`"
    pAdvance
    sliceEnd leftCp
  else do
    parseExprAt precRange
    if ← pMatchRangeOp then sliceEnd leftCp
    else do
      expect .rbracket "expected ']' after index"
      nodeAt leftCp .indexExpr (pure ())

def parseInfix (op : SyntaxKind) (leftCp : Nat) : Parse Unit :=
  match op with
  | .lparen => infixCall leftCp
  | .fnKw | .lbrace | .virtualLbrace => nodeAt leftCp .callExpr (node .argList emitTrailingThunkLambda)
  | .lbracket => infixBracket leftCp
  | .dot => do
      let wrap ← ask fun _ p => if p.parsingType then SyntaxKind.pathType else .fieldExpr
      nodeAt leftCp wrap do
        pAdvance
        expect .ident "expected field name after '.'"
  | .caret | .question | .plusPlus | .minusMinus => nodeAt leftCp .postfixExpr pAdvance
  | _ => nodeAt leftCp (if kindIsAssignOpToken op then .assignExpr else .binExpr) do
      pAdvance
      parseExprAt (if isRightAssociative op then getInfixPrecedence op - 1 else getInfixPrecedence op)

def isTypePrefix (wrapKind : SyntaxKind) : Bool := wrapKind = .ptrType || wrapKind = .optionalType || wrapKind =
    .constType

def parsePrefixUnary (wrapKind : SyntaxKind) : Parse Unit := node wrapKind do
  pAdvance
  let typed ← ask fun _ p => isTypePrefix wrapKind || p.parsingType
  withParsingType typed (parseExprAt precUnary)

def parseReturnExpr : Parse Unit := node .returnStmt do
  pAdvance
  guarded (test fnLambdaBodyStarts) (parseBody parseStmt)

def parseDeferExpr : Parse Unit := node .deferStmt do
  pAdvance
  parseBody parseStmt

def parseOptionalLabel : Parse Unit := do
  let _ ← pMatch .label
  pure ()

def parseBreakOrContinue (wrapKind : SyntaxKind) : Parse Unit := node wrapKind do
  pAdvance
  parseOptionalLabel
  guarded (test fun c p => wrapKind = .breakStmt && fnLambdaBodyStarts c p) (parseBody parseStmt)

def parseOptionalCapture : Parse Unit := guarded (test fun c p => peek c p = .lt) (node .capture do
    pAdvance
    expect .ident "expected capture name after '<'"
    expect .gt "expected '>' after capture name")

/-- A condition: a brace after it opens the body. -/
def condition : Parse Unit := withNoTrailingLambda true (parseExprAt precNone)

def parseElse : Parse Unit := guarded (pMatch .elseKw) (parseBody parseStmt)

def parseIfExpr : Parse Unit := node .ifExpr do
  pAdvance
  expect .lparen "expected '(' after if"
  condition
  expect .rparen "expected ')' after if condition"
  parseOptionalCapture
  parseBody parseStmt
  if ← test fun c p => peek c p = .elifKw then call .ifExpr
  else parseElse

def loopContinue : Parse Unit := guarded (test fun c p => peek c p = .colon) (node .loopContinue do
    pAdvance
    expect .lparen "expected '(' after ':' continue-expr"
    condition
    expect .rparen "expected ')' after loop continue-expr")

def loopHeader : Parse Unit := guarded (pMatch .lparen) do
  condition
  expect .rparen "expected ')' after loop header"
  parseOptionalCapture
  loopContinue

def parseLoopExpr : Parse Unit := node .loopExpr do
  pAdvance
  parseOptionalLabel
  loopHeader
  parseBody parseStmt
  parseElse

def switchPattern : Parse Bool := do
  let patCp ← pCheckpoint
  parseExprAt (precBitwise + 1)
  guarded (test fun c p => isRangeOp (peek c p)) (nodeAt patCp .binExpr do
    pAdvance
    parseExprAt (precBitwise + 1))
  pMatch .comma

def switchArm : Parse Unit := node .switchArm do
  node .switchPatternList (repeatWhile switchPattern)
  expect .fatarrow "expected '=>' in switch arm"
  parseBody parseStmt

def switchTurn : Parse Bool := do
  recoverIfStuck "expected switch arm" do
    switchArm
    let _ ← pMatch .semi
  pure true

def parseSwitchExpr : Parse Unit := node .switchExpr do
  pAdvance
  expect .lparen "expected '(' after switch"
  condition
  expect .rparen "expected ')' after switch scrutinee"
  expect .lbrace "expected '\x7b' to open switch body"
  node .stmtList (untilRbrace switchTurn)
  expect .rbrace "expected '\x7d' to close switch"

def isAggregateKw (k : SyntaxKind) : Bool := k = .structKw || k = .unionKw || k = .enumKw

/-- A contextual `pub` in front of a field. -/
def optionalPub (isPub : Bool) : Parse Unit := guarded (pure isPub) pAdvance

def anonymousField (isPub : Bool) : Parse Unit := recoverIfStuck "expected field" do
  node .field do
    optionalPub isPub
    parseTypeExpr
  let _ ← pMatch .semi

/-- The result says whether there was a name. -/
def namedField (isPub : Bool) : Parse Bool := node .field do
  optionalPub isPub
  if ← pCheck .ident then do
    pAdvance
    expect .colon "expected ':' after field name"
    parseTypeExpr
    guarded (pMatch .eq) (parseExprAt precBitwise)
    pure true
  else do
    pRecoverAuto "expected field name"
    pure false

def fieldTurn : Parse Bool := do
  let isPub ← pAtKw (·.pub)
  let afterPub ← pPeekAt (if isPub then 1 else 0)
  if isAggregateKw afterPub then do
    anonymousField isPub
    pure true
  else do
    guarded (namedField isPub) do
      let _ ← pMatch .semi
    pure true

def parseAggregateExpr (kind : SyntaxKind) : Parse Unit := node kind do
  pAdvance
  expect .lbrace "expected '\x7b' after struct/union"
  node .fieldList (untilRbrace fieldTurn)
  expect .rbrace "expected '\x7d' to close struct/union"

def variantTurn : Parse Bool := do
  if ← pCheck .ident then do
    node .variant do
      pAdvance
      guarded (pMatch .eq) (parseExprAt precBitwise)
    let _ ← pMatch .semi
    pure true
  else do
    pRecoverAuto "expected variant name"
    pure true

def parseEnumExpr : Parse Unit := node .enumDecl do
  pAdvance
  expect .lbrace "expected '\x7b' after enum"
  node .variantList (untilRbrace variantTurn)
  expect .rbrace "expected '\x7d' to close enum"

def atFieldName (c : Context) (p : Parser) : Bool := peek c p = .dot && peekAt c p 1 = .ident

def initField : Parse Unit := node .initField do
  guarded (test atFieldName) do
    pAdvance
    pAdvance
    expect .eq "expected '=' after field name"
  parseExprAt precNone
  guarded (test fun c p => peek c p = .dotDotDot) pAdvance

def initTurn : Parse Bool := do
  let before ← pPos
  initField
  if ← pMatch .comma then do
    guarded (test fun _ p => p.pos = before) (pRecoverAuto "expected initializer field")
    pure true
  else pure false

def initList (closeMsg : String) : Parse Unit := node .initList do
  pAdvance
  untilRbrace initTurn
  repeatWhile (pMatch .semi)
  expect .rbrace closeMsg

def parseInitListBody : Parse Unit := initList "expected '\x7d' to close construction"

def parseStructConstruction : Parse Unit := node .productExpr do
  pAdvance
  node .refExpr (expect .ident "expected type name after `struct` keyword")
  if ← pCheck .lbrace then parseInitListBody
  else pError "expected '\x7b' to open struct construction"

def arrayLiteral (cp : Nat) : Parse Unit :=
  guarded (test fun c p => !p.parsingType && check c p .lbrace) (nodeAt cp .productExpr parseInitListBody)

def inferredArray : Parse Unit := do
  let cp ← pCheckpoint
  node .arrayType do
    pAdvance
    pAdvance
    pAdvance
    parseTypeExpr
  arrayLiteral cp

def sizedArray : Parse Unit := do
  let cp ← pCheckpoint
  node .arrayType do
    pAdvance
    withParsingType false (parseExprAt precBitwise)
    expect .rbracket "expected ']' after array size"
    parseTypeExpr
  arrayLiteral cp

def parseBracketExpr : Parse Unit := do
  if ← test fun c p => peekAt c p 1 = .caret then node .manyPtrType do
    pAdvance
    pAdvance
    expect .rbracket "expected ']' after '[^'"
    parseTypeExpr
  else do
    if ← test fun c p => peekAt c p 1 = .rbracket then node .sliceType do
      pAdvance
      pAdvance
      parseTypeExpr
    else do
      if ← test fun c p => peekAt c p 1 = .underscore && peekAt c p 2 = .rbracket then inferredArray
      else sizedArray

def parseDotExpr : Parse Unit := do
  match ← pPeekAt 1 with
  | .lbrace | .virtualLbrace => node .productExpr do
      pAdvance
      initList "expected '\x7d' to close product literal"
  | .ident => node .enumRefExpr do
      pAdvance
      pAdvance
  | _ => do
      pError "unexpected '.'"
      pAdvance

def parseBuiltinExpr : Parse Unit := node .builtinExpr do
  pAdvance
  guarded (pConsume .ident "expected builtin name after '@'") (guarded (pMatch .lparen) (node .argList do
    commaSeparated .rparen (parseExprAt precNone)
    expect .rparen "expected ')' after builtin args"))

def parseMaskExpr : Parse Unit := node .maskExpr do
  pAdvance
  parseEffectRow
  parseExprAt precNone

/-- The one clause that is no bind. -/
def returnClause : Parse Unit := node .returnClause do
  pAdvance
  expect .lparen "expected '(' after 'return' clause keyword"
  node .paramList (parseParam true)
  expect .rparen "expected ')' after return-clause param"
  parseBody parseStmt

def parseHandlerClauseStmt : Parse Unit := do
  if ← test fun c p => peek c p = .returnKw then returnClause
  else parseStmt

def parseHandlerClauses : Parse Unit := parseBlock parseHandlerClauseStmt

def parseHandlerExprX : Parse Unit := do
  guarded (pAtKw (·.overrideKw)) pAdvance
  guarded atEffectRow parseEffectRow
  parseHandlerClauses

def handleExpr : Parse Unit := do
  let outerCp ← pCheckpoint
  pAdvance
  node .argList do
    expect .lparen "expected '(' after handle"
    parseExprAt precNone
    expect .rparen "expected ')' after handle action"
  node .handlerExpr parseHandlerExprX
  nodeAt outerCp .callExpr (pure ())

def parseHandlerExpr : Parse Unit := do
  if ← test fun c p => peek c p = .handleKw then handleExpr
  else node .handlerExpr do
    pAdvance
    parseHandlerExprX

def atWithBinding (c : Context) (p : Parser) : Bool := peek c p = .ident && peekAt c p 1 = .colonEq

def atElidedHandler (c : Context) (p : Parser) : Bool :=
  peek c p = .lt ||
    (atKw c p (·.overrideKw) && (peekAt c p 1 = .lt || peekAt c p 1 = .lbrace || peekAt c p 1 = .virtualLbrace))

def isHeadPostfix (k : SyntaxKind) : Bool :=
  k = .dot || k = .lbracket || k = .caret || k = .question || k = .plusPlus || k = .minusMinus

def headTurn (headCp : Nat) : Parse Bool := do
  let tk ← pPeek
  if isHeadPostfix tk then do
    parseInfix tk headCp
    pure true
  else pure false

/-- The callee; parentheses and braces behind it are left to the call. -/
def withHead : Parse Unit := do
  let headCp ← pCheckpoint
  if ← test atElidedHandler then node .handlerExpr parseHandlerExprX
  else do
    call .primary
    repeatWhile (headTurn headCp)

def endsBlock (c : Context) (p : Parser) : Bool := kindIsCloseBrace (peekAt c p 1) || peekAt c p 1 = .eof

def withTailTurn : Parse Bool := do
  let before ← pPos
  parseStmt
  if ← test fun c p => check c p .semi && endsBlock c p then pure false
  else do
    let _ ← pMatch .semi
    guarded (test fun _ p => p.pos = before) (pRecoverAuto "expected statement")
    pure true

def withContinuation (hasTail : Bool) : Parse Unit := node .lambdaExpr do
  node .paramList (pure ())
  node .blockStmt (node .stmtList (guarded (pure hasTail) (untilRbrace withTailTurn)))

def withArgs : Parse Unit := guarded (pMatch .lparen) do
  commaSeparated .rparen (parseExprAt precNone)
  expect .rparen "expected ')' after with-call arguments"

def withBinding : Parse Unit := guarded (test atWithBinding) do
  node .param pAdvance
  pAdvance

def withCall (outerCp : Nat) : Parse Unit := nodeAt outerCp .callExpr (node .argList do
    withArgs
    let hasTail ← ask fun c p => !check c p .semi || !endsBlock c p
    guarded (pure hasTail) do
      let _ ← pMatch .semi
    withContinuation hasTail)

def parseWithStmt : Parse Unit := do
  let outerCp ← pCheckpoint
  pAdvance
  withBinding
  withHead
  withCall outerCp

def isOpKindKw (kws : ParserKws) (t : Token) : Bool :=
  t.kind = .ident && [kws.ctl, kws.val, kws.finalCtl, kws.direct].contains t.stringId

def opKind : Parse Unit := node .opKind do
  if ← test fun c p => (current c p).any (isOpKindKw c.kws) then pAdvance
  else pError "expected direct/ctl/val/final-ctl in op signature"

def opParams : Parse Unit := guarded (pMatch .lparen) (node .paramList do
    commaSeparated .rparen (parseParam true)
    expect .rparen "expected ')' after op params")

def opTypeStarts (c : Context) (p : Parser) : Bool :=
  !(kindIsStmtSep (peek c p) || kindIsCloseBrace (peek c p) || peek c p = .eof || peek c p = .comma)

def opSignature : Parse Unit := node .field do
  expect .ident "expected operation name"
  expect .colonColon "expected '::' in operation signature"
  opKind
  opParams
  guarded (test opTypeStarts) parseTypeExpr

def opTurn : Parse Bool := do
  recoverIfStuck "expected operation signature" do
    opSignature
    expect .semi "expected ';' after operation signature"
  pure true

def parseEffectDecl : Parse Unit := node .effectDecl do
  pAdvance
  guarded (pMatchKw (·.inKw)) parseTypeExpr
  expect .lbrace "expected '\x7b' to start effect body"
  node .fieldList (untilRbrace opTurn)
  expect .rbrace "expected '\x7d' to end effect body"

def lambdaIntroducer (c : Context) (p : Parser) : Option SyntaxKind :=
  if p.parsingType then none
  else if atKw c p (·.ctl) then some .ctlLambda
  else if atKw c p (·.finalCtl) then some .finalCtlLambda
  else if atKw c p (·.direct) then some .directLambda
  else none

def identExpr : Parse Unit := do
  match ← ask lambdaIntroducer with
  | some kind => parseLambda kind
  | none =>
      if ← test fun c p => p.parsingType && atKw c p (·.distinctKw) then parseDistinctType
      else do
        if ← test fun c p => p.parsingType && atKw c p (·.bitField) then parseBitFieldType
        else do
          let kind ← ask fun _ p => if p.parsingType then SyntaxKind.refType else .refExpr
          node kind pAdvance

def parenExpr : Parse Unit := node .parenExpr do
  pAdvance
  withNoTrailingLambda false (parseExprAt precNone)
  expect .rparen "expected ')' after expression"

def fnExpr : Parse Unit := do
  if ← test fun _ p => p.parsingType then do
    pError "expected type; lowercase 'fn' starts a lambda expression — use 'Fn' for a function type"
    pAdvance
  else parseFnLambda

def structExpr : Parse Unit := do
  if ← test fun c p => !p.parsingType && peekAt c p 1 = .ident then parseStructConstruction
  else parseAggregateExpr .structDecl

def handlerPrefix : Parse Unit := do
  if ← test fun _ p => p.parsingType then parseQualifiedType .handlerType
  else parseHandlerExpr

/-- What a token at the head of an expression starts. -/
def parsePrefixAt : SyntaxKind → Parse Unit
  | .intLit | .floatLit | .stringLit | .byteLit | .asmLit | .trueKw | .falseKw | .nilKw | .unreachableKw | .underscore
        =>
      node .literalExpr pAdvance
  | .ident => identExpr
  | .lparen => parenExpr
  | .label | .lbrace | .virtualLbrace => parseBlock parseStmt
  | .minus | .bang | .tilde | .amp => parsePrefixUnary .prefixExpr
  | .caret => parsePrefixUnary .ptrType
  | .question => parsePrefixUnary .optionalType
  | .constKw => parsePrefixUnary .constType
  | .fnKw => fnExpr
  | .fnTypeKw => parseFnType
  | .structKw => structExpr
  | .unionKw => parseAggregateExpr .unionDecl
  | .enumKw => parseEnumExpr
  | .switchKw => parseSwitchExpr
  | .ifKw | .elifKw => parseIfExpr
  | .loopKw => parseLoopExpr
  | .returnKw => parseReturnExpr
  | .deferKw => parseDeferExpr
  | .breakKw => parseBreakOrContinue .breakStmt
  | .continueKw => parseBreakOrContinue .continueStmt
  | .lbracket => parseBracketExpr
  | .dot => parseDotExpr
  | .atSign => parseBuiltinExpr
  | .comptimeKw => node .comptimeExpr do
      pAdvance
      call .primary
  | .withKw => parseWithStmt
  | .effectKw => parseEffectDecl
  | .handlerKw | .handleKw => handlerPrefix
  | .maskKw => parseMaskExpr
  | .lt => parseEffectRow
  | _ => pRecover [.semi, .rbrace, .rparen, .rbracket, .comma, .gt, .pipe] "expected expression"

def parsePrefix : Parse Unit := do
  parsePrefixAt (← pPeek)

def isPostfixStart (k : SyntaxKind) : Bool :=
  k = .lparen || k = .lbracket || k = .dot || k = .caret || k = .question || k = .plusPlus || k = .minusMinus

/-- Whether the operator at the cursor goes on with the expression. -/
def continues (precedence : Nat) (c : Context) (p : Parser) : Bool :=
  (precedence < precPostfix && isPostfixStart (peek c p)) || (precedence < precPostfix && atThunk c p) ||
    (!p.parsingType && precNone < getInfixPrecedence (peek c p) && precedence < getInfixPrecedence (peek c p))

def exprTurn (precedence leftCp : Nat) : Parse Bool := do
  if ← test (continues precedence) then do
    parseInfix (← pPeek) leftCp
    pure true
  else pure false

def parseExpr (precedence : Nat) : Parse Unit := do
  let leftCp ← pCheckpoint
  call .primary
  repeatWhile (exprTurn precedence leftCp)

def bodyOf : Call → Parse Unit
  | .expr precedence => parseExpr precedence
  | .primary => parsePrefix
  | .ifExpr => parseIfExpr

def topLevelDecl : Parse Unit := do
  if ← test fun c p => peek c p = .ident && isBindOp (peekAt c p 1) then parseNamedBindDecl
  else do
    if ← test fun c p => peek c p = .ident && peekAt c p 1 = .comma then do
      let cp ← pCheckpoint
      parseExprAt precNone
      parseBareDestructureTail cp
    else
      pRecoverAuto ("expected a top-level declaration (fn / struct / enum / const / var); " ++
        "execution statements are only allowed inside function bodies")

def topLevelTurn : Parse Bool := do
  if ← pIsEof then pure false
  else do
    let before ← pPos
    topLevelDecl
    expect .semi "expected ';' after top-level declaration"
    guarded (test fun _ p => p.pos = before) pAdvance
    pure true

def parseTopLevelDecls : Parse Unit := repeatWhile topLevelTurn

def parseFile : Parse Unit := node .sourceFile do
  skipTrivia
  parseTopLevelDecls
  skipTrivia

section Entry

variable (tokens : List Token) (source : Bytes) (kws : ParserKws)

def runCall : Nat → Call → Parser → Option Parser
  | 0, _, _ => none
  | n + 1, k, p => (bodyOf k ⟨tokens, source, kws, runCall n⟩ p).map (·.2)

def contextAt (n : Nat) : Context := ⟨tokens, source, kws, runCall tokens source kws n⟩

def Parser.start : Parser := ⟨greenBuilderNew Green, 0, [], false, false, 0, false⟩

def parseFileGreen : Option (Green × List ParseError) :=
  (parseFile (contextAt tokens source kws (2 * tokens.length + 2)) Parser.start).bind fun (_, p) =>
    (p.gb.finish.filter isNode).map fun root => (root, p.errors)

end Entry

end Ore.ParserGrammar
