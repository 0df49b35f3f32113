import Mathlib.Tactic.Common

namespace Ore.SyntaxKinds

/-- Token kinds and node kinds are one enumeration, as the parser passes
both to the tree builder. -/
inductive SyntaxKind
  | none | whitespace | newline | comment | lexError | eof | virtualLbrace | virtualRbrace
  | virtualSemi | ident | intLit | floatLit | stringLit | byteLit | asmLit | trueKw | falseKw | nilKw
  | unreachableKw | fnKw | fnTypeKw | constKw | structKw | enumKw | unionKw | effectKw | handlerKw
  | comptimeKw | ifKw | elifKw | elseKw | loopKw | switchKw | breakKw | continueKw | returnKw
  | deferKw | orelseKw | handleKw | maskKw | withKw | ampAmp | pipePipe | bang | plus | minus | star
  | starStar | slash | percent | pipe | amp | caret | shl | shr | eqEq | bangEq | lt | le | gt | ge
  | eq | plusEq | minusEq | starEq | slashEq | percentEq | pipeEq | ampEq | tildeEq | colonEq
  | plusPlus | minusMinus | rarrow | larrow | fatarrow | colon | colonColon | label | dot | dotDot
  | dotDotDot | dotDotLt | dotDotEq | question | underscore | lparen | rparen | lbracket | rbracket
  | lbrace | rbrace | semi | comma | atSign | hash | tilde
  | sourceFile | errorNode | fnDecl | structDecl | enumDecl | unionDecl | effectDecl | bindDecl
  | destructureDecl | param | field | bitField | opKind | effectRowTail | variant | initField
  | loopContinue | capture | paramList | argList | fieldList | bitFieldList | variantList | initList
  | switchPatternList | effectLabelList | stmtList | blockStmt | returnStmt | switchArm | breakStmt
  | continueStmt | deferStmt | exprStmt | literalExpr | pathExpr | fieldExpr | refExpr | parenExpr
  | binExpr | assignExpr | prefixExpr | postfixExpr | callExpr | indexExpr | sliceExpr | ifExpr
  | switchExpr | loopExpr | lambdaExpr | ctlLambda | finalCtlLambda | directLambda | handlerExpr
  | maskExpr | productExpr | enumRefExpr | builtinExpr | comptimeExpr | returnClause | bindPat
  | wildcardPat | literalPat | tuplePat | fieldPat | refType | pathType | ptrType | sliceType
  | arrayType | manyPtrType | fnType | optionalType | constType | handlerType | distinctType
  | bitFieldType | effectRowType
  deriving DecidableEq, Repr

def tokenIsTrivia : SyntaxKind → Bool
  | .whitespace | .newline | .comment => true
  | _ => false

def kindIsVirtualLayout : SyntaxKind → Bool
  | .virtualLbrace | .virtualRbrace | .virtualSemi => true
  | _ => false

/-- A lexer or layout token: its kind, interned text and byte range. -/
structure Token where
  kind : SyntaxKind
  stringId : Nat
  start : Nat
  byteEnd : Nat
  deriving DecidableEq, Repr

end Ore.SyntaxKinds
