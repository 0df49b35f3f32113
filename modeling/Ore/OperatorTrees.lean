import Ore.ParserGrammar
import Ore.ParserReads

namespace Ore.OperatorTrees

open SyntaxKinds GreenTree ParserCursor ParserGrammar ParserReads
open WorkspaceModel (Bytes)

def isLiteral (t : Token) : Bool :=
  [SyntaxKind.intLit, .floatLit, .stringLit, .byteLit, .asmLit, .trueKw, .falseKw, .nilKw, .unreachableKw,
    .underscore].contains t.kind

def isName (kws : ParserKws) (t : Token) : Bool :=
  t.kind = .ident && !(t.stringId = kws.ctl || t.stringId = kws.finalCtl || t.stringId = kws.direct)

def isUnaryOp (t : Token) : Bool := t.kind = .minus || t.kind = .bang || t.kind = .tilde || t.kind = .amp

def isSuffixOp (t : Token) : Bool :=
  t.kind = .caret || t.kind = .question || t.kind = .plusPlus || t.kind = .minusMinus

def isBinaryOp (t : Token) : Bool := precNone < getInfixPrecedence t.kind

def isRange (t : Token) : Bool := isRangeOp t.kind

mutual

/-- Trees of expressions, with every token. Any grouping of the operators is a
tree. -/
inductive Expr (kws : ParserKws) : Type
  | literal (l : Lexeme isLiteral)
  | name (l : Lexeme (isName kws))
  | enumRef (dot : Lexeme (ofKind .dot)) (l : Lexeme (ofKind .ident))
  | builtin (sign : Lexeme (ofKind .atSign)) (l : Lexeme (ofKind .ident)) (lp : Lexeme (ofKind .lparen))
      (args : Args kws) (rp : Lexeme (ofKind .rparen))
  | paren (lp : Lexeme (ofKind .lparen)) (e : Expr kws) (rp : Lexeme (ofKind .rparen))
  | unary (op : Lexeme isUnaryOp) (e : Expr kws)
  | suffix (e : Expr kws) (s : Suffix kws)
  | binary (l : Expr kws) (op : Lexeme isBinaryOp) (r : Expr kws)

inductive Suffix (kws : ParserKws) : Type
  | op (l : Lexeme isSuffixOp)
  | field (dot : Lexeme (ofKind .dot)) (l : Lexeme (ofKind .ident))
  | call (lp : Lexeme (ofKind .lparen)) (args : Args kws) (rp : Lexeme (ofKind .rparen))
  | index (lb : Lexeme (ofKind .lbracket)) (e : Expr kws) (rb : Lexeme (ofKind .rbracket))
  | slice (lb : Lexeme (ofKind .lbracket)) (lo : Expr kws) (op : Lexeme isRange) (hi : Expr kws)
      (rb : Lexeme (ofKind .rbracket))
  | openSlice (lb : Lexeme (ofKind .lbracket)) (lo : Expr kws) (op : Lexeme isRange) (rb : Lexeme (ofKind .rbracket))

inductive Args (kws : ParserKws) : Type
  | nil
  | last (e : Expr kws)
  | more (e : Expr kws) (comma : Lexeme (ofKind .comma)) (args : Args kws)

end

variable {kws : ParserKws}

mutual

def Expr.print : Expr kws → List Token
  | .literal l => l.run
  | .name l => l.run
  | .enumRef dot l => dot.run ++ l.run
  | .builtin sign l lp args rp => sign.run ++ (l.run ++ (lp.run ++ (args.print ++ rp.run)))
  | .paren lp e rp => lp.run ++ (e.print ++ rp.run)
  | .unary op e => op.run ++ e.print
  | .suffix e s => e.print ++ s.print
  | .binary l op r => l.print ++ (op.run ++ r.print)

def Suffix.print : Suffix kws → List Token
  | .op l => l.run
  | .field dot l => dot.run ++ l.run
  | .call lp args rp => lp.run ++ (args.print ++ rp.run)
  | .index lb e rb => lb.run ++ (e.print ++ rb.run)
  | .slice lb lo op hi rb => lb.run ++ (lo.print ++ (op.run ++ (hi.print ++ rb.run)))
  | .openSlice lb lo op rb => lb.run ++ (lo.print ++ (op.run ++ rb.run))

def Args.print : Args kws → List Token
  | .nil => []
  | .last e => e.print
  | .more e comma args => e.print ++ (comma.run ++ args.print)

end

def Suffix.kind : Suffix kws → SyntaxKind
  | .op l => l.kind
  | .field _ _ => .dot
  | .call _ _ _ => .lparen
  | .index _ _ _ | .slice _ _ _ _ _ | .openSlice _ _ _ _ => .lbracket

section Green

variable (source : Bytes)

mutual

def Expr.green : Expr kws → Green
  | .literal l => .node .literalExpr (leaves source l.run)
  | .name l => .node .refExpr (leaves source l.run)
  | .enumRef dot l => .node .enumRefExpr (leaves source dot.run ++ leaves source l.run)
  | .builtin sign l lp args rp => .node .builtinExpr (leaves source sign.run ++ (leaves source l.run ++
      (leaves source lp.run ++ [.node .argList (args.greens ++ leaves source rp.run)])))
  | .paren lp e rp => .node .parenExpr (leaves source lp.run ++ ([e.green] ++ leaves source rp.run))
  | .unary op e => .node .prefixExpr (leaves source op.run ++ [e.green])
  | .suffix e s => s.green e.green
  | .binary l op r => .node (if kindIsAssignOpToken op.kind then .assignExpr else .binExpr)
      ([l.green] ++ (leaves source op.run ++ [r.green]))

def Suffix.green (g : Green) : Suffix kws → Green
  | .op l => .node .postfixExpr ([g] ++ leaves source l.run)
  | .field dot l => .node .fieldExpr ([g] ++ (leaves source dot.run ++ leaves source l.run))
  | .call lp args rp => .node .callExpr ([g] ++
      [.node .argList (leaves source lp.run ++ (args.greens ++ leaves source rp.run))])
  | .index lb e rb => .node .indexExpr ([g] ++ (leaves source lb.run ++ ([e.green] ++ leaves source rb.run)))
  | .slice lb lo op hi rb => .node .sliceExpr ([g] ++ (leaves source lb.run ++ ([lo.green] ++
      (leaves source op.run ++ ([hi.green] ++ leaves source rb.run)))))
  | .openSlice lb lo op rb => .node .sliceExpr ([g] ++ (leaves source lb.run ++ ([lo.green] ++
      (leaves source op.run ++ leaves source rb.run))))

def Args.greens : Args kws → List Green
  | .nil => []
  | .last e => [e.green]
  | .more e comma args => [e.green] ++ (leaves source comma.run ++ args.greens)

end

end Green

def prec (op : Lexeme isBinaryOp) : Nat := getInfixPrecedence op.kind

def rightAssoc (op : Lexeme isBinaryOp) : Bool := isRightAssociative op.kind

/-- The operator at the head of a tree binds tighter than a precedence. -/
def Expr.above (precedence : Nat) : Expr kws → Bool
  | .binary _ op _ => precedence < prec op
  | _ => true

def fitsLeft (op : Lexeme isBinaryOp) : Expr kws → Bool
  | .binary _ o _ => !(prec o < prec op || prec o = prec op && rightAssoc o)
  | _ => true

def fitsRight (op : Lexeme isBinaryOp) : Expr kws → Bool
  | .binary _ o _ => !(prec o < prec op || prec o = prec op && !rightAssoc o)
  | _ => true

/-- What a prefix operator binds tighter than is not its operand. -/
def Expr.fitsUnary : Expr kws → Bool
  | .binary _ _ _ => false
  | _ => true

def Expr.fitsSuffix : Expr kws → Bool
  | .binary _ _ _ | .unary _ _ => false
  | _ => true

mutual

/-- The grouping of the precedence table. -/
def Expr.Canonical : Expr kws → Prop
  | .literal _ | .name _ | .enumRef _ _ => True
  | .builtin _ _ _ args _ => args.Canonical
  | .paren _ e _ => e.Canonical
  | .unary _ e => e.fitsUnary ∧ e.Canonical
  | .suffix e s => e.fitsSuffix ∧ e.Canonical ∧ s.Canonical
  | .binary l op r => fitsLeft op l ∧ fitsRight op r ∧ l.Canonical ∧ r.Canonical

def Suffix.Canonical : Suffix kws → Prop
  | .op _ | .field _ _ => True
  | .call _ args _ => args.Canonical
  | .index _ e _ => e.above precRange ∧ e.Canonical
  | .slice _ lo _ hi _ => (lo.above precRange ∧ lo.Canonical) ∧ hi.above precRange ∧ hi.Canonical
  | .openSlice _ lo _ _ => lo.above precRange ∧ lo.Canonical

def Args.Canonical : Args kws → Prop
  | .nil => True
  | .last e => e.Canonical
  | .more e _ args => e.Canonical ∧ args.Canonical

end

/-- The binary operators of a sequence, without those inside brackets. -/
def Expr.operators : Expr kws → List (Lexeme isBinaryOp)
  | .binary l op r => l.operators ++ op :: r.operators
  | .unary _ e => e.operators
  | .suffix e _ => e.operators
  | _ => []

def Expr.aboveRange (e : Expr kws) : Prop := ∀ op ∈ e.operators, precRange < prec op

mutual

/-- Square brackets hold operators that bind tighter than a range. -/
def Expr.Tight : Expr kws → Prop
  | .literal _ | .name _ | .enumRef _ _ => True
  | .builtin _ _ _ args _ => args.Tight
  | .paren _ e _ => e.Tight
  | .unary _ e => e.Tight
  | .suffix e s => e.Tight ∧ s.Tight
  | .binary l _ r => l.Tight ∧ r.Tight

def Suffix.Tight : Suffix kws → Prop
  | .op _ | .field _ _ => True
  | .call _ args _ => args.Tight
  | .index _ e _ => e.aboveRange ∧ e.Tight
  | .slice _ lo _ hi _ => (lo.aboveRange ∧ lo.Tight) ∧ hi.aboveRange ∧ hi.Tight
  | .openSlice _ lo _ _ => lo.aboveRange ∧ lo.Tight

def Args.Tight : Args kws → Prop
  | .nil => True
  | .last e => e.Tight
  | .more e _ args => e.Tight ∧ args.Tight

end

end Ore.OperatorTrees
