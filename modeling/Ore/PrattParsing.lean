import Ore.Regrouping

namespace Ore.PrattParsing

open SyntaxKinds GreenTree GreenBuilder ParserCursor ParserGrammar ParserReads OperatorTrees Regrouping
open WorkspaceModel (Bytes)

/-- A token that ends an expression of a precedence. -/
def stops (precedence : Nat) (k : SyntaxKind) : Bool :=
  !isPostfixStart k && !isThunkStart k && getInfixPrecedence k ≤ precedence

variable {kws : ParserKws}

def rightPrec (op : Lexeme isBinaryOp) : Nat := if rightAssoc op then prec op - 1 else prec op

/-- A token that leaves a tree as it is, whatever it does to a tree around it. -/
def follows (e : Expr kws) (k : SyntaxKind) : Bool :=
  match e with
  | .binary _ op _ => stops (rightPrec op) k
  | .unary _ _ => stops precUnary k
  | _ => !isThunkStart k

section Kinds

/-- The first tokens of an expression. -/
def starts (k : SyntaxKind) : Bool :=
  [SyntaxKind.intLit, .floatLit, .stringLit, .byteLit, .asmLit, .trueKw, .falseKw, .nilKw, .unreachableKw, .underscore,
    .ident, .dot, .atSign, .lparen, .minus, .bang, .tilde, .amp].contains k

def infixOps : List SyntaxKind :=
  [.eq, .plusEq, .minusEq, .starEq, .slashEq, .percentEq, .ampEq, .pipeEq, .tildeEq, .pipePipe, .orelseKw, .ampAmp,
    .eqEq, .bangEq, .lt, .le, .gt, .ge, .dotDotLt, .dotDotEq, .pipe, .amp, .tilde, .shl, .shr, .plus, .minus, .star,
    .slash, .percent, .starStar]

theorem mem_infixOps {k : SyntaxKind} (h : precNone < getInfixPrecedence k) : k ∈ infixOps := by
  cases k <;> first | exact absurd h (by decide) | decide

theorem infixOps_kinds : ∀ k ∈ infixOps, plain k = true ∧ tokenIsTrivia k = false ∧ isPostfixStart k = false ∧
    isThunkStart k = false ∧ getInfixPrecedence k ≤ precPower := by decide

theorem parseInfix_binary {k : SyntaxKind} (h : precNone < getInfixPrecedence k) : parseInfix k = fun cp =>
    nodeAt cp (if kindIsAssignOpToken k then .assignExpr else .binExpr) (do
      pAdvance
      parseExprAt (if isRightAssociative k then getInfixPrecedence k - 1 else getInfixPrecedence k)) := by
  cases k <;> first | exact absurd h (by decide) | rfl

theorem starts_kinds {k : SyntaxKind} (h : starts k = true) : plain k = true ∧ tokenIsTrivia k = false ∧
    isRangeOp k = false ∧ k ≠ .rparen ∧ k ≠ .rbracket := by
  have hall : ∀ k ∈ [SyntaxKind.intLit, .floatLit, .stringLit, .byteLit, .asmLit, .trueKw, .falseKw, .nilKw,
      .unreachableKw, .underscore, .ident, .dot, .atSign, .lparen, .minus, .bang, .tilde, .amp], plain k = true ∧
      tokenIsTrivia k = false ∧ isRangeOp k = false ∧ k ≠ .rparen ∧ k ≠ .rbracket := by decide
  exact hall k (by simpa [starts] using h)

end Kinds

section Next

theorem next_run {ok : Token → Bool} (l : Lexeme ok) {f : SyntaxKind → Bool} (htrivia : tokenIsTrivia l.kind = false)
    (hf : f l.kind = true) (rest : List Token) : Next f (l.run ++ rest) := ⟨l.token, l.trivia ++ rest, rfl, htrivia, hf⟩

theorem next_kind {k : SyntaxKind} (l : Lexeme (ofKind k)) {f : SyntaxKind → Bool} (htrivia : tokenIsTrivia k = false)
    (hf : f k = true) (rest : List Token) : Next f (l.run ++ rest) :=
  next_run l (by rw [l.kind_eq, htrivia]) (by rw [l.kind_eq, hf]) rest

theorem next_starts {ok : Token → Bool} (l : Lexeme ok) (h : starts l.kind = true) (rest : List Token) :
    Next starts (l.run ++ rest) := next_run l (starts_kinds h).2.1 h rest

theorem literal_starts (l : Lexeme isLiteral) : starts l.kind = true := by
  have h := l.fits
  simp only [isLiteral, List.contains_iff_mem] at h
  have hall : ∀ k ∈ [SyntaxKind.intLit, .floatLit, .stringLit, .byteLit, .asmLit, .trueKw, .falseKw, .nilKw,
      .unreachableKw, .underscore], starts k = true := by decide
  exact hall _ h

theorem unary_starts (l : Lexeme isUnaryOp) : starts l.kind = true := by
  have h := l.fits
  simp only [isUnaryOp, Bool.or_eq_true, decide_eq_true_eq] at h
  rcases h with ((h | h) | h) | h <;> rw [Lexeme.kind, h] <;> rfl

theorem name_kind (l : Lexeme (isName kws)) : l.kind = .ident := by
  have h := l.fits
  rw [isName, Bool.and_eq_true] at h
  exact of_decide_eq_true h.1

theorem next_print : (e : Expr kws) → (rest : List Token) → Next starts (e.print ++ rest)
  | .literal l, rest => next_starts l (literal_starts l) rest
  | .name l, rest => next_starts l (by rw [name_kind]; rfl) rest
  | .enumRef dot l, rest => (next_starts dot (by rw [dot.kind_eq]; rfl) _).append rest
  | .builtin sign l lp args rp, rest => (next_starts sign (by rw [sign.kind_eq]; rfl) _).append rest
  | .paren lp e rp, rest => (next_starts lp (by rw [lp.kind_eq]; rfl) _).append rest
  | .unary op e, rest => (next_starts op (unary_starts op) _).append rest
  | .suffix e s, rest => (next_print e _).append rest
  | .binary l op r, rest => (next_print l _).append rest

/-- What stands behind an opening parenthesis. -/
def insideArgs (k : SyntaxKind) : Bool := starts k || k = .rparen

theorem next_args (args : Args kws) (rp : Lexeme (ofKind .rparen)) : Next insideArgs (args.print ++ rp.run) := by
  have hmono {ts : List Token} (h : Next starts ts) : Next insideArgs ts := h.mono fun k hk => by simp [insideArgs, hk]
  cases args with
  | nil =>
      have h : Next insideArgs (rp.run ++ []) := next_kind rp rfl rfl []
      rwa [List.append_nil] at h
  | last e => exact hmono (next_print e _)
  | more e comma args => exact hmono ((next_print e _).append _)

theorem length_print (e : Expr kws) : 1 ≤ e.print.length := by
  obtain ⟨t, rest, h, -⟩ := next_print e []
  rw [List.append_nil] at h
  rw [h]
  exact Nat.le_add_left 1 _

end Next

section Runs

variable (source : Bytes)

/-- The expression is read at every precedence below its head. -/
def ExprReads (e : Expr kws) : Prop :=
  ∀ tokens rest n precedence, 2 * e.print.length ≤ n → precedence ≤ precUnary → e.Canonical →
    e.above precedence = true → Next (stops precedence) rest →
    Reads (contextAt tokens source kws n) (parseExprAt precedence) e.print rest () [e.green source]

/-- The head of the expression is read, and turns of the loop build the rest. -/
def SpineReads (e : Expr kws) : Prop :=
  ∀ tokens rest n precedence, 2 * e.print.length ≤ n + 1 → precedence ≤ precUnary → e.Canonical →
    e.above precedence = true → Next (follows e) rest →
    ∀ p, Before (contextAt tokens source kws n) p (e.print ++ rest) →
      ∃ p₁, call .primary (contextAt tokens source kws n) p = some ((), p₁) ∧ ∀ p',
        Loops (exprTurn precedence p.gb.children.length) (contextAt tokens source kws n)
          (put p [e.green source] e.print.length) p' →
        Loops (exprTurn precedence p.gb.children.length) (contextAt tokens source kws n) p₁ p'

def PrimaryReads (e : Expr kws) : Prop :=
  ∀ tokens rest n, 2 * e.print.length ≤ n + 2 → e.Canonical → Next (follows e) rest →
    Reads (contextAt tokens source kws n) parsePrefix e.print rest () [e.green source]

def SuffixReads (s : Suffix kws) : Prop :=
  ∀ tokens rest n g, 2 * s.print.length ≤ n → s.Canonical → Next (fun k => !isThunkStart k) rest →
    Wraps (contextAt tokens source kws n) (parseInfix s.kind) [g] s.print rest (s.green source g)

def ArgsReads (args : Args kws) : Prop :=
  ∀ tokens rest n, 2 * args.print.length ≤ n → args.Canonical → Next (fun k => k = .rparen) rest →
    Reads (contextAt tokens source kws n) (commaSeparated .rparen (parseExprAt precNone)) args.print rest ()
      (args.greens source)

variable {source}

theorem stops_mono {a b : Nat} (hab : a ≤ b) {k : SyntaxKind} (h : stops a k = true) : stops b k = true := by
  simp only [stops, Bool.and_eq_true, decide_eq_true_eq] at h ⊢
  exact ⟨h.1, h.2.trans hab⟩

theorem le_rightPrec {op : Lexeme isBinaryOp} {k : Nat} (h : k < prec op) : k ≤ rightPrec op := by
  rw [rightPrec]
  split <;> omega

theorem follows_of_stops {e : Expr kws} {k : SyntaxKind} {precedence : Nat} (hunary : precedence ≤ precUnary)
    (habove : e.above precedence = true) (h : stops precedence k = true) : follows e k = true := by
  have hthunk : (!isThunkStart k) = true := by
    simp only [stops, Bool.and_eq_true] at h
    exact h.1.2
  cases e with
  | binary l op r => exact stops_mono (le_rightPrec (of_decide_eq_true habove)) h
  | unary op e => exact stops_mono hunary h
  | _ => exact hthunk

theorem exprTurn_ends {c : Context} {p : Parser} {ts : List Token} {precedence cp : Nat} (hp : Before c p ts)
    (h : Next (stops precedence) ts) : exprTurn precedence cp c p = some (false, p) := by
  have hstop := hp.peek_of_next h
  simp only [stops, Bool.and_eq_true, Bool.not_eq_true', decide_eq_true_eq] at hstop
  have hcontinues : continues precedence c p = false := by
    simp [continues, atThunk, hstop.1.1, hstop.1.2, hp.typed, Nat.not_lt_of_le hstop.2]
  change (if continues precedence c p = true then _ else _ : Parse Bool) c p = _
  rw [if_neg (by simp [hcontinues])]
  rfl

theorem above_none (e : Expr kws) : e.above precNone = true := by
  cases e with
  | binary l op r => exact op.fits
  | _ => rfl

theorem expr_of_spine {e : Expr kws} (h : SpineReads source e) : ExprReads source e := by
  intro tokens rest n precedence hn hunary hcanon habove hrest p hp
  have hlength := length_print e
  obtain ⟨m, rfl⟩ := Nat.exists_eq_succ_of_ne_zero (by omega : n ≠ 0)
  have hp' : Before (contextAt tokens source kws m) p (e.print ++ rest) := ⟨hp.typed, hp.ahead⟩
  obtain ⟨p₁, hprimary, hloop⟩ := h tokens rest m precedence (by omega) hunary hcanon habove
    (hrest.mono fun _ => follows_of_stops hunary habove) p hp'
  have hbehind : Before (contextAt tokens source kws m) (put p [e.green source] e.print.length) rest := hp'.put
  have hstop : exprTurn precedence p.gb.children.length (contextAt tokens source kws m)
      (put p [e.green source] e.print.length) = some (false, put p [e.green source] e.print.length) :=
    exprTurn_ends hbehind hrest
  have hends := (hloop _ (.stop hstop)).repeatWhile
  have hexpr : parseExpr precedence (contextAt tokens source kws m) p =
      some ((), put p [e.green source] e.print.length) := by
    change ((call .primary (contextAt tokens source kws m) p).bind fun x =>
      repeatWhile (exprTurn precedence p.gb.children.length) (contextAt tokens source kws m) x.2) = _
    rw [hprimary, Option.bind_some, hends]
  change ((parseExpr precedence (contextAt tokens source kws m) p).map _).map _ = _
  rw [hexpr]
  rfl

theorem spine_of_primary {e : Expr kws} (h : PrimaryReads source e) : SpineReads source e := by
  intro tokens rest n precedence hn _ hcanon _ hrest p hp
  have hlength := length_print e
  obtain ⟨m, rfl⟩ := Nat.exists_eq_succ_of_ne_zero (by omega : n ≠ 0)
  have hp' : Before (contextAt tokens source kws m) p (e.print ++ rest) := ⟨hp.typed, hp.ahead⟩
  refine ⟨put p [e.green source] e.print.length, ?_, fun p' h => h⟩
  have hrun := h tokens rest m (by omega) hcanon hrest p hp'
  change ((parsePrefix (contextAt tokens source kws m) p).map _).map _ = _
  rw [hrun]
  rfl

theorem peekAt_one {c : Context} {p : Parser} {ok : Token → Bool} {l : Lexeme ok} {f : SyntaxKind → Bool}
    {rest : List Token} (hp : Before c p (l.run ++ rest)) (hl : Next (fun _ => true) (l.run ++ rest))
    (h : Next f rest) : f (peekAt c p 1) = true := by
  obtain ⟨t, us, hrest, htrivia, hf⟩ := h
  have hdrop : c.tokens.drop (p.pos + 1) = l.trivia ++ rest := by
    rw [← List.drop_drop, hp.ahead]
    rfl
  have hindex : logicalIndex c.tokens 1 p.pos = p.pos + 1 + l.trivia.length := by
    rw [logicalIndex, if_pos (hp.lt_length hl), hdrop, takeWhile_trivia l.trails ⟨t, us, hrest, htrivia, hf⟩]
    rfl
  have hget : c.tokens[p.pos + 1 + l.trivia.length]? = some t := by
    rw [← List.head?_drop, ← List.drop_drop, hdrop, List.drop_left, hrest, List.head?_cons]
  rw [peekAt, hindex, hget]
  exact hf

theorem prefix_reads {c : Context} {ts rest : List Token} {gs : List Green} {k : SyntaxKind}
    (hk : ∀ p, Before c p (ts ++ rest) → peek c p = k) (h : Reads c (parsePrefixAt k) ts rest () gs) :
    Reads c parsePrefix ts rest () gs := .looked hk h

theorem primary_literal (l : Lexeme isLiteral) : PrimaryReads source (.literal l : Expr kws) := by
  intro tokens rest n _ _ hrest
  refine prefix_reads (fun p hp => hp.peek) ?_
  have hhead : parsePrefixAt l.token.kind = node .literalExpr pAdvance := by
    have h := l.fits
    simp only [isLiteral, List.contains_iff_mem] at h
    have hall : ∀ k ∈ [SyntaxKind.intLit, .floatLit, .stringLit, .byteLit, .asmLit, .trueKw, .falseKw, .nilKw,
        .unreachableKw, .underscore], parsePrefixAt k = node .literalExpr pAdvance := by
      simp only [List.forall_mem_cons, List.not_mem_nil]
      exact ⟨rfl, rfl, rfl, rfl, rfl, rfl, rfl, rfl, rfl, rfl, nofun⟩
    exact hall _ h
  rw [hhead]
  exact .node _ (advance_reads l (starts_kinds (literal_starts l)).1 hrest)

theorem primary_name (l : Lexeme (isName kws)) : PrimaryReads source (.name l) := by
  intro tokens rest n _ _ hrest
  have hfits := l.fits
  simp only [isName, Bool.and_eq_true, Bool.not_eq_true', Bool.or_eq_false_iff, decide_eq_false_iff_not] at hfits
  refine prefix_reads (k := .ident) (fun p hp => hp.peek.trans (name_kind l)) ?_
  refine Reads.looked (f := lambdaIntroducer) (a := none) (fun p hp => ?_) ?_
  · have hcurrent : current (contextAt tokens source kws n) p = some l.token := hp.current
    have hkws : (contextAt tokens source kws n).kws = kws := rfl
    simp [lambdaIntroducer, hp.typed, atKw, tokIsKw, hcurrent, hkws, hfits.2]
  · refine .looked (a := false) (fun p hp => by simp [hp.typed]) ?_
    refine .looked (a := false) (fun p hp => by simp [hp.typed]) ?_
    refine .looked (a := SyntaxKind.refExpr) (fun p hp => by simp [hp.typed]) ?_
    exact .node _ (advance_reads l (by rw [name_kind]; rfl) hrest)

theorem primary_enumRef (dot : Lexeme (ofKind .dot)) (l : Lexeme (ofKind .ident)) :
    PrimaryReads source (.enumRef dot l : Expr kws) := by
  intro tokens rest n _ _ hrest
  have hname : Next (fun k => k = .ident) (l.run ++ rest) := next_kind l rfl rfl rest
  refine prefix_reads (k := .dot) (fun p hp => hp.peek.trans dot.kind_eq) ?_
  refine Reads.looked (f := fun c p => peekAt c p 1) (a := .ident) (fun p hp => ?_) ?_
  · rw [Expr.print, List.append_assoc] at hp
    exact of_decide_eq_true (peekAt_one hp (next_kind dot rfl rfl _) hname)
  · exact .node _ (.bind (advance_reads dot (by rw [dot.kind_eq]; rfl) hname)
      (advance_reads l (by rw [l.kind_eq]; rfl) hrest))

theorem primary_builtin (sign : Lexeme (ofKind .atSign)) (l : Lexeme (ofKind .ident)) (lp : Lexeme (ofKind .lparen))
    {args : Args kws} (rp : Lexeme (ofKind .rparen)) (h : ArgsReads source args) :
    PrimaryReads source (.builtin sign l lp args rp) := by
  intro tokens rest n hn hcanon hrest
  have hlength : args.print.length + 4 ≤ (Expr.builtin sign l lp args rp).print.length := by
    have h₁ := sign.run_length
    have h₂ := l.run_length
    have h₃ := lp.run_length
    have h₄ := rp.run_length
    simp only [Expr.print, List.length_append]
    omega
  have hrp : Next (fun k => k = .rparen) (rp.run ++ rest) := next_kind rp rfl rfl rest
  have hinside : Next insideArgs (args.print ++ rp.run) := next_args args rp
  have hlp : Next (fun k => k = .lparen) (lp.run ++ (args.print ++ rp.run)) := next_kind lp rfl rfl _
  have hname : Next (fun k => k = .ident) (l.run ++ (lp.run ++ (args.print ++ rp.run))) := next_kind l rfl rfl _
  have hargs : Reads (contextAt tokens source kws n) (commaSeparated .rparen (parseExprAt precNone)) args.print
      (rp.run ++ rest) () (args.greens source) := h tokens _ n (by omega) hcanon hrp
  have hlist : Reads (contextAt tokens source kws n) (node .argList do
      commaSeparated .rparen (parseExprAt precNone)
      expect .rparen "expected ')' after builtin args") (args.print ++ rp.run) rest ()
      [.node .argList (args.greens source ++ leaves source rp.run)] :=
    .node _ (.bind hargs (expect_reads rp rfl hrest _))
  refine prefix_reads (k := .atSign) (fun p hp => hp.peek.trans sign.kind_eq) ?_
  exact .node _ (.bind (advance_reads sign (by rw [sign.kind_eq]; rfl) (hname.append rest))
    (.passed (consume_reads l rfl (hlp.append rest) _) (.passed (match_reads lp rfl (hinside.append rest)) hlist)))

theorem primary_paren (lp : Lexeme (ofKind .lparen)) {e : Expr kws} (rp : Lexeme (ofKind .rparen))
    (h : ExprReads source e) : PrimaryReads source (.paren lp e rp) := by
  intro tokens rest n hn hcanon hrest
  have hlength : e.print.length + 2 ≤ (Expr.paren lp e rp).print.length := by
    have h₁ := lp.run_length
    have h₂ := rp.run_length
    simp only [Expr.print, List.length_append]
    omega
  have hrp : Next (stops precNone) (rp.run ++ rest) := next_kind rp rfl rfl rest
  have hinner : Reads (contextAt tokens source kws n) (parseExprAt precNone) e.print (rp.run ++ rest) ()
      [e.green source] := h tokens _ n precNone (by omega) (by decide) hcanon (above_none e) hrp
  refine prefix_reads (k := .lparen) (fun p hp => hp.peek.trans lp.kind_eq) ?_
  exact .node _ (.bind (advance_reads lp (by rw [lp.kind_eq]; rfl) ((next_print e rp.run).append rest))
    (.bind (.thunks false hinner) (expect_reads rp rfl hrest _)))

theorem primary_unary (op : Lexeme isUnaryOp) {e : Expr kws} (h : ExprReads source e) :
    PrimaryReads source (.unary op e) := by
  intro tokens rest n hn hcanon hrest
  have hlength : e.print.length + 1 ≤ (Expr.unary op e).print.length := by
    have h₁ := op.run_length
    simp only [Expr.print, List.length_append]
    omega
  have habove : e.above precUnary = true := by
    have hfits := hcanon.1
    cases e <;> first | rfl | exact absurd hfits (by simp [Expr.fitsUnary])
  have hoperand : Reads (contextAt tokens source kws n) (parseExprAt precUnary) e.print rest () [e.green source] :=
    h tokens _ n precUnary (by omega) le_rfl hcanon.2 habove hrest
  have hhead : parsePrefixAt op.token.kind = parsePrefixUnary .prefixExpr := by
    have h := op.fits
    simp only [isUnaryOp, Bool.or_eq_true, decide_eq_true_eq] at h
    rcases h with ((h | h) | h) | h <;> rw [h] <;> rfl
  refine prefix_reads (fun p hp => hp.peek) ?_
  rw [hhead]
  exact .node _ (.bind (advance_reads op (starts_kinds (unary_starts op)).1 (next_print e rest))
    (.untyped (fun p hp => by simp [isTypePrefix, hp]) hoperand))

section Suffixes

theorem suffix_op (l : Lexeme isSuffixOp) : SuffixReads source (.op l : Suffix kws) := by
  intro tokens rest n g _ _ hrest
  have h := l.fits
  simp only [isSuffixOp, Bool.or_eq_true, decide_eq_true_eq] at h
  have hparse : parseInfix l.token.kind = (fun cp => nodeAt cp .postfixExpr pAdvance) ∧ plain l.token.kind = true := by
    rcases h with ((h | h) | h) | h <;> rw [h] <;> exact ⟨rfl, rfl⟩
  change Wraps _ (parseInfix l.token.kind) _ _ _ _
  rw [hparse.1]
  exact .nodeAt _ (advance_reads l hparse.2 hrest)

theorem suffix_field (dot : Lexeme (ofKind .dot)) (l : Lexeme (ofKind .ident)) :
    SuffixReads source (.field dot l : Suffix kws) := by
  intro tokens rest n g _ _ hrest
  have hname : Next (fun k => k = .ident) (l.run ++ rest) := next_kind l rfl rfl rest
  refine Wraps.looked (a := SyntaxKind.fieldExpr) (fun p hp => by simp [hp.typed]) ?_
  exact .nodeAt _ (.bind (advance_reads dot (by rw [dot.kind_eq]; rfl) hname) (expect_reads l rfl hrest _))

theorem suffix_call (lp : Lexeme (ofKind .lparen)) {args : Args kws} (rp : Lexeme (ofKind .rparen))
    (h : ArgsReads source args) : SuffixReads source (.call lp args rp) := by
  intro tokens rest n g hn hcanon hrest
  have hlength : args.print.length ≤ (Suffix.call lp args rp).print.length := by
    simp only [Suffix.print, List.length_append]
    omega
  have hrp : Next (fun k => k = .rparen) (rp.run ++ rest) := next_kind rp rfl rfl rest
  have hinside : Next insideArgs (args.print ++ rp.run) := next_args args rp
  have hargs : Reads (contextAt tokens source kws n) (commaSeparated .rparen (parseExprAt precNone)) args.print
      (rp.run ++ rest) () (args.greens source) := h tokens _ n (by omega) hcanon hrp
  have hthunk : Reads (contextAt tokens source kws n) (guarded (test atThunk) emitTrailingThunkLambda) [] rest () [] :=
    .skipped fun p hp => by
      have hnext := hp.peek_of_next hrest
      rw [Bool.not_eq_true'] at hnext
      rw [atThunk, hnext, Bool.and_false]
  have hclose : Reads (contextAt tokens source kws n) (do
      expect .rparen "expected ')' after arguments"
      guarded (test atThunk) emitTrailingThunkLambda) rp.run rest () (leaves source rp.run) :=
    (Reads.bind (expect_reads rp rfl (by simpa using hrest) _) hthunk).congr (List.append_nil _) (List.append_nil _)
  exact .nodeAt _ (.node _ (.bind (advance_reads lp (by rw [lp.kind_eq]; rfl) (hinside.append rest))
    (.bind (.thunks false hargs) hclose)))

theorem bracket_reads {e : Expr kws} (h : ExprReads source e) {tokens rest : List Token} {n : Nat}
    (hn : 2 * e.print.length ≤ n) (hcanon : e.Canonical) (habove : e.above precRange = true)
    (hrest : Next (stops precRange) rest) :
    Reads (contextAt tokens source kws n) (parseExprAt precRange) e.print rest () [e.green source] :=
  h tokens rest n precRange hn (by decide) hcanon habove hrest

theorem wraps_bracket (lb : Lexeme (ofKind .lbracket)) {e : Expr kws} (h : ExprReads source e)
    {tokens us rest : List Token} {n : Nat} (hn : 2 * e.print.length ≤ n) (hcanon : e.Canonical)
    (habove : e.above precRange = true)
    (hrest : Next (stops precRange) (us ++ rest)) {g g' : Green}
    (hk : Wraps (contextAt tokens source kws n) (fun cp => do
      if ← pMatchRangeOp then sliceEnd cp
      else do
        expect .rbracket "expected ']' after index"
        nodeAt cp .indexExpr (pure ())) ([g] ++ leaves source lb.run ++ [e.green source]) us rest g') :
    Wraps (contextAt tokens source kws n) infixBracket [g] (lb.run ++ (e.print ++ us)) rest g' := by
  refine .bind (advance_reads lb (by rw [lb.kind_eq]; rfl) ((next_print e us).append rest)) ?_
  refine Wraps.looked (f := fun c p => isRangeOp (peek c p)) (a := false) (fun p hp => ?_) ?_
  · have hstart := hp.peek_of_next ((next_print e us).append rest)
    exact (starts_kinds hstart).2.2.1
  · exact .bind (bracket_reads h hn hcanon habove hrest) hk

theorem wraps_rbracket (rb : Lexeme (ofKind .rbracket)) {c : Context} {rest : List Token} {f : SyntaxKind → Bool}
    (hrest : Next f rest) (kind : SyntaxKind) (msg : String) (gs : List Green) :
    Wraps c (fun cp => do
      expect .rbracket msg
      nodeAt cp kind (pure ())) gs rb.run rest (.node kind (gs ++ leaves c.source rb.run)) := by
  have hempty : Wraps c (fun cp => nodeAt cp kind (pure ())) (gs ++ leaves c.source rb.run) [] rest
      (.node kind (gs ++ leaves c.source rb.run ++ [])) := .nodeAt kind (.pure ())
  have h := Wraps.bind (f := fun _ cp => nodeAt cp kind (pure ())) (expect_reads rb rfl (by simpa using hrest) msg)
    hempty
  simpa using h

theorem matchRange_fails {c : Context} {rest : List Token} (h : Next (fun k => k = .rbracket) rest) :
    Reads c pMatchRangeOp [] rest false [] := by
  have hfirst : Reads c (pMatch .dotDotLt) [] rest false [] :=
    match_fails (h.mono fun k hk => by rw [of_decide_eq_true hk]; rfl)
  have hsecond : Reads c (pMatch .dotDotEq) [] rest false [] :=
    match_fails (h.mono fun k hk => by rw [of_decide_eq_true hk]; rfl)
  exact Reads.bind (f := fun b : Bool => if b then pure true else pMatch .dotDotEq) (a := false) hfirst hsecond

theorem matchRange_reads (op : Lexeme isRange) {c : Context} {rest : List Token} {f : SyntaxKind → Bool}
    (h : Next f rest) : Reads c pMatchRangeOp op.run rest true (leaves c.source op.run) := by
  have hkind : op.kind = .dotDotLt ∨ op.kind = .dotDotEq := by
    have hfits := op.fits
    rw [isRange, isRangeOp, Bool.or_eq_true] at hfits
    exact hfits.imp of_decide_eq_true of_decide_eq_true
  rcases hkind with hkind | hkind
  · let first : Lexeme (ofKind .dotDotLt) := ⟨op.token, op.trivia, decide_eq_true hkind, op.trails⟩
    exact (match_reads first rfl h).done rfl
  · let second : Lexeme (ofKind .dotDotEq) := ⟨op.token, op.trivia, decide_eq_true hkind, op.trails⟩
    have hfirst : Reads c (pMatch .dotDotLt) [] (op.run ++ rest) false [] :=
      match_fails (next_run op (by rw [hkind]; rfl) (by rw [hkind]; rfl) rest)
    exact Reads.bind (f := fun b : Bool => if b then pure true else pMatch .dotDotEq) hfirst (match_reads second rfl h)

theorem range_stops (op : Lexeme isRange) (rest : List Token) : Next (stops precRange) (op.run ++ rest) := by
  have hkind : op.kind = .dotDotLt ∨ op.kind = .dotDotEq := by
    have hfits := op.fits
    rw [isRange, isRangeOp, Bool.or_eq_true] at hfits
    exact hfits.imp of_decide_eq_true of_decide_eq_true
  rcases hkind with hkind | hkind <;> exact next_run op (by rw [hkind]; rfl) (by rw [hkind]; rfl) rest

theorem suffix_index (lb : Lexeme (ofKind .lbracket)) {e : Expr kws} (rb : Lexeme (ofKind .rbracket))
    (h : ExprReads source e) : SuffixReads source (.index lb e rb) := by
  intro tokens rest n g hn hcanon hrest
  have hlength : e.print.length ≤ (Suffix.index lb e rb).print.length := by
    simp only [Suffix.print, List.length_append]
    omega
  have hrb : Next (fun k => k = .rbracket) (rb.run ++ rest) := next_kind rb rfl rfl rest
  refine (wraps_bracket lb h (by omega) hcanon.2 hcanon.1 (next_kind rb rfl rfl rest) ?_)
  refine .bind (matchRange_fails hrb) ?_
  have hclose : Wraps (contextAt tokens source kws n) (fun cp => do
      expect .rbracket "expected ']' after index"
      nodeAt cp .indexExpr (pure ())) ([g] ++ leaves source lb.run ++ [e.green source]) rb.run rest
      (.node .indexExpr ([g] ++ leaves source lb.run ++ [e.green source] ++ leaves source rb.run)) :=
    wraps_rbracket rb hrest _ _ _
  simpa [Suffix.green] using hclose

theorem suffix_slice (lb : Lexeme (ofKind .lbracket)) {lo : Expr kws} (op : Lexeme isRange) {hi : Expr kws}
    (rb : Lexeme (ofKind .rbracket)) (hlo : ExprReads source lo) (hhi : ExprReads source hi) :
    SuffixReads source (.slice lb lo op hi rb) := by
  intro tokens rest n g hn hcanon hrest
  have hlength : lo.print.length + hi.print.length ≤ (Suffix.slice lb lo op hi rb).print.length := by
    simp only [Suffix.print, List.length_append]
    omega
  have hrb : Next (stops precRange) (rb.run ++ rest) := next_kind rb rfl rfl rest
  have hupper : Next starts (hi.print ++ rb.run ++ rest) := (next_print hi rb.run).append rest
  refine wraps_bracket lb hlo (by omega) hcanon.1.2 hcanon.1.1 ((range_stops op _).append rest) ?_
  refine Wraps.bind (f := fun (b : Bool) cp => if b then sliceEnd cp else do
    expect .rbracket "expected ']' after index"
    nodeAt cp .indexExpr (pure ())) (matchRange_reads op hupper) ?_
  have hread : Reads (contextAt tokens source kws n) (guarded (test fun c p => peek c p ≠ .rbracket)
      (parseExprAt precRange)) hi.print (rb.run ++ rest) () [hi.green source] := by
    refine .taken (fun p hp => ?_) (bracket_reads hhi (by omega) hcanon.2.2 hcanon.2.1 hrb)
    have hstart := hp.peek_of_next (next_print hi _)
    exact decide_eq_true (starts_kinds hstart).2.2.2.2
  have hclose : Wraps (contextAt tokens source kws n) (fun cp => do
      expect .rbracket "expected ']' to close slice"
      nodeAt cp .sliceExpr (pure ())) ([g] ++ leaves source lb.run ++ [lo.green source] ++ leaves source op.run ++
        [hi.green source]) rb.run rest
      (.node .sliceExpr ([g] ++ leaves source lb.run ++ [lo.green source] ++ leaves source op.run ++
        [hi.green source] ++ leaves source rb.run)) := wraps_rbracket rb hrest _ _ _
  have hend := Wraps.bind (f := fun _ cp => do
    expect .rbracket "expected ']' to close slice"
    nodeAt cp .sliceExpr (pure ())) hread hclose
  exact hend.congr (by simp [Suffix.green])

theorem suffix_openSlice (lb : Lexeme (ofKind .lbracket)) {lo : Expr kws} (op : Lexeme isRange)
    (rb : Lexeme (ofKind .rbracket)) (hlo : ExprReads source lo) : SuffixReads source (.openSlice lb lo op rb) := by
  intro tokens rest n g hn hcanon hrest
  have hlength : lo.print.length ≤ (Suffix.openSlice lb lo op rb).print.length := by
    simp only [Suffix.print, List.length_append]
    omega
  have hrb : Next (fun k => k = .rbracket) (rb.run ++ rest) := next_kind rb rfl rfl rest
  refine wraps_bracket lb hlo (by omega) hcanon.2 hcanon.1 ((range_stops op _).append rest) ?_
  refine Wraps.bind (f := fun (b : Bool) cp => if b then sliceEnd cp else do
    expect .rbracket "expected ']' after index"
    nodeAt cp .indexExpr (pure ())) (matchRange_reads op hrb) ?_
  have hskip : Reads (contextAt tokens source kws n) (guarded (test fun c p => peek c p ≠ .rbracket)
      (parseExprAt precRange)) [] (rb.run ++ rest) () [] := .skipped fun p hp => by
    have hk := hp.peek_of_next hrb
    simpa using hk
  have hclose : Wraps (contextAt tokens source kws n) (fun cp => do
      expect .rbracket "expected ']' to close slice"
      nodeAt cp .sliceExpr (pure ())) ([g] ++ leaves source lb.run ++ [lo.green source] ++ leaves source op.run ++ [])
      rb.run rest (.node .sliceExpr ([g] ++ leaves source lb.run ++ [lo.green source] ++ leaves source op.run ++
        [] ++ leaves source rb.run)) := wraps_rbracket rb hrest _ _ _
  have hend := Wraps.bind (f := fun _ cp => do
    expect .rbracket "expected ']' to close slice"
    nodeAt cp .sliceExpr (pure ())) hskip hclose
  exact hend.congr (by simp [Suffix.green])

end Suffixes

section Turns

theorem turn_again {tokens us rest : List Token} {n precedence k : Nat} {p p' : Parser} {g g' : Green}
    {f : SyntaxKind → Bool} (hp : Before (contextAt tokens source kws n) (put p [g] k) (us ++ rest))
    (hus : 1 ≤ us.length) (hrest : Next f rest)
    (hcontinues : continues precedence (contextAt tokens source kws n) (put p [g] k) = true)
    (hwraps : Wraps (contextAt tokens source kws n)
      (parseInfix (peek (contextAt tokens source kws n) (put p [g] k))) [g] us rest g')
    (hloop : Loops (exprTurn precedence p.gb.children.length) (contextAt tokens source kws n)
      (put p [g'] (k + us.length)) p') :
    Loops (exprTurn precedence p.gb.children.length) (contextAt tokens source kws n) (put p [g] k) p' := by
  have hturn : exprTurn precedence p.gb.children.length (contextAt tokens source kws n) (put p [g] k) =
      some (true, put p [g'] (k + us.length)) := by
    change (if continues precedence _ _ = true then _ else _ : Parse Bool) _ _ = _
    rw [if_pos hcontinues]
    change (parseInfix _ _ _ _).bind _ = _
    rw [hwraps p k hp]
    rfl
  have hthere : Before (contextAt tokens source kws n) (put p [g'] (k + us.length)) rest := by
    have h : Before (contextAt tokens source kws n) (put (put p [g] k) [] us.length) rest := Before.put hp
    exact ⟨h.typed, by simpa [put, Nat.add_assoc] using h.ahead⟩
  refine .again hturn ?_ (hthere.lt_length hrest).le hloop
  change p.pos + k < p.pos + (k + us.length)
  omega

theorem suffix_kind (s : Suffix kws) (rest : List Token) :
    Next (fun k => k = s.kind && isPostfixStart k && !isThunkStart k) (s.print ++ rest) := by
  cases s with
  | op l =>
      have h := l.fits
      simp only [isSuffixOp, Bool.or_eq_true, decide_eq_true_eq] at h
      rcases h with ((h | h) | h) | h <;>
        exact next_run l (by rw [Lexeme.kind, h]; rfl) (by rw [Suffix.kind, Lexeme.kind, h]; rfl) rest
  | field dot l => exact (next_kind dot rfl rfl _).append rest
  | call lp args rp => exact (next_kind lp rfl rfl _).append rest
  | index lb e rb => exact (next_kind lb rfl rfl _).append rest
  | slice lb lo op hi rb => exact (next_kind lb rfl rfl _).append rest
  | openSlice lb lo op rb => exact (next_kind lb rfl rfl _).append rest

theorem length_suffix (s : Suffix kws) : 1 ≤ s.print.length := by
  obtain ⟨t, rest, h, -⟩ := suffix_kind s []
  rw [List.append_nil] at h
  rw [h]
  exact Nat.le_add_left 1 _

theorem spine_suffix {e : Expr kws} {s : Suffix kws} (he : SpineReads source e) (hs : SuffixReads source s) :
    SpineReads source (.suffix e s) := by
  intro tokens rest n precedence hn hunary hcanon _ hrest p hp
  have hlength := length_print e
  have hsuffix := length_suffix s
  have hprint : (Expr.suffix e s).print.length = e.print.length + s.print.length := by
    rw [Expr.print, List.length_append]
  have habove : e.above precedence = true := by
    have hfits := hcanon.1
    cases e <;> first | rfl | exact absurd hfits (by simp [Expr.fitsSuffix])
  have hkind := suffix_kind s rest
  have hfollows : Next (follows e) (s.print ++ rest) := hkind.mono fun k hk => by
    have hfits := hcanon.1
    simp only [Bool.and_eq_true] at hk
    cases e <;> first | exact hk.2 | exact absurd hfits (by simp [Expr.fitsSuffix])
  rw [Expr.print, List.append_assoc] at hp
  obtain ⟨p₁, hprimary, hloop⟩ := he tokens _ n precedence (by omega) hunary hcanon.2.1 habove hfollows p hp
  refine ⟨p₁, hprimary, fun p' h => hloop p' ?_⟩
  have hthere : Before (contextAt tokens source kws n) (put p [e.green source] e.print.length) (s.print ++ rest) :=
    hp.put
  have hpeek := hthere.peek_of_next hkind
  simp only [Bool.and_eq_true, decide_eq_true_eq] at hpeek
  have hlow : precedence < precPostfix := Nat.lt_of_le_of_lt hunary (by decide)
  refine turn_again hthere hsuffix hrest (by simp [continues, hlow, hpeek.1.2]) ?_ (hprint ▸ h)
  rw [hpeek.1.1]
  exact hs tokens rest n _ (by omega) hcanon.2.2 hrest

theorem binary_kind (op : Lexeme isBinaryOp) : op.kind ∈ infixOps := mem_infixOps (of_decide_eq_true op.fits)

theorem prec_le_of_fitsLeft {l l' : Expr kws} {o op : Lexeme isBinaryOp} (h : fitsLeft op (.binary l o l') = true) :
    prec op ≤ rightPrec o ∧ prec op ≤ prec o := by
  simp only [fitsLeft, Bool.not_eq_true', Bool.or_eq_false_iff, Bool.and_eq_false_iff, decide_eq_false_iff_not] at h
  rw [rightPrec]
  rcases h.2 with hne | hassoc
  · split <;> omega
  · rw [if_neg (by simp [hassoc])]
    omega

theorem above_of_fitsRight {op : Lexeme isBinaryOp} {r : Expr kws} (h : fitsRight op r = true) :
    r.above (rightPrec op) = true := by
  cases r with
  | binary l o r' =>
      simp only [fitsRight, Bool.not_eq_true', Bool.or_eq_false_iff, Bool.and_eq_false_iff, decide_eq_false_iff_not,
        Bool.not_eq_false'] at h
      have hpos : precNone < prec op := of_decide_eq_true op.fits
      refine decide_eq_true ?_
      rw [rightPrec]
      rcases h.2 with hne | hassoc
      · split <;> simp only [precNone] at hpos <;> omega
      · by_cases heq : prec o = prec op
        · rw [if_pos (rightAssoc_of_prec heq ▸ hassoc)]
          simp only [precNone] at hpos
          omega
        · split <;> omega
  | _ => rfl

theorem follows_op {l : Expr kws} {op : Lexeme isBinaryOp} (h : fitsLeft op l = true) (rest : List Token) :
    Next (follows l) (op.run ++ rest) := by
  obtain ⟨-, htrivia, hpostfix, hthunk, hpower⟩ := infixOps_kinds _ (binary_kind op)
  refine next_run op htrivia ?_ rest
  cases l with
  | binary l₁ o l₂ =>
      have hle : getInfixPrecedence op.kind ≤ rightPrec o := (prec_le_of_fitsLeft h).1
      simp [follows, stops, hpostfix, hthunk, hle]
  | unary u e =>
      have hle : getInfixPrecedence op.kind ≤ precUnary := hpower.trans (by decide)
      simp [follows, stops, hpostfix, hthunk, hle]
  | _ => simp [follows, hthunk]

theorem spine_binary {l r : Expr kws} {op : Lexeme isBinaryOp} (hl : SpineReads source l) (hr : ExprReads source r) :
    SpineReads source (.binary l op r) := by
  intro tokens rest n precedence hn hunary hcanon habove hrest p hp
  obtain ⟨hleft, hright, hcl, hcr⟩ := hcanon
  obtain ⟨hplain, -, -, -, hpower⟩ := infixOps_kinds _ (binary_kind op)
  have hlength := length_print l
  have hop := op.run_length
  have hprint : (Expr.binary l op r).print.length = l.print.length + (op.run ++ r.print).length := by
    rw [Expr.print, List.length_append]
  have hbehind : (op.run ++ r.print).length = op.run.length + r.print.length := List.length_append
  have hlt : precedence < prec op := of_decide_eq_true habove
  have habovel : l.above precedence = true := by
    cases l with
    | binary l₁ o l₂ => exact decide_eq_true (hlt.trans_le (prec_le_of_fitsLeft hleft).2)
    | _ => rfl
  have hle : rightPrec op ≤ precUnary := by
    have h : prec op ≤ precPower := hpower
    rw [rightPrec]
    simp only [precUnary, precPower] at h ⊢
    split <;> omega
  rw [Expr.print, List.append_assoc] at hp
  obtain ⟨p₁, hprimary, hloop⟩ := hl tokens _ n precedence (by omega) hunary hcl habovel
    ((follows_op hleft r.print).append rest) p hp
  refine ⟨p₁, hprimary, fun p' h => hloop p' ?_⟩
  have hthere : Before (contextAt tokens source kws n) (put p [l.green source] l.print.length)
      ((op.run ++ r.print) ++ rest) := hp.put
  have hpeek : peek (contextAt tokens source kws n) (put p [l.green source] l.print.length) = op.kind := hthere.peek
  have hpos : precNone < getInfixPrecedence op.kind := of_decide_eq_true op.fits
  refine turn_again hthere (by omega) hrest ?_ ?_ (hprint ▸ h)
  · have hlt' : precedence < getInfixPrecedence op.kind := hlt
    simp [continues, hthere.typed, hpeek, hpos, hlt']
  · rw [hpeek, parseInfix_binary hpos]
    exact .nodeAt _ (.bind (advance_reads op hplain (next_print r rest))
      (hr tokens rest n _ (by omega) hle hcr (above_of_fitsRight hright) hrest))

end Turns

section Arguments

def argTurn : Parse Bool := do
  if ← test fun c p => !isEof c p && peek c p ≠ .rparen then do
    parseExprAt precNone
    pMatch .comma
  else pure false

theorem argTurn_reads {e : Expr kws} (he : ExprReads source e) {tokens us rest : List Token} {n : Nat}
    (hn : 2 * e.print.length ≤ n) (hcanon : e.Canonical) {b : Bool} {gs : List Green}
    (hrest : Next (stops precNone) (us ++ rest))
    (hcomma : Reads (contextAt tokens source kws n) (pMatch .comma) us rest b gs) :
    Reads (contextAt tokens source kws n) argTurn (e.print ++ us) rest b ([e.green source] ++ gs) := by
  refine .looked (a := true) (fun p hp => ?_) ?_
  · have hstart := hp.peek_of_next ((next_print e us).append rest)
    have hkinds := starts_kinds hstart
    have heof : isEof (contextAt tokens source kws n) p = false := by
      refine decide_eq_false fun heof => ?_
      rw [heof] at hkinds
      exact absurd hkinds.1 (by decide)
    simp [heof, hkinds.2.2.2.1]
  · exact .bind (he tokens _ n precNone hn (by decide) hcanon (above_none e) hrest) hcomma

/-- The argument list is read by the turns of its loop. -/
def ArgsLoop (source : Bytes) (args : Args kws) : Prop :=
  ∀ tokens rest n, 2 * args.print.length ≤ n → args.Canonical → Next (fun k => k = .rparen) rest →
    ∀ p, Before (contextAt tokens source kws n) p (args.print ++ rest) →
      Loops argTurn (contextAt tokens source kws n) p (put p (args.greens source) args.print.length)

theorem args_nil : ArgsLoop source (.nil : Args kws) := by
  intro tokens rest n _ _ hrest p hp
  have hstop : Reads (contextAt tokens source kws n) argTurn [] rest false [] :=
    .looked (a := false) (fun p hp => by
      have hk := of_decide_eq_true (hp.peek_of_next hrest)
      simp [hk]) (.pure false)
  exact .stop (hstop p hp)

theorem rparen_stops {rest : List Token} (h : Next (fun k => k = .rparen) rest) : Next (stops precNone) rest :=
  h.mono fun k hk => by rw [of_decide_eq_true hk]; rfl

theorem args_last {e : Expr kws} (he : ExprReads source e) : ArgsLoop source (.last e) := by
  intro tokens rest n hn hcanon hrest p hp
  have hcomma : Reads (contextAt tokens source kws n) (pMatch .comma) [] rest false [] :=
    match_fails (hrest.mono fun k hk => by rw [of_decide_eq_true hk]; rfl)
  have hstops : Next (stops precNone) ([] ++ rest) := rparen_stops hrest
  have hturn := argTurn_reads he hn hcanon hstops hcomma
  exact .stop ((hturn.congr (List.append_nil _) (List.append_nil _)) p hp)

theorem args_more {e : Expr kws} {comma : Lexeme (ofKind .comma)} {args : Args kws} (he : ExprReads source e)
    (hargs : ArgsLoop source args) : ArgsLoop source (.more e comma args) := by
  intro tokens rest n hn hcanon hrest p hp
  have hlength := length_print e
  have hprint : (Args.more e comma args).print.length = (e.print ++ comma.run).length + args.print.length := by
    simp only [Args.print, List.length_append]
    omega
  have hturn : (e.print ++ comma.run).length = e.print.length + comma.run.length := List.length_append
  have hbehind : Next insideArgs (args.print ++ rest) := by
    obtain ⟨t, us, rfl, htrivia, hk⟩ := hrest
    let rp : Lexeme (ofKind .rparen) := ⟨t, [], hk, nofun⟩
    have h := (next_args args rp).append us
    rwa [List.append_assoc] at h
  have hcomma : Reads (contextAt tokens source kws n) (pMatch .comma) comma.run (args.print ++ rest) true
      (leaves source comma.run) := match_reads comma rfl hbehind
  have hreads := argTurn_reads he (by omega) hcanon.1 (next_kind comma rfl rfl _) hcomma
  have hsplit : Before (contextAt tokens source kws n) p ((e.print ++ comma.run) ++ (args.print ++ rest)) := by
    simpa [Args.print] using hp
  have hthere : Before (contextAt tokens source kws n)
      (put p ([e.green source] ++ leaves source comma.run) (e.print ++ comma.run).length) (args.print ++ rest) :=
    hsplit.put
  have hloop := hargs tokens rest n (by omega) hcanon.2 hrest _ hthere
  rw [put_put] at hloop
  have hgreens : [e.green source] ++ leaves source comma.run ++ args.greens source =
      (Args.more e comma args).greens source := by
    rw [Args.greens, List.append_assoc]
  rw [hgreens, ← hprint] at hloop
  refine .again (hreads p hsplit) ?_ (hthere.lt_length hbehind).le hloop
  change p.pos < p.pos + (e.print ++ comma.run).length
  omega

theorem args_of_loop {args : Args kws} (h : ArgsLoop source args) : ArgsReads source args := by
  intro tokens rest n hn hcanon hrest p hp
  exact (h tokens rest n hn hcanon hrest p hp).repeatWhile

end Arguments

mutual

theorem expr_spine : (e : Expr kws) → SpineReads source e
  | .literal l => spine_of_primary (primary_literal l)
  | .name l => spine_of_primary (primary_name l)
  | .enumRef dot l => spine_of_primary (primary_enumRef dot l)
  | .builtin sign l lp args rp => spine_of_primary (primary_builtin sign l lp rp (args_of_loop (args_loop args)))
  | .paren lp e rp => spine_of_primary (primary_paren lp rp (expr_of_spine (expr_spine e)))
  | .unary op e => spine_of_primary (primary_unary op (expr_of_spine (expr_spine e)))
  | .suffix e s => spine_suffix (expr_spine e) (suffix_reads s)
  | .binary l _ r => spine_binary (expr_spine l) (expr_of_spine (expr_spine r))

theorem suffix_reads : (s : Suffix kws) → SuffixReads source s
  | .op l => suffix_op l
  | .field dot l => suffix_field dot l
  | .call lp args rp => suffix_call lp rp (args_of_loop (args_loop args))
  | .index lb e rb => suffix_index lb rb (expr_of_spine (expr_spine e))
  | .slice lb lo op hi rb => suffix_slice lb op rb (expr_of_spine (expr_spine lo)) (expr_of_spine (expr_spine hi))
  | .openSlice lb lo op rb => suffix_openSlice lb op rb (expr_of_spine (expr_spine lo))

theorem args_loop : (args : Args kws) → ArgsLoop source args
  | .nil => args_nil
  | .last e => args_last (expr_of_spine (expr_spine e))
  | .more e _ args => args_more (expr_of_spine (expr_spine e)) (args_loop args)

end

end Runs

section Precedence

/-- At the lowest precedence the whole run of tokens is read, and becomes one node.
The budget is that of the parse of a file. -/
def Parses (source : Bytes) (kws : ParserKws) (ts : List Token) (g : Green) : Prop :=
  ∀ tokens rest p n, 2 * ts.length ≤ n → Next (stops precNone) rest → p.parsingType = false →
    tokens.drop p.pos = ts ++ rest → runCall tokens source kws n (.expr precNone) p = some (put p [g] ts.length)

theorem parses_canonical (source : Bytes) {u : Expr kws} (h : u.Canonical) :
    Parses source kws u.print (u.green source) := by
  intro tokens rest p n hn hrest htyped hahead
  have hreads : ExprReads source u := expr_of_spine (expr_spine u)
  have hrun := hreads tokens rest n precNone hn (by decide) h (above_none u) hrest p ⟨htyped, hahead⟩
  change (runCall tokens source kws n (.expr precNone) p).map _ = _ at hrun
  simpa using hrun

theorem Parses.unique {source : Bytes} {ts : List Token} {g g' : Green} (h : Parses source kws ts g)
    (h' : Parses source kws ts g') : g = g' := by
  let eof : Token := ⟨.eof, 0, 0, 0⟩
  have hrun := h (ts ++ [eof]) [eof] Parser.start (2 * ts.length) le_rfl ⟨eof, [], rfl, rfl, rfl⟩ rfl rfl
  have hrun' := h' (ts ++ [eof]) [eof] Parser.start (2 * ts.length) le_rfl ⟨eof, [], rfl, rfl, rfl⟩ rfl rfl
  have hput := Option.some.inj (hrun.symm.trans hrun')
  have hchildren : [g] = [g'] := congrArg (fun p => p.gb.children) hput
  exact List.singleton_inj.mp hchildren

/-- A sequence whose brackets hold operators tighter than a range parses to its one
canonical tree, and a tree comes back from its printing with parentheses. -/
theorem parse_expr_precedence (source : Bytes) (kws : ParserKws) (t : Expr kws) (ht : t.Tight) :
    (∃ u : Expr kws, u.Canonical ∧ u.print = t.print ∧ Parses source kws t.print (u.green source) ∧
      ∀ v : Expr kws, v.Canonical → v.print = t.print → v.green source = u.green source) ∧
    ∀ (lp : Lexeme (ofKind .lparen)) (rp : Lexeme (ofKind .rparen)) (s : Expr kws),
      (withParens lp rp s).Canonical ∧ bare (withParens lp rp s) = bare s ∧ (s.Canonical → withParens lp rp s = s) ∧
        Parses source kws (withParens lp rp s).print ((withParens lp rp s).green source) := by
  constructor
  · have hcanon := canonical_regroup t ht
    have hparses : Parses source kws t.print ((regroup t).green source) :=
      print_regroup t ▸ parses_canonical source hcanon
    refine ⟨regroup t, hcanon, print_regroup t, hparses, fun v hv hprint => ?_⟩
    have hv' : Parses source kws t.print (v.green source) := hprint ▸ parses_canonical source hv
    exact hv'.unique hparses
  · intro lp rp s
    have hcanon := canonical_withParens lp rp s
    exact ⟨hcanon, bare_withParens lp rp s, withParens_canonical lp rp s, parses_canonical source hcanon⟩

end Precedence

section Example

def someKws : ParserKws := ⟨1, 2, 3, 4, 5, 6, 7, 8, 9, 10, 11, 12, 13, 14⟩

def ident (start : Nat) : Expr someKws := .name ⟨⟨.ident, 100, start, start + 1⟩, [], rfl, nofun⟩

def symbol (k : SyntaxKind) (start : Nat) : Lexeme (ofKind k) :=
  ⟨⟨k, 0, start, start + 1⟩, [], decide_eq_true rfl, nofun⟩

/-- The tokens of `a[b + c]` and of `a[b == c]`. -/
def indexed (k : SyntaxKind) (h : isBinaryOp ⟨k, 0, 3, 4⟩ = true) : Expr someKws :=
  .suffix (ident 0) (.index (symbol .lbracket 1) (.binary (ident 2) ⟨⟨k, 0, 3, 4⟩, [], h, nofun⟩ (ident 4))
    (symbol .rbracket 5))

theorem parse_expr_precedence_index : ∃ u : Expr someKws, u.Canonical ∧ u.print = (indexed .plus rfl).print ∧
    Parses [] someKws (indexed .plus rfl).print (u.green []) := by
  have htight : (indexed .plus rfl).Tight := by
    refine ⟨trivial, ?_, trivial, trivial⟩
    intro op hop
    obtain rfl : op = _ := List.mem_singleton.mp hop
    decide
  obtain ⟨u, hcanon, hprint, hparses, -⟩ := (parse_expr_precedence [] someKws (indexed .plus rfl) htight).1
  exact ⟨u, hcanon, hprint, hparses⟩

/-- The index stops in front of the comparison, and misses its bracket. -/
theorem index_of_comparison_unread : ¬∃ g, Parses [] someKws (indexed .eqEq rfl).print g := by
  rintro ⟨g, h⟩
  have hrun := h ((indexed .eqEq rfl).print ++ [⟨.eof, 0, 6, 6⟩]) [⟨.eof, 0, 6, 6⟩] Parser.start 14 (by decide)
    ⟨⟨.eof, 0, 6, 6⟩, [], rfl, rfl, rfl⟩ rfl rfl
  have herrors : (runCall ((indexed .eqEq rfl).print ++ [⟨.eof, 0, 6, 6⟩]) [] someKws 14 (.expr precNone)
      Parser.start).map (·.errors) = some [⟨3, "expected ']' after index"⟩] := by decide +kernel
  rw [hrun] at herrors
  exact absurd (Option.some.inj herrors) (by simp [put, Parser.start])

end Example

end Ore.PrattParsing
