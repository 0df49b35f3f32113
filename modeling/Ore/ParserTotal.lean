import Ore.ParserGrammar
import Ore.ParserRules

namespace Ore.ParserTotal

open SyntaxKinds GreenTree GreenBuilder ParserCursor ParserGrammar ParserRules
open WorkspaceModel (Bytes)

/-- The recursive calls return with at most `n` tokens left. -/
class Calls (c : Context) (body : List Token) (n : Nat) : Prop where
  expr : ∀ precedence b, Steady c body n b (call (.expr precedence))
  primary : ∀ b, Steady c body n b (call .primary)
  ifExpr : ∀ b, Moving c body n b (call .ifExpr)

set_option synthInstance.maxSize 1000

variable {α : Type} {c : Context} {body : List Token} {n b : Nat} {k : SyntaxKind} {msg : String}

section Rules

/-- A piece behind a test that fails at the end. -/
theorem Steady.tested {m x : Parse α} {g : Context → Parser → Bool}
    (hg : ∀ p, p.pos ≤ body.length → g c p = true → p.pos < body.length) [hm : Moving c body n b m]
    [hx : Steady c body n b x] : Steady c body n b (test g >>= fun a => if a = true then m else x) := by
  have htest : Triple c body b (Within body n) (test g) fun i a j => j = i ∧ (a = true → i < body.length) :=
    .ask fun p hi _ => ⟨rfl, hg p hi⟩
  exact ⟨htest.bind fun i a hi => .ite
    (fun ha => hm.run.weaken (fun j hj => hj.2.1 ▸ ⟨hi, hj.2.2 ha⟩) fun _ _ _ _ _ _ => trivial)
    fun _ => hx.run.weaken (fun j hj => hi.later hj.1) fun _ _ _ _ _ _ => trivial⟩

/-- Behind a consumed token one less is left. -/
theorem after_move {i : Nat} {m : Parse α} (hi : Within body (n + 1) i) [hm : Steady c body n b m] :
    Triple c body b (i < ·) m fun _ _ k => i < k :=
  hm.run.weaken (fun _ hj => hi.moved hj) fun _ _ _ hj hjk _ => Nat.lt_of_lt_of_le hj hjk

theorem goes_on {i : Nat} {m : Parse α} (hi : Within body n i) [hm : Steady c body n b m] :
    Triple c body b (i ≤ ·) m fun _ _ k => i ≤ k :=
  hm.run.weaken (fun _ hj => hi.later hj) fun _ _ _ hj hjk _ => hj.trans hjk

theorem Moving.fewer {m : Parse α} (hm : Moving c body (n + 1) b m) : Moving c body n b m :=
  ⟨hm.run.weaken (fun _ hi => ⟨Nat.le_succ_of_le hi.1, hi.2⟩) fun _ _ _ _ _ h => h⟩

instance {g : Nat → Parse Bool} [hg : ∀ cp, Turning c body n cp (g cp)] : Turning c body n b (pCheckpoint >>= g) :=
  ⟨.checkpoint fun cp => (hg cp).run⟩

end Rules

section Pieces

variable [hend : Ending c body] [hcalls : Calls c body n]

instance {precedence : Nat} : Steady c body n b (parseExprAt precedence) := hcalls.expr precedence b

instance : Steady c body n b (call .primary) := hcalls.primary b

instance : Moving c body n b (call .ifExpr) := hcalls.ifExpr b

instance : Steady c body n b skipGroup := by
  unfold skipGroup
  refine ⟨loopFrom_spec (q := fun _ => True) (fun depth => ?_) 1⟩
  have htest : Triple c body b (Within body n) (test fun c p => 0 < depth && !isEof c p) fun i a j =>
      j = i ∧ (a = true → i < body.length) :=
    .ask fun p hi _ => ⟨rfl, fun h => (isEof_eq_false hi).mp (by simpa using (Bool.and_eq_true_iff.mp h).2)⟩
  refine htest.bind fun i a hi => .ite (fun ha => ?_) fun _ => .pure _ fun _ _ => trivial
  have hpeek : Triple c body b (fun j => i ≤ j ∧ j = i ∧ (a = true → i < body.length)) pPeek fun _ _ j => j = i :=
    .ask fun p _ hj => hj.2.1
  refine hpeek.bind fun j k hj => ?_
  have hadvance : Triple c body b (fun l => j ≤ l ∧ l = i) pAdvance fun _ _ m => i < m :=
    pAdvance_spec.weaken (fun _ _ => trivial) fun l _ m hl _ hlm => hl.2 ▸ hlm (hl.2 ▸ hj.2.2 ha)
  exact hadvance.bind fun _ _ _ => .pure _ fun _ hm => hm.2

instance : Steady c body n b parseTypeExpr := by
  unfold parseTypeExpr
  infer_instance

instance {kind : SyntaxKind} : Steady c body n b (parseQualifiedType kind) := by
  unfold parseQualifiedType
  infer_instance

instance : Steady c body n b parseDistinctType := by
  unfold parseDistinctType
  infer_instance

instance : TurningInside c body n b bitFieldTurn := by
  unfold bitFieldTurn
  infer_instance

instance : Steady c body n b parseBitFieldType := by
  unfold parseBitFieldType
  infer_instance

instance : Steady c body n b (bindType k) := by
  unfold bindType
  infer_instance

theorem atModifierKw_inside {p : Parser} (hp : p.pos ≤ body.length) (h : atModifierKw c p = true) :
    p.pos < body.length := by
  refine (isEof_eq_false (c := c) hp).mp ?_
  rw [isEof, peek, decide_eq_false_iff_not]
  rw [atModifierKw, Option.any_eq_true] at h
  obtain ⟨t, ht, hkw⟩ := h
  rw [ht, Option.map_some, Option.getD_some]
  rintro heof
  simp [isModifierKw, heof] at hkw

instance : Turning c body n b modifierTurn := Turning.tested fun _ hp => atModifierKw_inside hp

instance : Steady c body n b bindValue := by
  unfold bindValue
  infer_instance

instance {cp : Nat} {destructure : Bool} : Steady c body n cp (emitBindDeclTail k cp destructure) := by
  unfold emitBindDeclTail
  infer_instance

instance : Steady c body n b parseNamedBindDecl := by
  unfold parseNamedBindDecl
  infer_instance

instance : Turning c body n b (pMatch .comma >>= fun a =>
    if a = true then parseExprAt precNone >>= fun _ => pure true else pure false) := Turning.more

instance {cp : Nat} : Steady c body n cp (parseBareDestructureTail cp) := by
  unfold parseBareDestructureTail
  infer_instance

instance : Steady c body n b exprStmt := by
  unfold exprStmt
  infer_instance

instance : Steady c body n b parseStmt := by
  unfold parseStmt
  infer_instance

instance {stmtParser : Parse Unit} [Steady c body n b stmtParser] : TurningInside c body n b (stmtTurn stmtParser) := by
  unfold stmtTurn
  infer_instance

instance {stmtParser : Parse Unit} [∀ b, Steady c body n b stmtParser] : Steady c body n b (parseBlock stmtParser) := by
  unfold parseBlock
  infer_instance

instance {stmtParser : Parse Unit} [∀ b, Steady c body n b stmtParser] : Steady c body n b (parseBody stmtParser) := by
  unfold parseBody
  infer_instance

instance : Steady c body n b effectRowTail := by
  have htail (k : SyntaxKind) : Steady c body n b (match k with
      | .dotDotDot => node .effectRowTail pAdvance
      | .dotDot => node .effectRowTail do
          pAdvance
          expect .ident "expected effect-variable name after '..'"
      | _ => pure ()) := by
    split <;> infer_instance
  unfold effectRowTail
  infer_instance

instance : Turning c body n b effectLabelTurn := Turning.tested fun p hp h => by
  simp only [Bool.and_eq_true, Bool.not_eq_true'] at h
  exact (isEof_eq_false hp).mp h.1.1.1

instance : Steady c body n b parseEffectRow := by
  unfold parseEffectRow
  infer_instance

instance : Steady c body n b atEffectRow := by
  unfold atEffectRow
  infer_instance

instance {required : Bool} : Steady c body n b (parseParam required) := by
  unfold parseParam
  infer_instance

instance : Steady c body n b (parseLambda k) := by
  unfold parseLambda
  infer_instance

instance : Steady c body n b parseFnLambda := by
  unfold parseFnLambda
  infer_instance

instance : Steady c body n b emitTrailingThunkLambda := by
  unfold emitTrailingThunkLambda
  infer_instance

instance {cp : Nat} : Steady c body n cp (parseInfix .lparen cp) := by
  unfold parseInfix infixCall
  infer_instance

instance {cp : Nat} : Steady c body n cp (sliceEnd cp) := by
  unfold sliceEnd
  infer_instance

instance : Steady c body n b (commaSeparated .rparen (parseExprAt precNone)) := by
  unfold commaSeparated
  infer_instance

instance : Steady c body n b pMatchRangeOp := by
  unfold pMatchRangeOp
  infer_instance

theorem parseInfix_moving {op : SyntaxKind} {cp : Nat} (hop : isThunkStart op = false) :
    Moving c body (n + 1) cp (parseInfix op cp) := by
  unfold parseInfix
  split
  · unfold infixCall
    infer_instance
  · exact absurd hop (by decide)
  · exact absurd hop (by decide)
  · exact absurd hop (by decide)
  · unfold infixBracket
    infer_instance
  all_goals infer_instance

omit hcalls in
theorem parseBlock_spec {stmtParser : Parse Unit} [∀ b, Steady c body n b stmtParser] :
    Triple c body b (fun i => Within body (n + 1) i ∧
        (kindMatchesWithVirtual .label (kindAt c i) = true ∨ kindMatchesWithVirtual .lbrace (kindAt c i) = true))
      (parseBlock stmtParser) fun i _ j => i < j := by
  refine .node fun b => ?_
  refine ((pMatch_spec (by decide)).weaken (fun _ _ => trivial) fun _ _ _ _ _ h => h).bind fun i label hi => ?_
  cases label with
  | true => exact (after_move hi.1).weaken (fun j hj => hj.2.2) fun _ _ _ _ _ h => h
  | false =>
      have hopen (hbrace : kindMatchesWithVirtual .lbrace (kindAt c i) = true) : Triple c body b (· = i)
          (pConsume .lbrace "expected '\x7b' to start block") fun _ _ k => i < k :=
        ((pConsume_at (by decide)).entered hbrace).weaken (fun _ hj => hj) fun _ _ _ _ _ h => h.2
      have hbrace : false = kindMatchesWithVirtual .label (kindAt c i) →
          kindMatchesWithVirtual .lbrace (kindAt c i) = true :=
        fun hlabel => hi.2.resolve_left fun h => by simp [h] at hlabel
      have hopened : Triple c body b (fun j => i ≤ j ∧ false = kindMatchesWithVirtual .label (kindAt c i) ∧ j = i)
          (pConsume .lbrace "expected '\x7b' to start block") fun _ _ k => i < k :=
        fun p hvalid hb hp => hopen (hbrace hp.2.1) p hvalid hb hp.2.2
      exact hopened.bind fun _ a _ => (after_move hi.1).weaken (fun _ hj => hj.2) fun _ _ _ _ _ h => h

theorem parseBody_spec : Triple c body b (fun i => Within body (n + 1) i ∧
    kindMatchesWithVirtual .lbrace (kindAt c i) = true) (parseBody parseStmt) fun i _ j => i < j := by
  have htest : Triple c body b (fun i => Within body (n + 1) i ∧ kindMatchesWithVirtual .lbrace (kindAt c i) = true)
      (test fun c p => check c p .label || check c p .lbrace || check c p .virtualLbrace) fun i a j =>
        j = i ∧ a = true :=
    .ask fun p _ hp => ⟨rfl, by rw [check, check, peek_eq, hp.2, Bool.or_true, Bool.true_or]⟩
  refine htest.bind fun i a hi => .ite (fun _ => ?_) fun ha => fun _ _ _ hp => absurd hp.2.2 ha
  exact (parseBlock_spec.entered ⟨hi.1, .inr hi.2⟩).weaken (fun _ hj => hj.2.1) fun _ _ _ _ _ h => h

theorem brace_of_thunk (h : isThunkStart k = true) (hfn : k ≠ .fnKw) : kindMatchesWithVirtual .lbrace k = true := by
  simp only [isThunkStart, Bool.or_eq_true, decide_eq_true_eq] at h
  rcases h with (h | rfl) | rfl
  · exact absurd h hfn
  · rfl
  · rfl

theorem thunk_ne_eof (h : isThunkStart k = true) : k ≠ .eof := by
  rintro rfl
  exact absurd h (by decide)

theorem emitTrailingThunkLambda_spec : Triple c body b (fun i => Within body (n + 1) i ∧
    isThunkStart (kindAt c i) = true) emitTrailingThunkLambda fun i _ j => i < j := by
  have htest : Triple c body b (fun i => Within body (n + 1) i ∧ isThunkStart (kindAt c i) = true)
      (test fun c p => peek c p = .fnKw) fun i a j => j = i ∧ a = decide (kindAt c i = .fnKw) ∧ i < body.length :=
    .ask fun p hp hi => ⟨rfl, rfl, kindAt_ne_eof hp (thunk_ne_eof hi.2)⟩
  refine htest.bind fun i a hi => .ite (fun _ => ?_) fun ha => ?_
  · have hmoving : Moving c body (n + 1) b parseFnLambda := by
      unfold parseFnLambda parseLambda
      infer_instance
    exact fun p hvalid hb hp => (hmoving.run.entered ⟨hi.1, hp.2.2.2⟩) p hvalid hb hp.2.1
  · refine .node fun b => ?_
    have hparams : Triple c body b (fun j => i ≤ j ∧ j = i ∧ a = decide (kindAt c i = .fnKw) ∧ i < body.length)
        (node .paramList (pure ())) fun _ _ l => l = i ∧ kindAt c i ≠ .fnKw :=
      .node fun _ => .pure _ fun j hj => ⟨hj.2.1, fun hfn => ha (hj.2.2.1.trans (decide_eq_true hfn))⟩
    refine hparams.bind fun j _ hj p hvalid hb hp => ?_
    exact parseBody_spec.entered ⟨hi.1, brace_of_thunk hi.2 hp.2.2⟩ p hvalid hb hp.2.1

/-- An operator is consumed where it stands. -/
theorem parseInfix_spec (op : SyntaxKind) (cp : Nat) :
    Triple c body cp (fun i => (Within body (n + 1) i ∧ i < body.length) ∧ kindAt c i = op) (parseInfix op cp)
      fun i _ j => i < j := by
  cases hop : isThunkStart op with
  | false => exact (parseInfix_moving hop).run.weaken (fun _ hi => hi.1) fun _ _ _ _ _ h => h
  | true =>
      have hthunk : parseInfix op cp = nodeAt cp .callExpr (node .argList emitTrailingThunkLambda) := by
        simp only [isThunkStart, Bool.or_eq_true, decide_eq_true_eq] at hop
        rcases hop with (rfl | rfl) | rfl <;> rfl
      rw [hthunk]
      exact .nodeAt fun _ => .node fun _ => emitTrailingThunkLambda_spec.weaken
        (fun i hi => ⟨hi.1.1, hi.2 ▸ hop⟩) fun _ _ _ _ _ h => h

end Pieces

section Prefixes

variable [hend : Ending c body] [hcalls : Calls c body n]

instance : Moving c body (n + 1) b (parseLambda k) := by
  unfold parseLambda
  infer_instance

instance : Moving c body (n + 1) b parseFnLambda := by
  unfold parseFnLambda
  infer_instance

instance : Moving c body (n + 1) b parseFnType := by
  unfold parseFnType
  infer_instance

instance : Moving c body (n + 1) b (parsePrefixUnary k) := by
  unfold parsePrefixUnary
  infer_instance

instance : Moving c body (n + 1) b parseReturnExpr := by
  unfold parseReturnExpr
  infer_instance

instance : Moving c body (n + 1) b parseDeferExpr := by
  unfold parseDeferExpr
  infer_instance

instance : Steady c body n b parseOptionalLabel := by
  unfold parseOptionalLabel
  infer_instance

instance : Moving c body (n + 1) b (parseBreakOrContinue k) := by
  unfold parseBreakOrContinue
  infer_instance

instance : Steady c body n b parseOptionalCapture := by
  unfold parseOptionalCapture
  infer_instance

instance : Steady c body n b condition := by
  unfold condition
  infer_instance

instance : Steady c body n b parseElse := by
  unfold parseElse
  infer_instance

theorem peek_inside {p : Parser} (hp : p.pos ≤ body.length) (h : peek c p = k) (hk : k ≠ .eof) :
    p.pos < body.length :=
  (isEof_eq_false (c := c) hp).mp (decide_eq_false (h ▸ hk))

instance : Steady c body n b (test (fun c p => peek c p = .elifKw) >>= fun a =>
    if a = true then call .ifExpr else parseElse) :=
  Steady.tested fun _ hp h => peek_inside hp (of_decide_eq_true h) (by decide)

instance : Moving c body (n + 1) b parseIfExpr := by
  unfold parseIfExpr
  infer_instance

instance : Steady c body n b loopContinue := by
  unfold loopContinue
  infer_instance

instance : Steady c body n b loopHeader := by
  unfold loopHeader
  infer_instance

instance : Moving c body (n + 1) b parseLoopExpr := by
  unfold parseLoopExpr
  infer_instance

instance : Turning c body n b switchPattern := by
  unfold switchPattern
  infer_instance

instance : Steady c body n b switchArm := by
  unfold switchArm
  infer_instance

instance : TurningInside c body n b switchTurn := by
  unfold switchTurn
  infer_instance

instance : Moving c body (n + 1) b parseSwitchExpr := by
  unfold parseSwitchExpr
  infer_instance

instance {isPub : Bool} : Steady c body n b (optionalPub isPub) := by
  unfold optionalPub
  infer_instance

instance {isPub : Bool} : Moving c body n b (anonymousField isPub) := by
  unfold anonymousField
  infer_instance

omit hend hcalls in
instance {t : Parse Bool} {u : Parse Unit} [Moving c body n b t] [Steady c body n b u] :
    Moving c body n b (guarded t u) :=
  inferInstanceAs (Moving c body n b (t >>= fun a => if a = true then u else pure ()))

/-- A field consumes `pub`, its name, or what stands there instead. -/
instance {isPub : Bool} : Moving c body n b (namedField isPub) := by
  cases isPub with
  | false =>
      have hpub (b : Nat) : Still c body b (optionalPub false) := inferInstanceAs (Still c body b (pure ()))
      unfold namedField
      infer_instance
  | true =>
      have hpub (b : Nat) : Moving c body n b (optionalPub true) := inferInstanceAs (Moving c body n b pAdvance)
      unfold namedField
      infer_instance

instance : TurningInside c body n b fieldTurn := by
  unfold fieldTurn
  infer_instance

instance : Moving c body (n + 1) b (parseAggregateExpr k) := by
  unfold parseAggregateExpr
  infer_instance

instance : TurningInside c body n b variantTurn := by
  unfold variantTurn
  infer_instance

instance : Moving c body (n + 1) b parseEnumExpr := by
  unfold parseEnumExpr
  infer_instance

instance : Steady c body n b initField := by
  unfold initField
  infer_instance

instance : Turning c body n b initTurn := by
  unfold initTurn
  have hmore (before : Nat) : Turning c body n b (pMatch .comma >>= fun a => if a = true then
      guarded (test fun _ p => p.pos = before) (pRecoverAuto "expected initializer field") >>= fun _ => pure true
      else pure false) := Turning.more
  infer_instance

instance : Steady c body n b (initList msg) := by
  unfold initList
  infer_instance

instance : Moving c body (n + 1) b (initList msg) := by
  unfold initList
  infer_instance

instance : Steady c body n b parseInitListBody := by
  unfold parseInitListBody
  infer_instance

instance : Moving c body (n + 1) b parseStructConstruction := by
  unfold parseStructConstruction
  infer_instance

instance {cp : Nat} : Steady c body n cp (arrayLiteral cp) := by
  unfold arrayLiteral
  infer_instance

instance : Moving c body (n + 1) b inferredArray := by
  unfold inferredArray
  infer_instance

instance : Moving c body (n + 1) b sizedArray := by
  unfold sizedArray
  infer_instance

instance : Moving c body (n + 1) b parseBracketExpr := by
  unfold parseBracketExpr
  infer_instance

instance : Moving c body (n + 1) b parseDotExpr := by
  have hdot (k : SyntaxKind) : Moving c body (n + 1) b (match k with
      | .lbrace | .virtualLbrace => node .productExpr do
          pAdvance
          initList "expected '\x7d' to close product literal"
      | .ident => node .enumRefExpr do
          pAdvance
          pAdvance
      | _ => do
          pError "unexpected '.'"
          pAdvance) := by
    split <;> infer_instance
  unfold parseDotExpr
  infer_instance

instance : Moving c body (n + 1) b parseBuiltinExpr := by
  unfold parseBuiltinExpr
  infer_instance

instance : Moving c body (n + 1) b parseMaskExpr := by
  unfold parseMaskExpr
  infer_instance

instance : Steady c body n b returnClause := by
  unfold returnClause
  infer_instance

instance : Steady c body n b parseHandlerClauseStmt := by
  unfold parseHandlerClauseStmt
  infer_instance

instance : Steady c body n b parseHandlerClauses := by
  unfold parseHandlerClauses
  infer_instance

instance : Steady c body n b parseHandlerExprX := by
  unfold parseHandlerExprX
  infer_instance

instance : Moving c body (n + 1) b handleExpr := by
  unfold handleExpr
  infer_instance

instance : Moving c body (n + 1) b parseHandlerExpr := by
  unfold parseHandlerExpr
  infer_instance

instance {cp : Nat} : Turning c body n cp (headTurn cp) := by
  have hpeek : Triple c body cp (Within body n) pPeek fun i k j => j = i ∧ k = kindAt c i ∧ i ≤ body.length :=
    .ask fun p hp _ => ⟨rfl, rfl, hp⟩
  refine ⟨hpeek.bind fun i k hi => .ite (fun hhead => ?_) fun _ => .pure _ fun _ _ h => absurd h (by decide)⟩
  have hthunk : isThunkStart k = false := by
    simp only [isHeadPostfix, Bool.or_eq_true, decide_eq_true_eq] at hhead
    rcases hhead with ((((rfl | rfl) | rfl) | rfl) | rfl) | rfl <;> rfl
  have hinside (hk : k = kindAt c i) (hle : i ≤ body.length) : i < body.length := by
    refine kindAt_ne_eof (c := c) hle fun heof => ?_
    rw [hk, heof] at hhead
    exact absurd hhead (by decide)
  have hinfix : Triple c body cp (fun j => i ≤ j ∧ j = i ∧ k = kindAt c i ∧ i ≤ body.length) (parseInfix k cp)
      fun _ _ l => i < l := fun p hvalid hb hp =>
    ((Moving.fewer (parseInfix_moving hthunk)).run.entered ⟨hi, hinside hp.2.2.1 hp.2.2.2⟩) p hvalid hb hp.2.1
  exact hinfix.bind fun _ _ _ => .pure _ fun _ hl _ => hl.2

instance : Steady c body n b withHead := by
  unfold withHead
  infer_instance

/-- A statement of the tail consumes a token if another one follows. -/
instance : TurningInside c body n b withTailTurn := by
  have hpos : Triple c body b (fun i => Within body n i ∧ i < body.length) pPos fun i a j => a = i ∧ j = i :=
    .ask fun _ _ _ => ⟨rfl, rfl⟩
  refine ⟨hpos.bind fun i before hi p hvalid hb hp => ?_⟩
  obtain ⟨hle, rfl, -⟩ := hp
  have htail : Triple c body b (before ≤ ·)
      (parseStmt >>= fun _ => test (fun c p => check c p .semi && endsBlock c p) >>=
      fun stop => if stop = true then pure false else pMatch .semi >>= fun _ =>
        guarded (test fun _ p => p.pos = before) (pRecoverAuto "expected statement") >>= fun _ => pure true)
      fun _ a k => a = true → before < k := by
    refine (goes_on hi.1).bind fun j _ hj => ?_
    refine Triple.bind ((goes_on hi.1).weaken (fun k hk => hk.2) fun _ _ _ _ _ h => h) fun k stop hk => ?_
    refine .ite (fun _ => .pure _ fun _ _ h => absurd h (by decide)) fun _ => ?_
    refine Triple.bind ((goes_on hi.1).weaken (fun l hl => hl.2) fun _ _ _ _ _ h => h) fun l _ hl => ?_
    refine Triple.bind ((guard_moves hi fun p hp => decide_eq_true hp).weaken (fun l hl => hl.2) fun _ _ _ _ _ h => h)
      fun _ _ _ => .pure _ fun _ hm _ => hm.2
  exact htail p hvalid hb hle

instance {hasTail : Bool} : Steady c body n b (withContinuation hasTail) := by
  unfold withContinuation
  infer_instance

instance : Steady c body n b withArgs := by
  unfold withArgs
  infer_instance

instance : Steady c body n b withBinding := by
  unfold withBinding
  infer_instance

instance {cp : Nat} : Steady c body n cp (withCall cp) := by
  unfold withCall
  infer_instance

instance : Moving c body (n + 1) b parseWithStmt := by
  unfold parseWithStmt
  infer_instance

instance : Steady c body n b opKind := by
  unfold opKind
  infer_instance

instance : Steady c body n b opParams := by
  unfold opParams
  infer_instance

instance : Steady c body n b opSignature := by
  unfold opSignature
  infer_instance

instance : TurningInside c body n b opTurn := by
  unfold opTurn
  infer_instance

instance : Moving c body (n + 1) b parseEffectDecl := by
  unfold parseEffectDecl
  infer_instance

instance : Moving c body (n + 1) b identExpr := by
  have hident (kind : Option SyntaxKind) : Moving c body (n + 1) b (match kind with
      | some kind => parseLambda kind
      | none => do
          if ← test fun c p => p.parsingType && atKw c p (·.distinctKw) then parseDistinctType
          else do
            if ← test fun c p => p.parsingType && atKw c p (·.bitField) then parseBitFieldType
            else do
              let kind ← ask fun _ p => if p.parsingType then SyntaxKind.refType else .refExpr
              node kind pAdvance) := by
    unfold parseDistinctType parseBitFieldType
    split <;> infer_instance
  unfold identExpr
  infer_instance

instance : Moving c body (n + 1) b parenExpr := by
  unfold parenExpr
  infer_instance

instance : Moving c body (n + 1) b fnExpr := by
  unfold fnExpr
  infer_instance

instance : Moving c body (n + 1) b structExpr := by
  unfold structExpr
  infer_instance

instance : Moving c body (n + 1) b handlerPrefix := by
  unfold handlerPrefix parseQualifiedType
  infer_instance

theorem parseEffectRow_spec : Triple c body b (fun i => Within body (n + 1) i ∧ kindAt c i = .lt) parseEffectRow
    fun i _ j => i < j := by
  refine .node fun b => ?_
  have hopen : Triple c body b (fun i => Within body (n + 1) i ∧ kindAt c i = .lt)
      (pConsume .lt "expected '<' to start effect row") fun i _ j => i < j :=
    (pConsume_at (by decide)).weaken (fun i hi => by rw [hi.2]; rfl) fun _ _ _ _ _ h => h.2
  have hexpect : Triple c body b (fun i => Within body (n + 1) i ∧ kindAt c i = .lt)
      (expect .lt "expected '<' to start effect row") fun i _ j => i < j :=
    hopen.bind fun _ _ _ => .pure _ fun _ hj => hj.2
  exact hexpect.bind fun i _ hi => (after_move hi.1).weaken (fun _ hj => hj.2) fun _ _ _ _ _ h => h

/-- What a token starts consumes it. -/
theorem parsePrefixAt_spec (k : SyntaxKind) :
    Triple c body b (fun i => (Within body (n + 1) i ∧ i < body.length) ∧ kindAt c i = k) (parsePrefixAt k)
      fun i _ j => i < j := by
  have hmoving {m : Parse Unit} (h : Moving c body (n + 1) b m) :
      Triple c body b (fun i => (Within body (n + 1) i ∧ i < body.length) ∧ kindAt c i = k) m fun i _ j => i < j :=
    h.run.weaken (fun _ hi => hi.1) fun _ _ _ _ _ h => h
  have hblock (h : kindMatchesWithVirtual .label k = true ∨ kindMatchesWithVirtual .lbrace k = true) :
      Triple c body b (fun i => (Within body (n + 1) i ∧ i < body.length) ∧ kindAt c i = k) (parseBlock parseStmt)
        fun i _ j => i < j :=
    parseBlock_spec.weaken (fun i hi => ⟨hi.1.1, by rwa [hi.2]⟩) fun _ _ _ _ _ h => h
  unfold parsePrefixAt
  split
  all_goals first
    | exact hmoving inferInstance
    | exact hblock (by decide)
    | exact parseEffectRow_spec.weaken (fun i hi => ⟨hi.1.1, hi.2⟩) fun _ _ _ _ _ h => h

instance : Moving c body (n + 1) b parsePrefix := by
  have hpeek : Triple c body b (fun i => Within body (n + 1) i ∧ i < body.length) pPeek fun i k j =>
      j = i ∧ k = kindAt c i :=
    .ask fun _ _ _ => ⟨rfl, rfl⟩
  refine ⟨hpeek.bind fun i k hi p hvalid hb hp => ?_⟩
  obtain ⟨-, hpos, rfl⟩ := hp
  exact (parsePrefixAt_spec _).entered ⟨hi, rfl⟩ p hvalid hb hpos

theorem continues_ne_eof {precedence : Nat} {p : Parser} (h : continues precedence c p = true) : peek c p ≠ .eof := by
  intro heof
  simp [continues, atThunk, isPostfixStart, isThunkStart, getInfixPrecedence, heof] at h

/-- A turn of the operator loop consumes the operator. -/
instance {precedence cp : Nat} : Turning c body (n + 1) cp (exprTurn precedence cp) := by
  have hinside : TurningInside c body (n + 1) cp (pPeek >>= fun op => parseInfix op cp >>= fun _ => pure true) := by
    have hpeek : Triple c body cp (fun i => Within body (n + 1) i ∧ i < body.length) pPeek fun i k j =>
        j = i ∧ k = kindAt c i :=
      .ask fun _ _ _ => ⟨rfl, rfl⟩
    refine ⟨hpeek.bind fun i k hi p hvalid hb hp => ?_⟩
    obtain ⟨-, hpos, rfl⟩ := hp
    have hop : Triple c body cp (· = i) (parseInfix (kindAt c i) cp >>= fun _ => pure true)
        fun _ a k => a = true → i < k :=
      ((parseInfix_spec (kindAt c i) cp).entered ⟨hi, rfl⟩).bind fun j _ hj => .pure _ fun k hk _ => hj ▸ hk.2
    exact hop p hvalid hb hpos
  exact Turning.tested fun p hp h => peek_inside hp rfl (continues_ne_eof h)

end Prefixes

section Depth

theorem not_inside {i : Nat} (h : Within body 0 i) : ¬ i < body.length :=
  Nat.not_lt.mpr (Nat.sub_eq_zero_iff_le.mp (Nat.le_zero.mp h))

theorem Moving.atEnd {m : Parse α} : Moving c body 0 b m := ⟨fun _ _ _ hp => absurd hp.2 (not_inside hp.1)⟩

variable [hend : Ending c body]

/-- Where a prefix always consumes a token, it also returns at the end. -/
theorem parsePrefix_steady (h : ∀ b, Moving c body n b parsePrefix) : Steady c body n b parsePrefix := by
  have hrecover : Steady c body n b (parsePrefixAt .eof) := by
    unfold parsePrefixAt
    infer_instance
  refine ⟨fun p hvalid hb hp => ?_⟩
  rcases Nat.lt_or_eq_of_le hvalid.bound with hlt | heq
  · obtain ⟨a, p', hrun, hvalid', hgrows, -⟩ := (h b).run p hvalid hb ⟨hp, hlt⟩
    exact ⟨a, p', hrun, hvalid', hgrows, trivial⟩
  · have heof : peek c p = .eof := (kindAt_eq_eof hvalid.bound).mpr heq
    have hinit : parsePrefix c p = parsePrefixAt .eof c p := by
      change parsePrefixAt (peek c p) c p = _
      rw [heof]
    rw [hinit]
    exact hrecover.run p hvalid hb hp

theorem exprTurn_atEnd {precedence cp : Nat} : Turning c body 0 cp (exprTurn precedence cp) :=
  have : TurningInside c body 0 cp (pPeek >>= fun op => parseInfix op cp >>= fun _ => pure true) :=
    ⟨fun _ _ _ hp => absurd hp.2 (not_inside hp.1)⟩
  Turning.tested fun _ hp h => peek_inside hp rfl (continues_ne_eof h)

theorem parseExpr_steady {precedence : Nat} (hprimary : ∀ b, Steady c body n b (call .primary))
    (hturn : ∀ cp, Turning c body n cp (exprTurn precedence cp)) : Steady c body n b (parseExpr precedence) := by
  unfold parseExpr
  infer_instance

omit hend in
theorem call_returns {pre : Nat → Prop} {post : Nat → Unit → Nat → Prop} {tokens : List Token} {source : Bytes}
    {kws : ParserKws} {depth : Nat} {call : Call}
    (h : Triple (contextAt tokens source kws depth) body b pre (bodyOf call) post) :
    Triple (contextAt tokens source kws (depth + 1)) body b pre (ParserCursor.call call) post := by
  intro p hvalid hb hp
  obtain ⟨a, p', hrun, hvalid', hgrows, hpost⟩ := h p ⟨hvalid.bound, hvalid.leaves, hvalid.quiet⟩ hb hp
  refine ⟨(), p', ?_, ⟨hvalid'.bound, hvalid'.leaves, hvalid'.quiet⟩, hgrows, hpost⟩
  change ((bodyOf call (contextAt tokens source kws depth) p).map _).map _ = _
  rw [hrun]
  rfl

end Depth

section TopLevel

variable [hend : Ending c body] [hcalls : Calls c body n]

instance : Steady c body n b topLevelDecl := by
  unfold topLevelDecl
  infer_instance

/-- A declaration consumes a token; the last turn finds the end. -/
theorem topLevelTurn_spec :
    Triple c body b (Within body n) topLevelTurn fun i a j => if a then i < j else j = body.length := by
  have heof : Triple c body b (Within body n) pIsEof fun i a j =>
      j = i ∧ (a = true → i = body.length) ∧ (a = false → i < body.length) :=
    .ask fun p hp _ => ⟨rfl, fun h => (kindAt_eq_eof hp).mp (of_decide_eq_true h), (isEof_eq_false hp).mp⟩
  refine heof.bind fun i a hi => .ite (fun ha => .pure _ fun j hj => hj.2.1.trans (hj.2.2.1 ha)) fun ha => ?_
  have hpos : Triple c body b (fun j => i ≤ j ∧ j = i ∧ (a = true → i = body.length) ∧ (a = false → i < body.length))
      pPos fun _ k j => k = i ∧ j = i ∧ i < body.length :=
    .ask fun p _ hj => ⟨hj.2.1, hj.2.1, hj.2.2.2 (by simpa using ha)⟩
  refine hpos.bind fun j before hj p hvalid hb hp => ?_
  obtain ⟨hle, rfl, heq, hlt⟩ := hp
  have hturn : Triple c body b (before ≤ ·)
      (topLevelDecl >>= fun _ => expect .semi "expected ';' after top-level declaration" >>= fun _ =>
      guarded (test fun _ p => p.pos = before) pAdvance >>= fun _ => pure true)
      fun _ a k => if a then before < k else k = body.length := by
    refine (goes_on hi).bind fun k _ hk => ?_
    refine Triple.bind ((goes_on hi).weaken (fun l hl => hl.2) fun _ _ _ _ _ h => h) fun l _ hl => ?_
    refine Triple.bind
      ((guard_moves ⟨hi, hlt⟩ fun p hp => decide_eq_true hp).weaken (fun l hl => hl.2) fun _ _ _ _ _ h => h)
      fun _ _ _ => .pure _ fun _ hm => hm.2
  obtain ⟨a, p', hrun, hvalid', hgrows, hpost⟩ := hturn p hvalid hb (Nat.le_of_eq heq.symm)
  exact ⟨a, p', hrun, hvalid', hgrows, by simpa [hj.2.1] using hpost⟩

theorem parseTopLevelDecls_spec :
    Triple c body b (Within body n) parseTopLevelDecls fun _ _ j => j = body.length :=
  repeatWhile_spec topLevelTurn_spec

end TopLevel

section Runs

variable {tokens : List Token} {last : Token}

theorem calls_return (source : Bytes) (kws : ParserKws) (htokens : tokens = body ++ [last])
    (hlast : last.kind = .eof) (hbody : ∀ t ∈ body, t.kind ≠ .eof)
    (n : Nat) : ∀ depth, (2 * n + 1 ≤ depth → ∀ b, Steady (contextAt tokens source kws depth) body n b (call .primary) ∧
      Moving (contextAt tokens source kws depth) body n b (call .ifExpr)) ∧
    (2 * n + 2 ≤ depth → ∀ precedence b,
      Steady (contextAt tokens source kws depth) body n b (call (.expr precedence))) := by
  have hending (depth : Nat) : Ending (contextAt tokens source kws depth) body := ⟨last, htokens, hlast, hbody⟩
  induction n with
  | zero =>
      have hprimary (depth : Nat) (hdepth : 1 ≤ depth) (b : Nat) :
          Steady (contextAt tokens source kws depth) body 0 b (call .primary) := by
        obtain ⟨depth, rfl⟩ := Nat.exists_eq_add_of_le' hdepth
        exact ⟨call_returns (parsePrefix_steady fun _ => Moving.atEnd).run⟩
      intro depth
      refine ⟨fun hdepth b => ⟨hprimary depth hdepth b, Moving.atEnd⟩, fun hdepth precedence b => ?_⟩
      obtain ⟨depth, rfl⟩ := Nat.exists_eq_add_of_le' hdepth
      exact ⟨call_returns (parseExpr_steady (hprimary _ (Nat.le_add_left 1 depth)) fun _ => exprTurn_atEnd).run⟩
  | succ n ih =>
      have hcalls (depth : Nat) (hdepth : 2 * n + 2 ≤ depth) : Calls (contextAt tokens source kws depth) body n :=
        ⟨(ih depth).2 hdepth, fun b => ((ih depth).1 (Nat.le_of_succ_le hdepth) b).1,
          fun b => ((ih depth).1 (Nat.le_of_succ_le hdepth) b).2⟩
      have hprimary (depth : Nat) (hdepth : 2 * (n + 1) + 1 ≤ depth) (b : Nat) :
          Steady (contextAt tokens source kws depth) body (n + 1) b (call .primary) := by
        obtain ⟨depth, rfl⟩ := Nat.exists_eq_add_of_le' (Nat.le_of_add_left_le hdepth)
        have hcall := hcalls depth (by omega)
        exact ⟨call_returns (parsePrefix_steady fun _ => inferInstance).run⟩
      intro depth
      refine ⟨fun hdepth b => ⟨hprimary depth hdepth b, ?_⟩, fun hdepth precedence b => ?_⟩
      · obtain ⟨depth, rfl⟩ := Nat.exists_eq_add_of_le' (Nat.le_of_add_left_le hdepth)
        have hcall := hcalls depth (by omega)
        have hif : Moving (contextAt tokens source kws depth) body (n + 1) b parseIfExpr := inferInstance
        exact ⟨call_returns hif.run⟩
      · obtain ⟨depth, rfl⟩ := Nat.exists_eq_add_of_le' (Nat.le_of_add_left_le hdepth)
        have hcall := hcalls (depth + 1) (by omega)
        exact ⟨call_returns (parseExpr_steady (hprimary _ (by omega)) fun _ => inferInstance).run⟩

/-- The parse of a stream that ends with its only end token: it returns, the calls on
the builder make up its tree, the leaves are the tokens, and the errors are a unit apart. -/
theorem parseFileGreen_spec (source : Bytes) (kws : ParserKws) (htokens : tokens = body ++ [last])
    (hlast : last.kind = .eof)
    (hbody : ∀ t ∈ body, t.kind ≠ .eof) : ∃ cs errors script,
      parseFileGreen tokens source kws = some (.node .sourceFile cs, errors) ∧
      treeOf script = some (.node .sourceFile cs) ∧ RedTree.leavesAll cs = body.map (leafOf source) ∧
      errors.Pairwise fun e e' => Boundary tokens e.tokPos e'.tokPos := by
  have hlength : body.length ≤ tokens.length := by
    rw [htokens, List.length_append]
    exact Nat.le_add_right _ _
  obtain ⟨hprimary, hexpr⟩ := calls_return source kws htokens hlast hbody body.length
    (2 * tokens.length + 2)
  let c := contextAt tokens source kws (2 * tokens.length + 2)
  have hending : Ending c body := ⟨last, htokens, hlast, hbody⟩
  have hcalls : Calls c body body.length :=
    ⟨hexpr (by omega), fun b => (hprimary (by omega) b).1, fun b => (hprimary (by omega) b).2⟩
  have hdecls : Triple c body 0 (fun _ => True) parseTopLevelDecls fun _ _ j => j = body.length :=
    parseTopLevelDecls_spec.weaken (fun _ _ => Nat.sub_le _ _) fun _ _ _ _ _ h => h
  have hfile : Triple c body 0 (fun _ => True) (skipTrivia >>= fun _ => parseTopLevelDecls >>= fun _ => skipTrivia)
      fun _ _ j => body.length ≤ j := by
    refine skipTrivia_spec.bind fun _ _ _ => (hdecls.weaken (fun _ _ => trivial) fun _ _ _ _ _ h => h).bind
      fun _ _ _ => skipTrivia_spec.weaken (fun _ _ => trivial) fun j _ k hj hjk _ => ?_
    exact hj.2 ▸ hjk
  let start : Parser := { Parser.start with gb := Parser.start.gb.startNode .sourceFile }
  obtain ⟨_, p', hrun, hvalid, hgrows, hend⟩ :=
    hfile start ⟨Nat.zero_le _, rfl, by simp [start, Parser.start], .nil, by simp [start, Parser.start]⟩
      (Nat.zero_le _) trivial
  have hpos : p'.pos = body.length := Nat.le_antisymm hvalid.bound hend
  have hparents : p'.gb.parents = [(.sourceFile, 0)] := hgrows.parents
  have hfinish : buildTree p'.gb .finishNode = some ⟨[], [.node .sourceFile p'.gb.children]⟩ := by
    rw [buildTree, Builder.popFrame, hparents]
    rfl
  obtain ⟨ops, hops⟩ := hgrows.script
  refine ⟨p'.gb.children, p'.errors, .startNode .sourceFile :: (ops ++ [.finishNode]), ?_, ?_, ?_, hvalid.quiet.apart⟩
  · have hparse : parseFile c Parser.start =
        some ((), { p' with gb := ⟨[], [.node .sourceFile p'.gb.children]⟩ }) := by
      change ((skipTrivia >>= fun _ => parseTopLevelDecls >>= fun _ => skipTrivia : Parse Unit) c start).bind _ = _
      rw [hrun]
      change ((buildTree p'.gb .finishNode).map _).bind _ = _
      rw [hfinish]
      rfl
    rw [parseFileGreen, show contextAt tokens source kws (2 * tokens.length + 2) = c from rfl, hparse]
    rfl
  · have hscript : (BuilderOp.startNode .sourceFile :: (ops ++ [.finishNode])).foldlM buildTree
      (greenBuilderNew Green) =
        some ⟨[], [.node .sourceFile p'.gb.children]⟩ := by
      change (ops ++ [BuilderOp.finishNode]).foldlM buildTree start.gb = _
      rw [List.foldlM_append, hops]
      change (do let b ← buildTree p'.gb .finishNode; some b) = _
      rw [hfinish]
      rfl
    rw [treeOf, hscript]
    rfl
  · have htake : c.tokens.take p'.pos = body := by
      change tokens.take p'.pos = body
      rw [htokens, hpos, List.take_left]
    rw [hvalid.leaves, htake]
    rfl

end Runs

end Ore.ParserTotal
