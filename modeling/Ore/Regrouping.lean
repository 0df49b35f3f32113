import Ore.OperatorTrees

namespace Ore.Regrouping

open SyntaxKinds GreenTree ParserCursor ParserGrammar ParserReads OperatorTrees

variable {kws : ParserKws}

def addSuffix : Expr kws → Suffix kws → Expr kws
  | .binary l op r, s => .binary l op (addSuffix r s)
  | .unary op e, s => .unary op (addSuffix e s)
  | e, s => .suffix e s

/-- A prefix operator goes to the first operand. -/
def addUnary (op : Lexeme isUnaryOp) : Expr kws → Expr kws
  | .binary l o r => .binary (addUnary op l) o r
  | e => .unary op e

/-- The operator `o` groups before `op` behind it. -/
def closes (o op : Lexeme isBinaryOp) : Bool :=
  prec op < prec o || prec op = prec o && !rightAssoc o

/-- One more operand. -/
def push : Expr kws → Lexeme isBinaryOp → Expr kws → Expr kws
  | .binary l o r, op, x => if closes o op then .binary (.binary l o r) op x else .binary l o (push r op x)
  | e, op, x => .binary e op x

/-- A sequence behind another. -/
def join : Expr kws → Lexeme isBinaryOp → Expr kws → Expr kws
  | l, op, .binary r₁ o r₂ => join (join l op r₁) o r₂
  | l, op, e => push l op e

mutual

/-- The same sequence, grouped by the precedence table. -/
def regroup : Expr kws → Expr kws
  | .literal l => .literal l
  | .name l => .name l
  | .enumRef dot l => .enumRef dot l
  | .builtin sign l lp args rp => .builtin sign l lp (regroupArgs args) rp
  | .paren lp e rp => .paren lp (regroup e) rp
  | .unary op e => addUnary op (regroup e)
  | .suffix e s => addSuffix (regroup e) (regroupSuffix s)
  | .binary l op r => join (regroup l) op (regroup r)

def regroupSuffix : Suffix kws → Suffix kws
  | .op l => .op l
  | .field dot l => .field dot l
  | .call lp args rp => .call lp (regroupArgs args) rp
  | .index lb e rb => .index lb (regroup e) rb
  | .slice lb lo op hi rb => .slice lb (regroup lo) op (regroup hi) rb
  | .openSlice lb lo op rb => .openSlice lb (regroup lo) op rb

def regroupArgs : Args kws → Args kws
  | .nil => .nil
  | .last e => .last (regroup e)
  | .more e comma args => .more (regroup e) comma (regroupArgs args)

end

section Print

variable (op : Lexeme isBinaryOp) (x : Expr kws)

theorem print_addSuffix (e : Expr kws) (s : Suffix kws) : (addSuffix e s).print = e.print ++ s.print := by
  fun_induction addSuffix e s with
  | case1 l op r s ih => rw [Expr.print, ih, Expr.print, List.append_assoc, List.append_assoc]
  | case2 op e s ih => rw [Expr.print, ih, Expr.print, List.append_assoc]
  | case3 e s => rw [Expr.print]

theorem print_addUnary (op : Lexeme isUnaryOp) (e : Expr kws) : (addUnary op e).print = op.run ++ e.print := by
  fun_induction addUnary op e with
  | case1 l o r ih => rw [Expr.print, ih, Expr.print, List.append_assoc]
  | case2 e => rw [Expr.print]

theorem print_push (e : Expr kws) : (push e op x).print = e.print ++ (op.run ++ x.print) := by
  fun_induction push e op x with
  | case1 l o r op x h => rw [Expr.print]
  | case2 l o r op x h ih => rw [Expr.print, ih, Expr.print, List.append_assoc, List.append_assoc]
  | case3 e op x => rw [Expr.print]

theorem print_join (l : Expr kws) : (join l op x).print = l.print ++ (op.run ++ x.print) := by
  fun_induction join l op x with
  | case1 l op r₁ o r₂ ih₁ ih₂ => rw [ih₂, ih₁, Expr.print, List.append_assoc, List.append_assoc]
  | case2 l op e => rw [print_push]

end Print

mutual

theorem print_regroup : (e : Expr kws) → (regroup e).print = e.print
  | .literal _ | .name _ | .enumRef _ _ => rfl
  | .builtin _ _ _ args _ => by rw [regroup, Expr.print, Expr.print, print_regroupArgs args]
  | .paren _ e _ => by rw [regroup, Expr.print, Expr.print, print_regroup e]
  | .unary _ e => by rw [regroup, print_addUnary, Expr.print, print_regroup e]
  | .suffix e s => by rw [regroup, print_addSuffix, Expr.print, print_regroup e, print_regroupSuffix s]
  | .binary l _ r => by rw [regroup, print_join, Expr.print, print_regroup l, print_regroup r]

theorem print_regroupSuffix : (s : Suffix kws) → (regroupSuffix s).print = s.print
  | .op _ | .field _ _ => rfl
  | .call _ args _ => by rw [regroupSuffix, Suffix.print, Suffix.print, print_regroupArgs args]
  | .index _ e _ => by rw [regroupSuffix, Suffix.print, Suffix.print, print_regroup e]
  | .slice _ lo _ hi _ => by rw [regroupSuffix, Suffix.print, Suffix.print, print_regroup lo, print_regroup hi]
  | .openSlice _ lo _ _ => by rw [regroupSuffix, Suffix.print, Suffix.print, print_regroup lo]

theorem print_regroupArgs : (args : Args kws) → (regroupArgs args).print = args.print
  | .nil => rfl
  | .last e => by rw [regroupArgs, Args.print, Args.print, print_regroup e]
  | .more e _ args => by rw [regroupArgs, Args.print, Args.print, print_regroup e, print_regroupArgs args]

end

section Operators

variable (op : Lexeme isBinaryOp) (x : Expr kws)

theorem operators_addSuffix (e : Expr kws) (s : Suffix kws) : (addSuffix e s).operators = e.operators := by
  fun_induction addSuffix e s with
  | case1 l op r s ih => rw [Expr.operators, ih, Expr.operators]
  | case2 op e s ih => rw [Expr.operators, ih, Expr.operators]
  | case3 e s => rw [Expr.operators]

theorem operators_addUnary (op : Lexeme isUnaryOp) (e : Expr kws) : (addUnary op e).operators = e.operators := by
  fun_induction addUnary op e with
  | case1 l o r ih => rw [Expr.operators, ih, Expr.operators]
  | case2 e => rw [Expr.operators]

theorem operators_push (e : Expr kws) : (push e op x).operators = e.operators ++ op :: x.operators := by
  fun_induction push e op x with
  | case1 l o r op x h => rw [Expr.operators]
  | case2 l o r op x h ih => rw [Expr.operators, ih, Expr.operators, List.append_assoc, List.cons_append]
  | case3 e op x => rw [Expr.operators]

theorem operators_join (l : Expr kws) : (join l op x).operators = l.operators ++ op :: x.operators := by
  fun_induction join l op x with
  | case1 l op r₁ o r₂ ih₁ ih₂ => rw [ih₂, ih₁, Expr.operators, List.append_assoc, List.cons_append]
  | case2 l op e => rw [operators_push]

theorem operators_regroup : (e : Expr kws) → (regroup e).operators = e.operators
  | .literal _ | .name _ | .enumRef _ _ | .builtin _ _ _ _ _ | .paren _ _ _ => rfl
  | .unary _ e => by rw [regroup, operators_addUnary, Expr.operators, operators_regroup e]
  | .suffix e _ => by rw [regroup, operators_addSuffix, Expr.operators, operators_regroup e]
  | .binary l _ r => by rw [regroup, operators_join, Expr.operators, operators_regroup l, operators_regroup r]

end Operators

section Fits

variable {op : Lexeme isBinaryOp} {x : Expr kws}

theorem rightAssoc_of_prec {o op : Lexeme isBinaryOp} (h : prec o = prec op) : rightAssoc o = rightAssoc op := by
  have hprec (k : SyntaxKind) : isRightAssociative k =
      (decide (getInfixPrecedence k = precAssign) || decide (getInfixPrecedence k = precPower)) := by
    cases k <;> rfl
  rw [rightAssoc, rightAssoc, hprec, hprec, ← prec, ← prec, h]

theorem fitsLeft_of_closes {l r : Expr kws} {o : Lexeme isBinaryOp} (h : closes o op = true) :
    fitsLeft op (.binary l o r) = true := by
  have hclose : prec op < prec o ∨ prec op = prec o ∧ rightAssoc o = false := by simpa [closes] using h
  rw [fitsLeft]
  rcases hclose with hlt | ⟨heq, hassoc⟩
  · simp [Nat.not_lt_of_lt hlt, Nat.ne_of_gt hlt]
  · simp [heq, hassoc]

theorem fitsRight_of_open {l r : Expr kws} {o : Lexeme isBinaryOp} (h : closes o op = false) :
    fitsRight o (.binary l op r) = true := by
  have hopen : prec o ≤ prec op ∧ (prec op = prec o → rightAssoc o = true) := by simpa [closes] using h
  rw [fitsRight]
  rcases Nat.lt_or_eq_of_le hopen.1 with hlt | heq
  · simp [Nat.not_lt_of_lt hlt, Nat.ne_of_gt hlt]
  · simp [heq, ← rightAssoc_of_prec heq, hopen.2 heq.symm]

theorem fitsRight_addSuffix {e : Expr kws} (s : Suffix kws) (h : fitsRight op e = true) :
    fitsRight op (addSuffix e s) = true := by
  cases e <;> first | rfl | exact h

theorem fitsUnary_addSuffix {e : Expr kws} (s : Suffix kws) (h : e.fitsUnary = true) :
    (addSuffix e s).fitsUnary = true := by
  cases e <;> first | rfl | exact h

theorem fitsLeft_addUnary {e : Expr kws} (u : Lexeme isUnaryOp) (h : fitsLeft op e = true) :
    fitsLeft op (addUnary u e) = true := by
  cases e <;> first | rfl | exact h

/-- With one more operand, an operand either keeps its head or gets the new one. -/
theorem fitsRight_push {o : Lexeme isBinaryOp} {e : Expr kws} (h : fitsRight o e = true) (hopen : closes o op = false) :
    fitsRight o (push e op x) = true := by
  cases e with
  | binary l o' r =>
      rw [push]
      split
      · exact fitsRight_of_open hopen
      · exact h
  | _ => exact fitsRight_of_open hopen

end Fits

section Canonical

theorem canonical_addSuffix {e : Expr kws} {s : Suffix kws} (he : e.Canonical) (hs : s.Canonical) :
    (addSuffix e s).Canonical := by
  fun_induction addSuffix e s with
  | case1 l op r s ih =>
      obtain ⟨hl, hr, hcl, hcr⟩ := he
      exact ⟨hl, fitsRight_addSuffix s hr, hcl, ih hcr hs⟩
  | case2 op e s ih =>
      obtain ⟨hu, hce⟩ := he
      exact ⟨fitsUnary_addSuffix s hu, ih hce hs⟩
  | case3 e s hbinary hunary =>
      refine ⟨?_, he, hs⟩
      cases e with
      | binary l op r => exact absurd rfl (hbinary l op r)
      | unary op e => exact absurd rfl (hunary op e)
      | _ => rfl

theorem canonical_addUnary {u : Lexeme isUnaryOp} {e : Expr kws} (he : e.Canonical) : (addUnary u e).Canonical := by
  fun_induction addUnary u e with
  | case1 l o r ih =>
      obtain ⟨hl, hr, hcl, hcr⟩ := he
      exact ⟨fitsLeft_addUnary u hl, hr, ih hcl, hcr⟩
  | case2 e hbinary =>
      refine ⟨?_, he⟩
      cases e with
      | binary l o r => exact absurd rfl (hbinary l o r)
      | _ => rfl

theorem canonical_push {e : Expr kws} {op : Lexeme isBinaryOp} {x : Expr kws} (he : e.Canonical) (hx : x.Canonical)
    (hoperand : x.fitsUnary = true) : (push e op x).Canonical := by
  have hfits (o : Lexeme isBinaryOp) : fitsRight o x = true := by
    cases x <;> first | rfl | exact absurd hoperand (by simp [Expr.fitsUnary])
  fun_induction push e op x with
  | case1 l o r op x hclose => exact ⟨fitsLeft_of_closes hclose, hfits op, he, hx⟩
  | case2 l o r op x hopen ih =>
      obtain ⟨hl, hr, hcl, hcr⟩ := he
      exact ⟨hl, fitsRight_push hr (by simpa using hopen), hcl, ih hcr hx hoperand hfits⟩
  | case3 e op x hbinary =>
      refine ⟨?_, hfits op, he, hx⟩
      cases e with
      | binary l o r => exact absurd rfl (hbinary l o r)
      | _ => rfl

theorem canonical_join {l : Expr kws} {op : Lexeme isBinaryOp} {r : Expr kws} (hl : l.Canonical) (hr : r.Canonical) :
    (join l op r).Canonical := by
  fun_induction join l op r with
  | case1 l op r₁ o r₂ ih₁ ih₂ => exact ih₂ (ih₁ hl hr.2.2.1) hr.2.2.2
  | case2 l op e hbinary =>
      refine canonical_push hl hr ?_
      cases e with
      | binary l o r => exact absurd rfl (hbinary l o r)
      | _ => rfl

theorem above_of_aboveRange {e : Expr kws} (h : e.aboveRange) : e.above precRange = true := by
  cases e with
  | binary l op r => exact decide_eq_true (h op (by simp [Expr.operators]))
  | _ => rfl

theorem above_regroup {e : Expr kws} (h : e.aboveRange) : (regroup e).above precRange = true :=
  above_of_aboveRange fun op hop => h op (operators_regroup e ▸ hop)

end Canonical

mutual

theorem canonical_regroup : (e : Expr kws) → e.Tight → (regroup e).Canonical
  | .literal _, _ | .name _, _ | .enumRef _ _, _ => trivial
  | .builtin _ _ _ args _, h => canonical_regroupArgs args h
  | .paren _ e _, h => canonical_regroup e h
  | .unary _ e, h => canonical_addUnary (canonical_regroup e h)
  | .suffix e s, h => canonical_addSuffix (canonical_regroup e h.1) (canonical_regroupSuffix s h.2)
  | .binary l _ r, h => canonical_join (canonical_regroup l h.1) (canonical_regroup r h.2)

theorem canonical_regroupSuffix : (s : Suffix kws) → s.Tight → (regroupSuffix s).Canonical
  | .op _, _ | .field _ _, _ => trivial
  | .call _ args _, h => canonical_regroupArgs args h
  | .index _ e _, h => ⟨above_regroup h.1, canonical_regroup e h.2⟩
  | .slice _ lo _ hi _, h =>
      ⟨⟨above_regroup h.1.1, canonical_regroup lo h.1.2⟩, above_regroup h.2.1, canonical_regroup hi h.2.2⟩
  | .openSlice _ lo _ _, h => ⟨above_regroup h.1, canonical_regroup lo h.2⟩

theorem canonical_regroupArgs : (args : Args kws) → args.Tight → (regroupArgs args).Canonical
  | .nil, _ => trivial
  | .last e, h => canonical_regroup e h
  | .more e _ args, h => ⟨canonical_regroup e h.1, canonical_regroupArgs args h.2⟩

end

section Parens

variable (lp : Lexeme (ofKind .lparen)) (rp : Lexeme (ofKind .rparen))

def enclose (fits : Bool) (e : Expr kws) : Expr kws := if fits then e else .paren lp e rp

mutual

/-- The tree with the parentheses that its printing needs. -/
def withParens : Expr kws → Expr kws
  | .literal l => .literal l
  | .name l => .name l
  | .enumRef dot l => .enumRef dot l
  | .builtin sign l lp' args rp' => .builtin sign l lp' (withParensArgs args) rp'
  | .paren lp' e rp' => .paren lp' (withParens e) rp'
  | .unary op e => .unary op (enclose lp rp e.fitsUnary (withParens e))
  | .suffix e s => .suffix (enclose lp rp e.fitsSuffix (withParens e)) (withParensSuffix s)
  | .binary l op r =>
      .binary (enclose lp rp (fitsLeft op l) (withParens l)) op (enclose lp rp (fitsRight op r) (withParens r))

def withParensSuffix : Suffix kws → Suffix kws
  | .op l => .op l
  | .field dot l => .field dot l
  | .call lp' args rp' => .call lp' (withParensArgs args) rp'
  | .index lb e rb => .index lb (enclose lp rp (e.above precRange) (withParens e)) rb
  | .slice lb lo op hi rb => .slice lb (enclose lp rp (lo.above precRange) (withParens lo)) op
      (enclose lp rp (hi.above precRange) (withParens hi)) rb
  | .openSlice lb lo op rb => .openSlice lb (enclose lp rp (lo.above precRange) (withParens lo)) op rb

def withParensArgs : Args kws → Args kws
  | .nil => .nil
  | .last e => .last (withParens e)
  | .more e comma args => .more (withParens e) comma (withParensArgs args)

end

mutual

def bare : Expr kws → Expr kws
  | .literal l => .literal l
  | .name l => .name l
  | .enumRef dot l => .enumRef dot l
  | .builtin sign l lp' args rp' => .builtin sign l lp' (bareArgs args) rp'
  | .paren _ e _ => bare e
  | .unary op e => .unary op (bare e)
  | .suffix e s => .suffix (bare e) (bareSuffix s)
  | .binary l op r => .binary (bare l) op (bare r)

def bareSuffix : Suffix kws → Suffix kws
  | .op l => .op l
  | .field dot l => .field dot l
  | .call lp' args rp' => .call lp' (bareArgs args) rp'
  | .index lb e rb => .index lb (bare e) rb
  | .slice lb lo op hi rb => .slice lb (bare lo) op (bare hi) rb
  | .openSlice lb lo op rb => .openSlice lb (bare lo) op rb

def bareArgs : Args kws → Args kws
  | .nil => .nil
  | .last e => .last (bare e)
  | .more e comma args => .more (bare e) comma (bareArgs args)

end

theorem bare_enclose (fits : Bool) (e : Expr kws) : bare (enclose lp rp fits e) = bare e := by
  cases fits <;> rfl

/-- A tree keeps its head under new parentheses, so it fits where it fitted, and
what did not fit is a parenthesis now. -/
theorem fits_enclose {f : Expr kws → Bool} (hparen : ∀ e, f (.paren lp e rp) = true) {e : Expr kws}
    (hhead : f (withParens lp rp e) = f e) : f (enclose lp rp (f e) (withParens lp rp e)) = true := by
  by_cases h : f e = true
  · rw [h, enclose, if_pos rfl, hhead, h]
  · rw [enclose, if_neg h, hparen]

theorem canonical_enclose {fits : Bool} {e : Expr kws} (h : e.Canonical) : (enclose lp rp fits e).Canonical := by
  cases fits <;> exact h

mutual

theorem bare_withParens : (e : Expr kws) → bare (withParens lp rp e) = bare e
  | .literal _ | .name _ | .enumRef _ _ => rfl
  | .builtin _ _ _ args _ => by rw [withParens, bare, bare, bare_withParensArgs args]
  | .paren _ e _ => by rw [withParens, bare, bare, bare_withParens e]
  | .unary _ e => by rw [withParens, bare, bare, bare_enclose, bare_withParens e]
  | .suffix e s => by rw [withParens, bare, bare, bare_enclose, bare_withParens e, bare_withParensSuffix s]
  | .binary l _ r => by rw [withParens, bare, bare, bare_enclose, bare_enclose, bare_withParens l, bare_withParens r]

theorem bare_withParensSuffix : (s : Suffix kws) → bareSuffix (withParensSuffix lp rp s) = bareSuffix s
  | .op _ | .field _ _ => rfl
  | .call _ args _ => by rw [withParensSuffix, bareSuffix, bareSuffix, bare_withParensArgs args]
  | .index _ e _ => by rw [withParensSuffix, bareSuffix, bareSuffix, bare_enclose, bare_withParens e]
  | .slice _ lo _ hi _ => by
      rw [withParensSuffix, bareSuffix, bareSuffix, bare_enclose, bare_enclose, bare_withParens lo, bare_withParens hi]
  | .openSlice _ lo _ _ => by rw [withParensSuffix, bareSuffix, bareSuffix, bare_enclose, bare_withParens lo]

theorem bare_withParensArgs : (args : Args kws) → bareArgs (withParensArgs lp rp args) = bareArgs args
  | .nil => rfl
  | .last e => by rw [withParensArgs, bareArgs, bareArgs, bare_withParens e]
  | .more e _ args => by rw [withParensArgs, bareArgs, bareArgs, bare_withParens e, bare_withParensArgs args]

end

theorem above_enclose (e : Expr kws) :
    (enclose lp rp (e.above precRange) (withParens lp rp e)).above precRange = true :=
  fits_enclose lp rp (f := Expr.above precRange) (fun _ => rfl) (by cases e <;> rfl)

mutual

theorem canonical_withParens : (e : Expr kws) → (withParens lp rp e).Canonical
  | .literal _ | .name _ | .enumRef _ _ => trivial
  | .builtin _ _ _ args _ => canonical_withParensArgs args
  | .paren _ e _ => canonical_withParens e
  | .unary _ e => by
      have hfits := fits_enclose lp rp (f := Expr.fitsUnary) (fun _ => rfl) (e := e) (by cases e <;> rfl)
      exact ⟨hfits, canonical_enclose lp rp (canonical_withParens e)⟩
  | .suffix e s => by
      have hfits := fits_enclose lp rp (f := Expr.fitsSuffix) (fun _ => rfl) (e := e) (by cases e <;> rfl)
      exact ⟨hfits, canonical_enclose lp rp (canonical_withParens e), canonical_withParensSuffix s⟩
  | .binary l op r => by
      have hleft := fits_enclose lp rp (f := fitsLeft op) (fun _ => rfl) (e := l) (by cases l <;> rfl)
      have hright := fits_enclose lp rp (f := fitsRight op) (fun _ => rfl) (e := r) (by cases r <;> rfl)
      exact ⟨hleft, hright, canonical_enclose lp rp (canonical_withParens l),
        canonical_enclose lp rp (canonical_withParens r)⟩

theorem canonical_withParensSuffix : (s : Suffix kws) → (withParensSuffix lp rp s).Canonical
  | .op _ | .field _ _ => trivial
  | .call _ args _ => canonical_withParensArgs args
  | .index _ e _ => ⟨above_enclose lp rp e, canonical_enclose lp rp (canonical_withParens e)⟩
  | .slice _ lo _ hi _ => ⟨⟨above_enclose lp rp lo, canonical_enclose lp rp (canonical_withParens lo)⟩,
      above_enclose lp rp hi, canonical_enclose lp rp (canonical_withParens hi)⟩
  | .openSlice _ lo _ _ => ⟨above_enclose lp rp lo, canonical_enclose lp rp (canonical_withParens lo)⟩

theorem canonical_withParensArgs : (args : Args kws) → (withParensArgs lp rp args).Canonical
  | .nil => trivial
  | .last e => canonical_withParens e
  | .more e _ args => ⟨canonical_withParens e, canonical_withParensArgs args⟩

end

mutual

theorem withParens_canonical : (e : Expr kws) → e.Canonical → withParens lp rp e = e
  | .literal _, _ | .name _, _ | .enumRef _ _, _ => rfl
  | .builtin _ _ _ args _, h => by rw [withParens, withParensArgs_canonical args h]
  | .paren _ e _, h => by rw [withParens, withParens_canonical e h]
  | .unary _ e, h => by rw [withParens, withParens_canonical e h.2, h.1, enclose, if_pos rfl]
  | .suffix e s, h => by
      rw [withParens, withParens_canonical e h.2.1, withParensSuffix_canonical s h.2.2, h.1, enclose, if_pos rfl]
  | .binary l op r, h => by
      rw [withParens, withParens_canonical l h.2.2.1, withParens_canonical r h.2.2.2, h.1, h.2.1, enclose, enclose,
        if_pos rfl, if_pos rfl]

theorem withParensSuffix_canonical : (s : Suffix kws) → s.Canonical → withParensSuffix lp rp s = s
  | .op _, _ | .field _ _, _ => rfl
  | .call _ args _, h => by rw [withParensSuffix, withParensArgs_canonical args h]
  | .index _ e _, h => by rw [withParensSuffix, withParens_canonical e h.2, h.1, enclose, if_pos rfl]
  | .slice _ lo _ hi _, h => by
      rw [withParensSuffix, withParens_canonical lo h.1.2, withParens_canonical hi h.2.2, h.1.1, h.2.1, enclose,
        enclose, if_pos rfl, if_pos rfl]
  | .openSlice _ lo _ _, h => by rw [withParensSuffix, withParens_canonical lo h.2, h.1, enclose, if_pos rfl]

theorem withParensArgs_canonical : (args : Args kws) → args.Canonical → withParensArgs lp rp args = args
  | .nil, _ => rfl
  | .last e, h => by rw [withParensArgs, withParens_canonical e h]
  | .more e _ args, h => by rw [withParensArgs, withParens_canonical e h.1, withParensArgs_canonical args h.2]

end

end Parens

end Ore.Regrouping
