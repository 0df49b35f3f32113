import Ore.ParserReads
import Ore.ParserTotal

namespace Ore.ErrorRecovery

open SyntaxKinds GreenTree GreenBuilder ParserCursor ParserGrammar ParserRules ParserTotal
open WorkspaceModel (Bytes)

variable {c : Context} {body : List Token} {p p' p'' : Parser} {sync : List Sync} {i j : Nat}

def taken (c : Context) (i j : Nat) : List Green :=
  ((c.tokens.drop i).take (j - i)).map fun t => .token (leafOf c.source t)

/-- The set has none of the tokens between two places. -/
def Free (c : Context) (sync : List Sync) (i j : Nat) : Prop :=
  ∀ k t, i ≤ k → k < j → c.tokens[k]? = some t → sync.any (Sync.stops t.kind) = false

/-- Tokens have been consumed, and gone into the open node. -/
structure Consumed (c : Context) (body : List Token) (p p' : Parser) : Prop where
  le : p.pos ≤ p'.pos
  bound : p'.pos ≤ body.length
  parents : p'.gb.parents = p.gb.parents
  children : p'.gb.children = p.gb.children ++ taken c p.pos p'.pos

/-- Recovery consumes a token unless at the end, what it consumes is one error node, and
only the first token can be in the set. -/
structure Recovered (c : Context) (body : List Token) (sync : List Sync) (p p' : Parser) : Prop where
  le : p.pos ≤ p'.pos
  bound : p'.pos ≤ body.length
  moved : isEof c p = false → p.pos < p'.pos
  tree : p'.gb = p.gb.push (.node .errorNode (taken c p.pos p'.pos))
  free : Free c sync (p.pos + 1) p'.pos

theorem taken_self (i : Nat) : taken c i i = [] := by
  rw [taken, Nat.sub_self, List.take_zero, List.map_nil]

theorem taken_append {k : Nat} (hij : i ≤ j) (hjk : j ≤ k) : taken c i k = taken c i j ++ taken c j k := by
  have hsplit : k - i = j - i + (k - j) := by omega
  have hdrop : c.tokens.drop j = (c.tokens.drop i).drop (j - i) := by
    rw [List.drop_drop, Nat.add_sub_cancel' hij]
  rw [taken, taken, taken, hsplit, hdrop, List.take_add, List.map_append]

theorem Consumed.refl (h : p.pos ≤ body.length) : Consumed c body p p :=
  ⟨Nat.le_refl _, h, rfl, by rw [taken_self, List.append_nil]⟩

theorem Consumed.trans (h : Consumed c body p p') (h' : Consumed c body p' p'') : Consumed c body p p'' := by
  refine ⟨h.le.trans h'.le, h'.bound, h'.parents.trans h.parents, ?_⟩
  rw [h'.children, h.children, List.append_assoc, ← taken_append h.le h'.le]

theorem Free.append {k : Nat} (h : Free c sync i j) (h' : Free c sync j k) : Free c sync i k := by
  intro l t hil hlk ht
  rcases Nat.lt_or_ge l j with hlt | hge
  · exact h l t hil hlt ht
  · exact h' l t hge hlk ht

theorem trivia_not_sync {k : SyntaxKind} (h : tokenIsTrivia k = true) (sync : List Sync) :
    sync.any (Sync.stops k) = false := by
  rw [List.any_eq_false]
  intro s _
  unfold tokenIsTrivia at h
  split at h
  · cases s <;> decide
  · cases s <;> decide
  · cases s <;> decide
  · cases h

theorem emit_children (run : List Token) (gb : Builder Green) : run.foldl (emitToken c) gb =
    ⟨gb.parents, gb.children ++ run.map fun t => .token (leafOf c.source t)⟩ := by
  induction run generalizing gb with
  | nil => rw [List.foldl_nil, List.map_nil, List.append_nil]
  | cons t run ih =>
      rw [List.foldl_cons, ih, List.map_cons, emitToken, Builder.push, List.append_assoc]
      rfl

theorem Consumed.of_run {run : List Token} (hgb : p'.gb = run.foldl (emitToken c) p.gb)
    (hpos : p'.pos = p.pos + run.length) (hrun : run <+: c.tokens.drop p.pos) (hbound : p'.pos ≤ body.length) :
    Consumed c body p p' := by
  refine ⟨hpos ▸ Nat.le_add_right _ _, hbound, ?_, ?_⟩
  · rw [hgb, emit_children]
  · rw [hgb, emit_children, taken, hpos, Nat.add_sub_cancel_left, ← List.prefix_iff_eq_take.mp hrun]

variable [hend : Ending c body]

theorem skipTrivia_consumes (hp : p.pos ≤ body.length) : ∃ p', skipTrivia c p = some ((), p') ∧ Consumed c body p p' ∧
    ∀ sync, Free c sync p.pos p'.pos := by
  refine ⟨_, rfl, .of_run rfl rfl (List.takeWhile_prefix _) (trivia_bound hp), fun sync k t hle hlt ht => ?_⟩
  have hin : k - p.pos < ((c.tokens.drop p.pos).takeWhile fun t => tokenIsTrivia t.kind).length := by
    simp only at hlt
    omega
  have hget := List.prefix_iff_getElem?.mp (List.takeWhile_prefix fun t : Token => tokenIsTrivia t.kind) _ hin
  rw [List.getElem?_drop, Nat.add_sub_cancel' hle, ht] at hget
  have htrivia : tokenIsTrivia t.kind = true := by
    rw [Option.some.inj hget]
    simpa using List.mem_takeWhile_imp (List.getElem_mem hin)
  exact trivia_not_sync htrivia sync

/-- A token, and the trivia behind it, in which the set has nothing. -/
theorem pAdvance_consumes (hp : p.pos < body.length) : ∃ p', pAdvance c p = some ((), p') ∧ Consumed c body p p' ∧
    p.pos < p'.pos ∧ ∀ sync, Free c sync (p.pos + 1) p'.pos := by
  obtain ⟨hget, hcurrent⟩ := current_eq (c := c) hp
  have heof : isEof c p = false := (isEof_eq_false (Nat.le_of_lt hp)).mpr hp
  obtain ⟨p₁, htake, htaken, hnext⟩ : ∃ p₁, takeToken c p = some ((), p₁) ∧ Consumed c body p p₁ ∧
      p₁.pos = p.pos + 1 := by
    have hinit : [body[p.pos]] <+: c.tokens.drop p.pos := by
      obtain ⟨h, hdrop⟩ := List.getElem?_eq_some_iff.mp hget
      rw [List.drop_eq_getElem_cons h, hdrop]
      exact List.prefix_append [body[p.pos]] _
    refine ⟨_, rfl, ?_⟩
    simp only [hcurrent]
    exact ⟨.of_run rfl rfl hinit hp, trivial⟩
  obtain ⟨p', hskip, hskipped, hfree⟩ := skipTrivia_consumes (c := c) htaken.bound
  refine ⟨p', ?_, htaken.trans hskipped, ?_, hnext ▸ hfree⟩
  · change (if isEof c p = true then _ else _ : Parse Unit) c p = _
    rw [if_neg (by simp [heof])]
    change (takeToken c p).bind _ = _
    rw [htake]
    exact hskip
  · have hle := hskipped.le
    omega

theorem skipOne_consumes (hp : p.pos < body.length) : ∃ p', skipOne c p = some ((), p') ∧ Consumed c body p p' ∧
    p.pos < p'.pos ∧ ∀ sync, Free c sync (p.pos + 1) p'.pos := by
  obtain ⟨p₁, hadvance, hconsumed, hlt, hfree⟩ := pAdvance_consumes (c := c) hp
  refine ⟨{ p₁ with fixCount := p₁.fixCount + 1 }, ?_,
    ⟨hconsumed.le, hconsumed.bound, hconsumed.parents, hconsumed.children⟩, hlt, hfree⟩
  change (pAdvance c p).bind _ = _
  rw [hadvance]
  rfl

/-- A token that is passed over is not in the set. -/
theorem free_here (hp : p.pos < body.length) (hsync : atSync sync c p = false) (h : Free c sync (p.pos + 1) j) :
    Free c sync p.pos j := by
  intro k t hle hlt ht
  rcases Nat.eq_or_lt_of_le hle with rfl | hgt
  · have hpeek : peek c p = t.kind := by
      rw [peek, (current_eq (c := c) hp).2, ← (current_eq (c := c) hp).1, ht]
      rfl
    rwa [atSync, hpeek] at hsync
  · exact h k t hgt hlt ht

theorem recoverLoop_consumes (sync : List Sync) (hp : p.pos ≤ body.length) :
    ∃ p', ParserReads.Loops (recoverTurn sync) c p p' ∧ Consumed c body p p' ∧ Free c sync p.pos p'.pos := by
  induction hleft : body.length - p.pos using Nat.strongRecOn generalizing p with
  | ind m ih =>
      have hturn : recoverTurn sync c p =
          if (!isEof c p && !atSync sync c p && p.fixCount < parseFixCap) = true then
            (skipOne c p).map fun x => (true, x.2) else some (false, p) := by
        change (if _ then _ else _ : Parse Bool) c p = _
        split_ifs with hgo
        · change (skipOne c p).bind _ = _
          cases skipOne c p <;> rfl
        · rfl
      split_ifs at hturn with hgo
      · simp only [Bool.and_eq_true, Bool.not_eq_true'] at hgo
        have hlt : p.pos < body.length := (isEof_eq_false hp).mp hgo.1.1
        obtain ⟨p₁, hskip, hconsumed, hmoved, hfree⟩ := skipOne_consumes (c := c) hlt
        have hfewer : body.length - p₁.pos < m := by omega
        obtain ⟨p', hloops, hrest, hfree'⟩ := ih _ hfewer hconsumed.bound rfl
        rw [hskip] at hturn
        refine ⟨p', .again hturn hmoved ?_ hloops, hconsumed.trans hrest,
          (free_here hlt hgo.1.2 (hfree sync)).append hfree'⟩
        obtain ⟨last, htokens, -, -⟩ := hend.ending
        rw [htokens, List.length_append]
        exact hconsumed.bound.trans (Nat.le_add_right _ _)
      · exact ⟨p, .stop hturn, .refl hp, fun k t hle hlt _ => absurd hle (Nat.not_le_of_lt hlt)⟩

theorem recoverBody_consumes (sync : List Sync) (hp : p.pos ≤ body.length) :
    ∃ p', (do
        let start ← pPos
        repeatWhile (recoverTurn sync)
        guarded (test fun c p => p.pos = start && !isEof c p) skipOne : Parse Unit) c p = some ((), p') ∧
      Consumed c body p p' ∧ (isEof c p = false → p.pos < p'.pos) ∧ Free c sync (p.pos + 1) p'.pos := by
  obtain ⟨p₁, hloops, hconsumed, hfree⟩ := recoverLoop_consumes (c := c) sync hp
  have hrun : (do
        let start ← pPos
        repeatWhile (recoverTurn sync)
        guarded (test fun c p => p.pos = start && !isEof c p) skipOne : Parse Unit) c p =
      if (p₁.pos = p.pos && !isEof c p₁) = true then skipOne c p₁ else some ((), p₁) := by
    change (repeatWhile (recoverTurn sync) c p).bind _ = _
    rw [hloops.repeatWhile]
    change (if _ then _ else _ : Parse Unit) c p₁ = _
    split_ifs <;> rfl
  rw [hrun]
  split_ifs with hstuck
  · simp only [Bool.and_eq_true, decide_eq_true_eq, Bool.not_eq_true'] at hstuck
    obtain ⟨hsame, heof⟩ := hstuck
    obtain ⟨p', hskip, htaken, hlt, hfree'⟩ := skipOne_consumes (c := c) ((isEof_eq_false hconsumed.bound).mp heof)
    rw [hsame] at hlt hfree'
    exact ⟨p', hskip, hconsumed.trans htaken, fun _ => hlt, hfree' sync⟩
  · refine ⟨p₁, rfl, hconsumed, fun heof => Nat.lt_of_le_of_ne hconsumed.le fun hsame => hstuck ?_, fun k t hle =>
      hfree k t (Nat.le_of_succ_le hle)⟩
    have hinside := (isEof_eq_false hp).mp heof
    simp [← hsame, (isEof_eq_false hconsumed.bound).mpr (hsame ▸ hinside)]

theorem pRecover_spec (sync : List Sync) (msg : String) (hp : p.pos ≤ body.length) :
    ∃ p', pRecover sync msg c p = some ((), p') ∧ Recovered c body sync p p' := by
  obtain ⟨p₀, herror, hgb, hpos⟩ : ∃ p₀, guarded (test fun _ p => p.fixCount < parseFixCap) (pError msg) c p =
      some ((), p₀) ∧ p₀.gb = p.gb ∧ p₀.pos = p.pos := by
    by_cases hcap : (decide (p.fixCount < parseFixCap)) = true
    · refine ⟨if p.inRecovery then p else { p with errors := p.errors ++ [⟨p.pos, msg⟩], inRecovery := true },
        ?_, ?_, ?_⟩
      · change (if _ then _ else _ : Parse Unit) c p = _
        rw [if_pos hcap]
        rfl
      · split_ifs <;> rfl
      · split_ifs <;> rfl
    · refine ⟨p, ?_, rfl, rfl⟩
      change (if _ then _ else _ : Parse Unit) c p = _
      rw [if_neg hcap]
      rfl
  let opened : Parser := { p₀ with gb := p₀.gb.startNode .errorNode }
  have hopened : opened.pos = p.pos := hpos
  obtain ⟨p₁, hbody, hconsumed, hmoved, hfree⟩ := recoverBody_consumes (c := c) (p := opened) sync (hopened ▸ hp)
  have heof : isEof c opened = isEof c p := by
    rw [isEof, isEof, peek, peek, current, current, hopened]
  rw [hopened] at hfree hmoved
  have hparents : p₁.gb.parents = (.errorNode, p.gb.children.length) :: p.gb.parents := by
    rw [hconsumed.parents, ← hgb]
    rfl
  have hchildren : p₁.gb.children = p.gb.children ++ taken c p.pos p₁.pos := by
    rw [hconsumed.children, hopened, ← hgb]
    rfl
  have hfinish : buildTree p₁.gb .finishNode = some (p.gb.push (.node .errorNode (taken c p.pos p₁.pos))) := by
    rw [buildTree, Builder.popFrame, hparents]
    simp only [hchildren, List.length_append, Nat.le_add_right, if_true, Option.map_some,
      List.drop_left, List.take_left]
  refine ⟨{ p₁ with gb := p.gb.push (.node .errorNode (taken c p.pos p₁.pos)) }, ?_, hopened ▸ hconsumed.le,
    hconsumed.bound, fun h => hmoved (heof.trans h), rfl, hfree⟩
  change (guarded _ _ c p).bind _ = _
  rw [herror]
  change ((_ : Parse Unit) c opened).bind _ = _
  rw [hbody]
  change ((buildTree p₁.gb .finishNode).map _).bind _ = _
  rw [hfinish]
  rfl

/-- Recovery makes progress from every state, and of every broken unit of a parse one
error at most is kept. -/
theorem error_recovery (body : List Token) (last : Token) (hlast : last.kind = .eof) (hbody : ∀ t ∈ body, t.kind ≠ .eof)
    (source : Bytes) (kws : ParserKws) :
    (∀ (calls : Call → Parser → Option Parser) (sync : List Sync) (msg : String) (p : Parser), p.pos ≤ body.length →
      ∃ p', pRecover sync msg ⟨body ++ [last], source, kws, calls⟩ p = some ((), p') ∧
        Recovered ⟨body ++ [last], source, kws, calls⟩ body sync p p') ∧
    ∃ root errors, parseFileGreen (body ++ [last]) source kws = some (root, errors) ∧
      errors.Pairwise fun e e' => Boundary (body ++ [last]) e.tokPos e'.tokPos := by
  constructor
  · intro calls sync msg p hp
    have hending : Ending ⟨body ++ [last], source, kws, calls⟩ body := ⟨last, rfl, hlast, hbody⟩
    exact pRecover_spec sync msg hp
  · obtain ⟨cs, errors, -, hparse, -, -, hapart⟩ := parseFileGreen_spec source kws rfl hlast hbody
    exact ⟨_, errors, hparse, hapart⟩

/-- `))`, `x::1` and `)` between semicolons. -/
def strays : List Token :=
  [⟨.rparen, 0, 0, 1⟩, ⟨.rparen, 0, 1, 2⟩, ⟨.semi, 0, 2, 3⟩, ⟨.ident, 20, 3, 4⟩, ⟨.colonColon, 0, 4, 6⟩,
    ⟨.intLit, 0, 6, 7⟩, ⟨.semi, 0, 7, 8⟩, ⟨.rparen, 0, 8, 9⟩, ⟨.semi, 0, 9, 10⟩]

def endToken : Token := ⟨.eof, 0, 10, 10⟩

def straySource : Bytes := [41, 41, 59, 120, 58, 58, 49, 59, 41, 59]

def strayKws : ParserKws := ⟨1, 2, 3, 4, 5, 6, 7, 8, 9, 10, 11, 12, 13, 14⟩

/-- One diagnostic for each unit that is no declaration. -/
theorem error_recovery_strays :
    (∀ (calls : Call → Parser → Option Parser) (sync : List Sync) (msg : String) (p : Parser), p.pos ≤ strays.length →
      ∃ p', pRecover sync msg ⟨strays ++ [endToken], straySource, strayKws, calls⟩ p = some ((), p') ∧
        Recovered ⟨strays ++ [endToken], straySource, strayKws, calls⟩ strays sync p p') ∧
    ∃ root errors, parseFileGreen (strays ++ [endToken]) straySource strayKws = some (root, errors) ∧
      errors.map (·.tokPos) = [0, 7] ∧
      errors.Pairwise fun e e' => Boundary (strays ++ [endToken]) e.tokPos e'.tokPos := by
  have hpos : (parseFileGreen (strays ++ [endToken]) straySource strayKws).map (·.2.map (·.tokPos)) = some [0, 7] := by
    decide +kernel
  obtain ⟨hrecovered, root, errors, hparse, hapart⟩ :=
    error_recovery strays endToken rfl (by decide) straySource strayKws
  rw [hparse, Option.map_some, Option.some.injEq] at hpos
  exact ⟨hrecovered, root, errors, hparse, hpos, hapart⟩

end Ore.ErrorRecovery
