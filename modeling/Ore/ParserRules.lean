import Ore.ParserCursor
import Ore.RedTree

namespace Ore.ParserRules

open SyntaxKinds GreenTree GreenBuilder ParserCursor RedTree
open WorkspaceModel (Bytes)

/-- The end token stands behind the other tokens, and only there. -/
class Ending (c : Context) (body : List Token) : Prop where
  ending : ∃ last, c.tokens = body ++ [last] ∧ last.kind = .eof ∧ ∀ t ∈ body, t.kind ≠ .eof

/-- A separator or closing brace, real or virtual, between two places. -/
def Boundary (tokens : List Token) (i j : Nat) : Prop :=
  ∃ k t, i ≤ k ∧ k < j ∧ tokens[k]? = some t ∧ (kindIsStmtSep t.kind || kindIsCloseBrace t.kind) = true

/-- Between two errors a unit ends, and with the flag down one has ended since the last. -/
structure Quiet (tokens : List Token) (pos : Nat) (errors : List ParseError) (inRecovery : Bool) : Prop where
  behind : ∀ e ∈ errors, e.tokPos ≤ pos
  apart : errors.Pairwise fun e e' => Boundary tokens e.tokPos e'.tokPos
  rearmed : inRecovery = false → ∀ e ∈ errors, Boundary tokens e.tokPos pos

/-- The tokens before the cursor are the leaves so far, and one error at most is
kept of a broken unit. -/
structure Valid (c : Context) (body : List Token) (p : Parser) : Prop where
  bound : p.pos ≤ body.length
  leaves : leavesAll p.gb.children = (c.tokens.take p.pos).map (leafOf c.source)
  quiet : Quiet c.tokens p.pos p.errors p.inRecovery

/-- What every piece does: it closes the nodes it opens, keeps the elements up
to a place, and never moves back. -/
structure Grows (b : Nat) (p p' : Parser) : Prop where
  parents : p'.gb.parents = p.gb.parents
  base : b ≤ p'.gb.children.length
  pos : p.pos ≤ p'.pos
  script : ∃ ops : List BuilderOp, ops.foldlM buildTree p.gb = some p'.gb

/-- From the positions in `pre`, and at or above a place in the builder, a
piece returns, with its result and the new position in `post`. -/
def Triple {α : Type} (c : Context) (body : List Token) (b : Nat) (pre : Nat → Prop) (m : Parse α)
    (post : Nat → α → Nat → Prop) : Prop :=
  ∀ p, Valid c body p → b ≤ p.gb.children.length → pre p.pos →
    ∃ a p', m c p = some (a, p') ∧ Valid c body p' ∧ Grows b p p' ∧ post p.pos a p'.pos

def Within (body : List Token) (n i : Nat) : Prop := body.length - i ≤ n

variable {α β σ : Type} {c : Context} {body : List Token} {n b : Nat}

/-- A piece that returns when at most `n` tokens are left. -/
class Steady (c : Context) (body : List Token) (n b : Nat) (m : Parse α) : Prop where
  run : Triple c body b (Within body n) m fun _ _ _ => True

/-- A piece that consumes a token, if there is one. -/
class Moving (c : Context) (body : List Token) (n b : Nat) (m : Parse α) : Prop where
  run : Triple c body b (fun i => Within body n i ∧ i < body.length) m fun i _ j => i < j

/-- A turn of a loop: it consumes a token or ends the loop. -/
class Turning (c : Context) (body : List Token) (n b : Nat) (m : Parse Bool) : Prop where
  run : Triple c body b (Within body n) m fun i a j => a = true → i < j

/-- A turn that is taken only when a token is left. -/
class TurningInside (c : Context) (body : List Token) (n b : Nat) (m : Parse Bool) : Prop where
  run : Triple c body b (fun i => Within body n i ∧ i < body.length) m fun i a j => a = true → i < j

/-- A piece that stays where it is. -/
class Still (c : Context) (body : List Token) (b : Nat) (m : Parse α) : Prop where
  run : Triple c body b (fun _ => True) m fun i _ j => j = i

theorem Grows.refl {p : Parser} (hb : b ≤ p.gb.children.length) : Grows b p p := ⟨rfl, hb, Nat.le_refl _, [], rfl⟩

theorem Grows.trans {p p' p'' : Parser} (h : Grows b p p') (h' : Grows b p' p'') : Grows b p p'' := by
  obtain ⟨ops, hops⟩ := h.script
  obtain ⟨ops', hops'⟩ := h'.script
  refine ⟨h'.parents.trans h.parents, h'.base, h.pos.trans h'.pos, ops ++ ops', ?_⟩
  rw [List.foldlM_append, hops]
  exact hops'

theorem Grows.weaken {b' : Nat} {p p' : Parser} (h : Grows b p p') (hle : b' ≤ b) : Grows b' p p' :=
  ⟨h.parents, hle.trans h.base, h.pos, h.script⟩

theorem Within.later {i j : Nat} (h : Within body n i) (hij : i ≤ j) : Within body n j := by
  rw [Within] at h ⊢
  omega

theorem Within.moved {i j : Nat} (h : Within body (n + 1) i) (hij : i < j) : Within body n j := by
  rw [Within] at h ⊢
  omega

theorem Quiet.later {tokens : List Token} {i j : Nat} {errors : List ParseError} {inRecovery : Bool}
    (h : Quiet tokens i errors inRecovery)
    (hij : i ≤ j) : Quiet tokens j errors inRecovery := by
  refine ⟨fun e he => (h.behind e he).trans hij, h.apart, fun hdown e he => ?_⟩
  obtain ⟨k, t, hle, hlt, ht⟩ := h.rearmed hdown e he
  exact ⟨k, t, hle, Nat.lt_of_lt_of_le hlt hij, ht⟩

/-- A boundary that is consumed puts the flag down. -/
theorem Quiet.passed {tokens : List Token} {i : Nat} {errors : List ParseError} {inRecovery : Bool} {t : Token}
    (h : Quiet tokens i errors inRecovery) (ht : tokens[i]? = some t) : Quiet tokens (i + 1) errors
      (if kindIsStmtSep t.kind || kindIsCloseBrace t.kind then false else inRecovery) := by
  split_ifs with hends
  · exact ⟨fun e he => (h.behind e he).trans (Nat.le_succ i), h.apart, fun _ e he =>
      ⟨i, t, h.behind e he, Nat.lt_succ_self i, ht, hends⟩⟩
  · exact h.later (Nat.le_succ i)

theorem Quiet.error {tokens : List Token} {i : Nat} {errors : List ParseError}
    (h : Quiet tokens i errors false) (msg : String) :
    Quiet tokens i (errors ++ [⟨i, msg⟩]) true := by
  refine ⟨fun e he => ?_, ?_, fun hdown => by cases hdown⟩
  · rcases List.mem_append.mp he with he | he
    · exact h.behind e he
    · exact Nat.le_of_eq (congrArg ParseError.tokPos (List.mem_singleton.mp he))
  · refine List.pairwise_append.mpr ⟨h.apart, List.pairwise_singleton _ _, fun e he e' he' => ?_⟩
    rw [List.mem_singleton.mp he']
    exact h.rearmed rfl e he

namespace Triple

variable {pre pre' : Nat → Prop} {m : Parse α} {post post' mid : Nat → α → Nat → Prop} {f : α → Parse β}
  {post'' : Nat → β → Nat → Prop}

theorem weaken (h : Triple c body b pre m post) (hpre : ∀ i, pre' i → pre i)
    (hpost : ∀ i a j, pre' i → i ≤ j → post i a j → post' i a j) : Triple c body b pre' m post' := by
  intro p hvalid hb hp
  obtain ⟨a, p', hrun, hvalid', hgrows, ha⟩ := h p hvalid hb (hpre _ hp)
  exact ⟨a, p', hrun, hvalid', hgrows, hpost _ _ _ hp hgrows.pos ha⟩

theorem entered {i : Nat} (h : Triple c body b pre m post) (hi : pre i) :
    Triple c body b (· = i) m fun _ => post i := by
  rintro p hvalid hb rfl
  exact h p hvalid hb hi

theorem bind (hm : Triple c body b pre m mid)
    (hf : ∀ i a, pre i → Triple c body b (fun j => i ≤ j ∧ mid i a j) (f a) fun _ => post'' i) :
    Triple c body b pre (m >>= f) post'' := by
  intro p hvalid hb hp
  obtain ⟨a, p', hrun, hvalid', hgrows, hmid⟩ := hm p hvalid hb hp
  obtain ⟨a', p'', hrun', hvalid'', hgrows', hpost⟩ := hf _ a hp p' hvalid' hgrows.base ⟨hgrows.pos, hmid⟩
  refine ⟨a', p'', ?_, hvalid'', hgrows.trans hgrows', hpost⟩
  change (m c p).bind _ = _
  rw [hrun]
  exact hrun'

theorem pure (a : α) (h : ∀ i, pre i → post i a i) : Triple c body b pre (pure a) post :=
  fun p hvalid hb hp => ⟨a, p, rfl, hvalid, .refl hb, h _ hp⟩

theorem ask {g : Context → Parser → α} (h : ∀ p, p.pos ≤ body.length → pre p.pos → post p.pos (g c p) p.pos) :
    Triple c body b pre (ask g) post :=
  fun p hvalid hb hp => ⟨g c p, p, rfl, hvalid, .refl hb, h p hvalid.bound hp⟩

theorem update {g : Context → Parser → Parser} {post : Nat → Unit → Nat → Prop} (hgb : ∀ p, (g c p).gb = p.gb)
    (hpos : ∀ p, (g c p).pos = p.pos)
    (hquiet : ∀ p, Quiet c.tokens p.pos p.errors p.inRecovery → Quiet c.tokens p.pos (g c p).errors (g c p).inRecovery)
    (h : ∀ i, pre i → post i () i) : Triple c body b pre (update g) post := by
  intro p hvalid hb hp
  refine ⟨(), g c p, rfl, ⟨?_, ?_, ?_⟩, ⟨?_, ?_, ?_, [], ?_⟩, ?_⟩
  · rw [hpos]
    exact hvalid.bound
  · rw [hgb, hpos]
    exact hvalid.leaves
  · rw [hpos]
    exact hquiet p hvalid.quiet
  · rw [hgb]
  · rw [hgb]
    exact hb
  · rw [hpos]
  · rw [hgb]
    rfl
  · rw [hpos]
    exact h _ hp

theorem ite {q : Prop} [Decidable q] {m' : Parse α} (hthen : q → Triple c body b pre m post)
    (helse : ¬q → Triple c body b pre m' post) :
    Triple c body b pre (if q then m else m') post := by
  split
  · exact hthen ‹_›
  · exact helse ‹_›

/-- A piece that begins with a checkpoint leaves all elements before it. -/
theorem checkpoint {f : Nat → Parse β} {post : Nat → β → Nat → Prop} (h : ∀ cp, Triple c body cp pre (f cp) post) :
    Triple c body b pre (pCheckpoint >>= f) post := by
  intro p hvalid hb hp
  obtain ⟨a, p', hrun, hvalid', hgrows, hpost⟩ := h p.gb.children.length p hvalid (Nat.le_refl _) hp
  exact ⟨a, p', hrun, hvalid', hgrows.weaken hb, hpost⟩

theorem leavesAll_take_drop (first : Nat) (kind : SyntaxKind) (cs : List Green) :
    leavesAll (cs.take first ++ [.node kind (cs.drop first)]) = leavesAll cs := by
  rw [leavesAll_append, leavesAll, leavesAll, leaves, List.append_nil, ← leavesAll_append, List.take_append_drop]

/-- A node around a piece takes in the elements behind its first place. -/
theorem framed {first : Nat} {kind : SyntaxKind} (hm : ∀ b, Triple c body b pre m post) (p : Parser)
    (hvalid : Valid c body p)
    (hfirst : first ≤ p.gb.children.length) (hp : pre p.pos) (op : BuilderOp)
    (hop : buildTree p.gb op = some { p.gb with parents := (kind, first) :: p.gb.parents }) :
    ∃ a p', (m >>= fun a => finishNode >>= fun _ => Pure.pure a) c
        { p with gb := { p.gb with parents := (kind, first) :: p.gb.parents } } = some (a, p') ∧
      Valid c body p' ∧ Grows (first + 1) p p' ∧ post p.pos a p'.pos := by
  obtain ⟨a, p', hrun, hvalid', hgrows, hpost⟩ :=
    hm p.gb.children.length { p with gb := { p.gb with parents := (kind, first) :: p.gb.parents } }
      ⟨hvalid.bound, hvalid.leaves, hvalid.quiet⟩
      (Nat.le_refl _) hp
  have hparents : p'.gb.parents = (kind, first) :: p.gb.parents := hgrows.parents
  have hle : first ≤ p'.gb.children.length := hfirst.trans hgrows.base
  have hfinish : buildTree p'.gb .finishNode =
      some ⟨p.gb.parents, p'.gb.children.take first ++ [.node kind (p'.gb.children.drop first)]⟩ := by
    rw [buildTree, Builder.popFrame, hparents]
    simp only [hle, if_true, Option.map_some, Builder.push]
  obtain ⟨ops, hops⟩ := hgrows.script
  refine ⟨a, { p' with gb := ⟨p.gb.parents, p'.gb.children.take first ++ [.node kind (p'.gb.children.drop first)]⟩ },
    ?_,
    ⟨hvalid'.bound, ?_, hvalid'.quiet⟩, ⟨rfl, ?_, hgrows.pos, op :: (ops ++ [.finishNode]), ?_⟩, hpost⟩
  · change (m c _).bind _ = _
    rw [hrun]
    change ((buildTree p'.gb .finishNode).map _).bind _ = _
    rw [hfinish]
    rfl
  · rw [leavesAll_take_drop]
    exact hvalid'.leaves
  · rw [List.length_append, List.length_take, Nat.min_eq_left hle]
    exact Nat.le_refl _
  · rw [List.foldlM_cons, hop]
    change (ops ++ [BuilderOp.finishNode]).foldlM buildTree _ = _
    rw [List.foldlM_append, hops]
    change (do let b ← buildTree p'.gb .finishNode; some b) = _
    rw [hfinish]
    rfl

theorem node {kind : SyntaxKind} (hm : ∀ b, Triple c body b pre m post) : Triple c body b pre (node kind m) post := by
  intro p hvalid hb hp
  obtain ⟨a, p', hrun, hvalid', hgrows, hpost⟩ := framed hm p hvalid (Nat.le_refl _) hp (.startNode kind) rfl
  exact ⟨a, p', hrun, hvalid', hgrows.weaken (Nat.le_succ_of_le hb), hpost⟩

theorem nodeAt {cp : Nat} {kind : SyntaxKind} (hm : ∀ b, Triple c body b pre m post) :
    Triple c body cp pre (nodeAt cp kind m) post := by
  intro p hvalid hb hp
  have hstart : p.gb.startNodeAt cp kind = some { p.gb with parents := (kind, cp) :: p.gb.parents } := if_pos hb
  obtain ⟨a, p', hrun, hvalid', hgrows, hpost⟩ := framed hm p hvalid hb hp (.startNodeAt cp kind) hstart
  refine ⟨a, p', ?_, hvalid', hgrows.weaken (Nat.le_succ _), hpost⟩
  change ((p.gb.startNodeAt cp kind).map _).bind _ = _
  rw [hstart]
  exact hrun

end Triple

theorem emit_run (c : Context) (run : List Token) (gb : Builder Green) :
    (run.foldl (emitToken c) gb).parents = gb.parents ∧
      leavesAll (run.foldl (emitToken c) gb).children = leavesAll gb.children ++ run.map (leafOf c.source) ∧
      gb.children.length ≤ (run.foldl (emitToken c) gb).children.length ∧
      (run.map fun t => BuilderOp.token t.kind (LexerTiling.text c.source t)).foldlM buildTree gb =
        some (run.foldl (emitToken c) gb) := by
  induction run generalizing gb with
  | nil => exact ⟨rfl, (List.append_nil _).symm, Nat.le_refl _, rfl⟩
  | cons t run ih =>
      obtain ⟨hparents, hleaves, hlength, hscript⟩ := ih (emitToken c gb t)
      have hone : leavesAll (emitToken c gb t).children = leavesAll gb.children ++ [leafOf c.source t] := by
        rw [emitToken, Builder.push, leavesAll_append]
        rfl
      refine ⟨hparents, ?_, Nat.le_trans ?_ hlength, ?_⟩
      · rw [List.foldl_cons, hleaves, hone, List.append_assoc]
        rfl
      · rw [emitToken, Builder.push, List.length_append]
        exact Nat.le_add_right ..
      · rw [List.map_cons, List.foldlM_cons]
        exact hscript

theorem Triple.emits {pre : Nat → Prop} {g : Context → Parser → Parser} {post : Nat → Unit → Nat → Prop}
    (h : ∀ p, p.pos ≤ body.length → pre p.pos → ∃ run, (g c p).gb = run.foldl (emitToken c) p.gb ∧
      (g c p).pos = p.pos + run.length ∧ run <+: c.tokens.drop p.pos ∧ (g c p).pos ≤ body.length ∧
        post p.pos () (g c p).pos)
    (hquiet : ∀ p, p.pos ≤ body.length → pre p.pos → Quiet c.tokens p.pos p.errors p.inRecovery →
      Quiet c.tokens (g c p).pos (g c p).errors (g c p).inRecovery) :
    Triple c body b pre (ParserCursor.update g) post := by
  intro p hvalid hb hp
  obtain ⟨run, hgb, hpos, hrun, hbound, hpost⟩ := h p hvalid.bound hp
  obtain ⟨hparents, hleaves, hlength, hscript⟩ := emit_run c run p.gb
  refine ⟨(), g c p, rfl, ⟨hbound, ?_, hquiet p hvalid.bound hp hvalid.quiet⟩, ⟨?_, ?_, ?_, _, hgb ▸ hscript⟩, hpost⟩
  · rw [hgb, hleaves, hvalid.leaves, hpos, List.take_add, ← List.prefix_iff_eq_take.mp hrun, List.map_append]
  · rw [hgb, hparents]
  · rw [hgb]
    exact hb.trans hlength
  · rw [hpos]
    exact Nat.le_add_right ..

theorem takeWhile_length_le {q : Token → Bool} {init : List Token} {last : Token} (hlast : q last = false) :
    ((init ++ [last]).takeWhile q).length ≤ init.length := by
  induction init with
  | nil => simp [hlast]
  | cons t init ih =>
      rw [List.cons_append, List.takeWhile_cons]
      split
      · exact Nat.succ_le_succ ih
      · exact Nat.zero_le _

section Tokens

variable [hend : Ending c body]

def kindAt (c : Context) (i : Nat) : SyntaxKind := (((c.tokens[i]?).or c.tokens.getLast?).map (·.kind)).getD .eof

theorem peek_eq (c : Context) (p : Parser) : peek c p = kindAt c p.pos := rfl

theorem kindAt_eq_eof {i : Nat} (hi : i ≤ body.length) : kindAt c i = .eof ↔ i = body.length := by
  obtain ⟨last, htokens, hlast, hbody⟩ := hend.ending
  rw [kindAt, htokens]
  rcases Nat.lt_or_eq_of_le hi with hlt | rfl
  · rw [List.getElem?_append_left hlt, List.getElem?_eq_getElem hlt]
    exact ⟨fun h => absurd h (hbody _ (List.getElem_mem hlt)), fun h => absurd h (Nat.ne_of_lt hlt)⟩
  · rw [List.getElem?_append_right (Nat.le_refl _), Nat.sub_self]
    exact ⟨fun _ => rfl, fun _ => hlast⟩

theorem kindAt_ne_eof {i : Nat} (hi : i ≤ body.length) (h : kindAt c i ≠ .eof) : i < body.length :=
  Nat.lt_of_le_of_ne hi fun heq => h ((kindAt_eq_eof hi).mpr heq)

theorem isEof_eq_false {p : Parser} (hi : p.pos ≤ body.length) : isEof c p = false ↔ p.pos < body.length := by
  rw [isEof, peek_eq, decide_eq_false_iff_not, kindAt_eq_eof hi]
  omega

theorem trivia_bound {i : Nat} (hi : i ≤ body.length) :
    i + ((c.tokens.drop i).takeWhile fun t => tokenIsTrivia t.kind).length ≤ body.length := by
  obtain ⟨last, htokens, hlast, -⟩ := hend.ending
  have hdrop : c.tokens.drop i = body.drop i ++ [last] := by rw [htokens, List.drop_append_of_le_length hi]
  have htrivia : tokenIsTrivia last.kind = false := by rw [hlast]; rfl
  have hle : ((body.drop i ++ [last]).takeWhile fun t => tokenIsTrivia t.kind).length ≤ (body.drop i).length :=
    takeWhile_length_le htrivia
  rw [List.length_drop] at hle
  rw [hdrop]
  omega

theorem skipTrivia_spec : Triple c body b (fun _ => True) skipTrivia fun _ _ _ => True :=
  Triple.emits (fun _ hi _ => ⟨_, rfl, rfl, List.takeWhile_prefix _, trivia_bound hi, trivial⟩)
    fun _ _ _ hquiet => hquiet.later (Nat.le_add_right _ _)

theorem current_eq {p : Parser} (h : p.pos < body.length) :
    c.tokens[p.pos]? = some body[p.pos] ∧ current c p = some body[p.pos] := by
  obtain ⟨last, htokens, -, -⟩ := hend.ending
  have hget : c.tokens[p.pos]? = some body[p.pos] := by
    rw [htokens, List.getElem?_append_left h, List.getElem?_eq_getElem h]
  exact ⟨hget, by rw [current, hget, Option.some_or]⟩

theorem takeToken_spec : Triple c body b (· < body.length) takeToken fun i _ j => i < j := by
  refine Triple.emits (fun p _ hlt => ?_) fun p _ hlt hquiet => ?_
  · obtain ⟨hget, hcurrent⟩ := current_eq (c := c) hlt
    refine ⟨[body[p.pos]], ?_, ?_, ?_, ?_, ?_⟩
    · simp only [hcurrent]
      rfl
    · simp only [hcurrent, List.length_singleton]
    · obtain ⟨h, hdrop⟩ := List.getElem?_eq_some_iff.mp hget
      rw [List.drop_eq_getElem_cons h, hdrop]
      exact List.prefix_append [body[p.pos]] _
    · simp only [hcurrent]
      exact hlt
    · simp only [hcurrent]
      exact Nat.lt_succ_self _
  · obtain ⟨hget, hcurrent⟩ := current_eq (c := c) hlt
    simp only [hcurrent]
    exact hquiet.passed hget

/-- A token is consumed unless none is left. -/
theorem pAdvance_spec : Triple c body b (fun _ => True) pAdvance fun i _ j => i < body.length → i < j := by
  have heof : Triple c body b (fun _ => True) (ask isEof) fun i eof j => (eof = false ↔ i < body.length) ∧ j = i :=
    .ask fun p hi _ => ⟨isEof_eq_false hi, rfl⟩
  refine heof.bind fun i eof _ => .ite (fun heof => ?_) fun heof => ?_
  · exact .pure _ fun j ⟨_, hiff, _⟩ hlt => absurd (hiff.mpr hlt) (by simp [heof])
  · have htake : Triple c body b (fun j => i ≤ j ∧ (eof = false ↔ i < body.length) ∧ j = i) takeToken fun _ _ k =>
      i < k :=
      takeToken_spec.weaken (fun j ⟨_, hiff, hj⟩ => hj ▸ hiff.mp (by simpa using heof)) fun j _ k hj _ hjk => by omega
    exact htake.bind fun j _ hj => skipTrivia_spec.weaken (fun _ _ => trivial) fun k _ l hk hkl _ _ => by omega

end Tokens

section Closure

variable {m x : Parse α} {f : α → Parse β} {y : Parse β} {u : Parse Unit} {t : Parse Bool}

instance (a : α) : Still c body b (pure a : Parse α) := ⟨.pure a fun _ _ => rfl⟩

instance (g : Context → Parser → α) : Still c body b (ask g) := ⟨.ask fun _ _ _ => rfl⟩

instance (g : Context → Parser → Bool) : Still c body b (test g) := ⟨.ask fun _ _ _ => rfl⟩

instance (v : Bool) : Still c body b (update fun _ p => { p with parsingType := v }) :=
    ⟨.update (fun _ => rfl) (fun _ => rfl) (fun _ h => h) fun _ _ => rfl⟩

instance (v : Bool) : Still c body b (update fun _ p => { p with noTrailingLambda := v }) :=
  ⟨.update (fun _ => rfl) (fun _ => rfl) (fun _ h => h) fun _ _ => rfl⟩

theorem pError_spec (msg : String) : Triple c body b (fun _ => True) (pError msg) fun i _ j => j = i := by
  refine .update (fun p => ?_) (fun p => ?_) (fun p hquiet => ?_) fun _ _ => rfl
  · split <;> rfl
  · split <;> rfl
  · split
    · exact hquiet
    · rename_i hdown
      rw [Bool.not_eq_true] at hdown
      rw [hdown] at hquiet
      exact hquiet.error msg

instance (msg : String) : Still c body b (pError msg) := ⟨pError_spec msg⟩

instance [hm : Still c body b m] [hf : ∀ a, Still c body b (f a)] : Still c body b (m >>= f) :=
  ⟨hm.run.bind fun _ a _ => ((hf a).run.weaken (fun _ _ => trivial) fun _ _ _ hj _ h => h.trans hj.2)⟩

instance {q : Prop} [Decidable q] [hm : Still c body b m] [hx : Still c body b x] :
    Still c body b (if q then m else x) :=
  ⟨.ite (fun _ => hm.run) fun _ => hx.run⟩

instance (priority := low) [h : Still c body b m] : Steady c body n b m :=
    ⟨h.run.weaken (fun _ _ => trivial) fun _ _ _ _ _ _ => trivial⟩

instance [hm : Steady c body n b m] [hf : ∀ a, Steady c body n b (f a)] : Steady c body n b (m >>= f) :=
  ⟨hm.run.bind fun _ a hi => ((hf a).run.weaken (fun _ hj => hi.later hj.1) fun _ _ _ _ _ h => h)⟩

instance {q : Prop} [Decidable q] [hm : Steady c body n b m] [hx : Steady c body n b x] :
    Steady c body n b (if q then m else x) :=
  ⟨.ite (fun _ => hm.run) fun _ => hx.run⟩

instance {kind : SyntaxKind} [hm : ∀ b, Steady c body n b m] :
    Steady c body n b (node kind m) := ⟨.node fun b => (hm b).run⟩

instance {kind : SyntaxKind} [hm : ∀ b, Steady c body n b m] :
    Steady c body n b (nodeAt b kind m) := ⟨.nodeAt fun b => (hm b).run⟩

instance {g : Nat → Parse α} [hg : ∀ cp, Steady c body n cp (g cp)] : Steady c body n b (pCheckpoint >>= g) :=
  ⟨.checkpoint fun cp => (hg cp).run⟩

instance [ht : Steady c body n b t] [hu : Steady c body n b u] : Steady c body n b (guarded t u) :=
  inferInstanceAs (Steady c body n b (t >>= fun a => if a = true then u else pure ()))

instance [ht : Still c body b t] [hu : Still c body b u] : Still c body b (guarded t u) :=
  inferInstanceAs (Still c body b (t >>= fun a => if a = true then u else pure ()))

instance {v : Bool} [Steady c body n b m] : Steady c body n b (withParsingType v m) := by
  unfold withParsingType
  infer_instance

instance {v : Bool} [Steady c body n b m] : Steady c body n b (withNoTrailingLambda v m) := by
  unfold withNoTrailingLambda
  infer_instance

/-- What follows a consumed token has one token less before it. -/
instance (priority := high) [hm : Moving c body (n + 1) b m] [hf : ∀ a, Steady c body n b (f a)] :
    Moving c body (n + 1) b (m >>= f) :=
  ⟨hm.run.bind fun _ a hi => ((hf a).run.weaken (fun _ hj => hi.1.moved hj.2) fun _ _ _ hj hjk _ =>
    Nat.lt_of_lt_of_le hj.2 hjk)⟩

instance [hm : Moving c body n b m] [hf : ∀ a, Steady c body n b (f a)] : Moving c body n b (m >>= f) :=
  ⟨hm.run.bind fun _ a hi => ((hf a).run.weaken (fun _ hj => hi.1.later hj.1) fun _ _ _ hj hjk _ =>
    Nat.lt_of_lt_of_le hj.2 hjk)⟩

instance (priority := low) [hm : Still c body b m] [hf : ∀ a, Moving c body n b (f a)] : Moving c body n b (m >>= f) :=
  ⟨(hm.run.weaken (fun _ _ => trivial) fun _ _ _ _ _ h => h).bind fun _ a hi =>
    ((hf a).run.weaken (fun _ hj => hj.2 ▸ hi) fun _ _ _ hj _ h => hj.2 ▸ h)⟩

instance {q : Prop} [Decidable q] [hm : Moving c body n b m] [hx : Moving c body n b x] :
    Moving c body n b (if q then m else x) :=
  ⟨.ite (fun _ => hm.run) fun _ => hx.run⟩

instance {kind : SyntaxKind} [hm : ∀ b, Moving c body n b m] :
    Moving c body n b (node kind m) := ⟨.node fun b => (hm b).run⟩

instance {kind : SyntaxKind} [hm : ∀ b, Moving c body n b m] :
    Moving c body n b (nodeAt b kind m) := ⟨.nodeAt fun b => (hm b).run⟩

instance {g : Nat → Parse α} [hg : ∀ cp, Moving c body n cp (g cp)] : Moving c body n b (pCheckpoint >>= g) :=
  ⟨.checkpoint fun cp => (hg cp).run⟩

instance : Turning c body n b (pure false) := ⟨.pure _ fun _ _ h => absurd h (by decide)⟩

instance [hm : Steady c body n b m] {g : α → Parse Bool} [hg : ∀ a, Turning c body n b (g a)] :
    Turning c body n b (m >>= g) :=
  ⟨hm.run.bind fun _ a hi => ((hg a).run.weaken (fun _ hj => hi.later hj.1) fun _ _ _ hj _ h ha =>
    Nat.lt_of_le_of_lt hj.1 (h ha))⟩

instance {q : Prop} [Decidable q] {t' : Parse Bool} [ht : Turning c body n b t] [ht' : Turning c body n b t'] :
    Turning c body n b (if q then t else t') :=
  ⟨.ite (fun _ => ht.run) fun _ => ht'.run⟩

theorem Turning.more {t' : Parse Bool} [ht : Turning c body n b t] [ht' : Steady c body n b t'] :
    Turning c body n b (t >>= fun a => if a = true then t' else pure false) :=
  ⟨ht.run.bind fun _ _ hi => .ite
    (fun ha => ht'.run.weaken (fun _ hj => hi.later hj.1) fun _ _ _ hj hjk _ _ => Nat.lt_of_lt_of_le (hj.2 ha) hjk)
    fun _ => .pure _ fun _ _ h => absurd h (by decide)⟩

theorem Turning.tested {g : Context → Parser → Bool} {t' : Parse Bool}
    (hg : ∀ p, p.pos ≤ body.length → g c p = true → p.pos < body.length) [ht' : TurningInside c body n b t'] :
    Turning c body n b (test g >>= fun a => if a = true then t' else pure false) := by
  have htest : Triple c body b (Within body n) (test g) fun i a j => j = i ∧ (a = true → i < body.length) :=
    .ask fun p hi _ => ⟨rfl, hg p hi⟩
  exact ⟨htest.bind fun i a hi => .ite
    (fun ha => ht'.run.weaken (fun j hj => hj.2.1 ▸ ⟨hi, hj.2.2 ha⟩) fun _ _ _ hj _ h hk => hj.2.1 ▸ h hk)
    fun _ => .pure _ fun _ _ h => absurd h (by decide)⟩

instance (priority := low) [ht : Turning c body n b t] : TurningInside c body n b t :=
  ⟨ht.run.weaken (fun _ hi => hi.1) fun _ _ _ _ _ h => h⟩

instance [hm : Moving c body n b m] {v : Bool} : TurningInside c body n b (m >>= fun _ => pure v) :=
  ⟨hm.run.bind fun _ _ _ => .pure _ fun _ hj _ => hj.2⟩

instance [hm : Moving c body n b m] {g : α → Parse Bool} [hg : ∀ a, Steady c body n b (g a)] :
    TurningInside c body n b (m >>= g) :=
  ⟨hm.run.bind fun _ a hi => ((hg a).run.weaken (fun _ hj => hi.1.later hj.1) fun _ _ _ hj hjk _ _ =>
    Nat.lt_of_lt_of_le hj.2 hjk)⟩

instance (priority := low) [hm : Still c body b m] {g : α → Parse Bool} [hg : ∀ a, TurningInside c body n b (g a)] :
    TurningInside c body n b (m >>= g) :=
  ⟨(hm.run.weaken (fun _ _ => trivial) fun _ _ _ _ _ h => h).bind fun _ a hi =>
    ((hg a).run.weaken (fun _ hj => hj.2 ▸ hi) fun _ _ _ hj _ h ha => hj.2 ▸ h ha)⟩

instance {q : Prop} [Decidable q] {t' : Parse Bool} [ht : TurningInside c body n b t]
    [ht' : TurningInside c body n b t'] :
    TurningInside c body n b (if q then t else t') :=
  ⟨.ite (fun _ => ht.run) fun _ => ht'.run⟩

end Closure

section Loops

theorem rounds_succ {turn : σ → Parse (Option σ)} (k : Nat) {a : σ} {r : Option σ} {p p' : Parser}
    (hrun : turn a c p = some (r, p')) :
    rounds turn (k + 1) a c p = (match r with | some a => rounds turn k a | none => pure ()) c p' := by
  change (turn a c p).bind _ = _
  rw [hrun]
  cases r <;> rfl

/-- Turns that consume a token each come to an end, and the last one says where. -/
theorem rounds_spec {turn : σ → Parse (Option σ)} {q : Nat → Prop}
    (hturn : ∀ a, Triple c body b (Within body n) (turn a) fun i r j => if r.isSome then i < j else q j)
    (k : Nat) (a : σ) :
    Triple c body b (fun i => Within body n i ∧ body.length - i < k) (rounds turn k a) fun _ _ j => q j := by
  induction k generalizing a with
  | zero => exact fun p _ _ hp => absurd hp.2 (Nat.not_lt_zero _)
  | succ k ih =>
      intro p hvalid hb hp
      obtain ⟨r, p', hrun, hvalid', hgrows, hmoved⟩ := hturn a p hvalid hb hp.1
      have hbind := rounds_succ k hrun
      cases r with
      | none => exact ⟨(), p', hbind, hvalid', hgrows, hmoved⟩
      | some a' =>
          have hlt : p.pos < p'.pos := hmoved
          have hbound := hvalid'.bound
          obtain ⟨u, p'', hrun', hvalid'', hgrows', hq⟩ :=
            ih a' p' hvalid' hgrows.base ⟨hp.1.later hgrows.pos, by omega⟩
          exact ⟨u, p'', hbind.trans hrun', hvalid'', hgrows.trans hgrows', hq⟩

variable [hend : Ending c body]

theorem loopFrom_spec {turn : σ → Parse (Option σ)} {q : Nat → Prop}
    (hturn : ∀ a, Triple c body b (Within body n) (turn a) fun i r j => if r.isSome then i < j else q j) (a : σ) :
    Triple c body b (Within body n) (loopFrom turn a) fun _ _ j => q j := by
  intro p hvalid hb hp
  obtain ⟨last, htokens, -, -⟩ := hend.ending
  exact rounds_spec hturn (c.tokens.length - p.pos + 1) a p hvalid hb ⟨hp, by rw [htokens, List.length_append]; omega⟩

theorem repeatWhile_spec {t : Parse Bool} {q : Nat → Prop}
    (ht : Triple c body b (Within body n) t fun i a j => if a then i < j else q j) :
    Triple c body b (Within body n) (repeatWhile t) fun _ _ j => q j := by
  refine loopFrom_spec (fun _ => ht.bind fun i a _ => .ite (fun ha => ?_) fun ha => ?_) ()
  · exact .pure _ fun j hj => by simpa [ha] using hj.2
  · exact .pure _ fun j hj => by simpa [ha] using hj.2

instance {t : Parse Bool} [ht : Turning c body n b t] : Steady c body n b (repeatWhile t) :=
  ⟨repeatWhile_spec (q := fun _ => True) (ht.run.weaken (fun _ h => h) fun _ a _ _ _ h => by
    cases a with
    | false => trivial
    | true => exact h rfl)⟩

end Loops

section Primitives

variable [hend : Ending c body] {k : SyntaxKind} {msg : String} {x : Parse α} {u : Parse Unit}

instance : Still c body b pPeek := inferInstanceAs (Still c body b (ask _))
instance {offset : Nat} : Still c body b (pPeekAt offset) := inferInstanceAs (Still c body b (ask _))
instance : Still c body b (pCheck k) := inferInstanceAs (Still c body b (ask _))
instance {kw : ParserKws → Nat} : Still c body b (pAtKw kw) := inferInstanceAs (Still c body b (ask _))
instance : Still c body b pIsEof := inferInstanceAs (Still c body b (ask _))
instance : Still c body b pPos := inferInstanceAs (Still c body b (ask _))

instance : Steady c body n b skipTrivia := ⟨skipTrivia_spec.weaken (fun _ _ => trivial) fun _ _ _ _ _ h => h⟩

instance : Steady c body n b pAdvance := ⟨pAdvance_spec.weaken (fun _ _ => trivial) fun _ _ _ _ _ _ => trivial⟩

instance : Moving c body n b pAdvance := ⟨pAdvance_spec.weaken (fun _ _ => trivial) fun _ _ _ hi _ h => h hi.2⟩

theorem ne_eof_of_matches {cur : SyntaxKind} (h : kindMatchesWithVirtual k cur = true) (hk : k ≠ .eof) :
    cur ≠ .eof := by
  rintro rfl
  simp [kindMatchesWithVirtual, hk] at h

theorem pMatch_spec (hk : k ≠ .eof) :
    Triple c body b (fun _ => True) (pMatch k) fun i a j => a = kindMatchesWithVirtual k (kindAt c i) ∧
      if a then i < j else j = i := by
  have hcheck : Triple c body b (fun _ => True) (pCheck k) fun i a j =>
      j = i ∧ a = kindMatchesWithVirtual k (kindAt c i) ∧ (a = true → i < body.length) :=
    .ask fun p hi _ => ⟨rfl, rfl, fun h => kindAt_ne_eof hi (ne_eof_of_matches h hk)⟩
  refine hcheck.bind fun i a _ => .ite (fun ha => ?_) fun ha => ?_
  · refine (pAdvance_spec.weaken (fun _ _ => trivial) fun _ _ _ _ _ h => h).bind fun j _ hj => .pure _ fun l hl => ?_
    obtain ⟨-, rfl, hmatch, hinside⟩ := hj
    exact ⟨ha.symm.trans hmatch, hl.2 (hinside ha)⟩
  · refine .pure _ fun j hj => ⟨?_, hj.2.1⟩
    rw [← hj.2.2.1]
    simpa using ha

instance : Steady c body n b (pMatch k) := by
  unfold pMatch
  infer_instance

instance {kw : ParserKws → Nat} : Steady c body n b (pMatchKw kw) := by
  unfold pMatchKw
  infer_instance

instance : Turning c body n b (pMatch .comma) :=
  ⟨(pMatch_spec (by decide)).weaken (fun _ _ => trivial) fun _ _ _ _ _ h ha => by simpa [ha] using h.2⟩

instance : Turning c body n b (pMatch .semi) :=
  ⟨(pMatch_spec (by decide)).weaken (fun _ _ => trivial) fun _ _ _ _ _ h ha => by simpa [ha] using h.2⟩

instance : Steady c body n b (pConsume k msg) := by
  unfold pConsume
  infer_instance

theorem pConsume_at (hk : k ≠ .eof) : Triple c body b (fun i => kindMatchesWithVirtual k (kindAt c i) = true)
    (pConsume k msg)
    fun i a j => a = true ∧ i < j := by
  refine ((pMatch_spec hk).weaken (fun _ _ => trivial) fun _ _ _ _ _ h => h).bind fun i a hi =>
    .ite (fun ha => ?_) fun ha => ?_
  · exact .pure _ fun j hj => ⟨rfl, by simpa [ha] using hj.2.2⟩
  · exact fun _ _ _ hj => absurd (hj.2.1.trans hi) ha

instance : Steady c body n b (expect k msg) := by
  unfold expect
  infer_instance

instance : Still c body b (update fun _ p => { p with fixCount := p.fixCount + 1 }) :=
  ⟨.update (fun _ => rfl) (fun _ => rfl) (fun _ h => h) fun _ _ => rfl⟩

instance : Steady c body n b skipOne := by
  unfold skipOne
  infer_instance

instance : Moving c body n b skipOne := by
  unfold skipOne
  infer_instance

instance {sync : List Sync} : Turning c body n b (recoverTurn sync) := Turning.tested fun p hi h => by
  simp only [Bool.and_eq_true, Bool.not_eq_true'] at h
  exact (isEof_eq_false hi).mp h.1.1

omit hend in
theorem guard_moves {i : Nat} (hi : Within body n i ∧ i < body.length) {g : Context → Parser → Bool}
    (hg : ∀ p, p.pos = i → g c p = true) [hu : Moving c body n b u] [hu' : Steady c body n b u] :
    Triple c body b (i ≤ ·) (guarded (test g) u) fun _ _ k => i < k := by
  have htest : Triple c body b (i ≤ ·) (test g) fun k a l => l = k ∧ (k = i → a = true) :=
    .ask fun p _ _ => ⟨rfl, hg p⟩
  refine htest.bind fun k a hk => .ite (fun ha => ?_) fun ha => ?_
  · rcases Nat.eq_or_lt_of_le hk with rfl | hlt
    · exact hu.run.weaken (fun l hl => hl.2.1 ▸ hi) fun l _ _ hl _ h => hl.2.1 ▸ h
    · exact hu'.run.weaken (fun l hl => hi.1.later (hk.trans hl.1)) fun l _ _ hl hlm _ => by omega
  · exact .pure _ fun l hl => Nat.lt_of_le_of_ne (hk.trans hl.1) fun heq => ha (hl.2.2 (hl.2.1.symm.trans heq.symm))

omit hend in
/-- A piece, and another one if the first did not move. -/
theorem Moving.ifStuck {g : Nat → Context → Parser → Bool} (hg : ∀ p, p.pos < body.length → g p.pos c p = true)
    [hx : Steady c body n b x] [hu : Moving c body n b u] [hu' : Steady c body n b u] :
    Moving c body n b (pPos >>= fun before => x >>= fun _ => guarded (test (g before)) u) := by
  have hpos : Triple c body b (fun i => Within body n i ∧ i < body.length) pPos fun i a j => a = i ∧ j = i :=
    .ask fun _ _ _ => ⟨rfl, rfl⟩
  refine ⟨hpos.bind fun i before hi => ?_⟩
  have hbody : Triple c body b (fun j => i ≤ j ∧ before = i ∧ j = i) x fun _ _ k => i ≤ k ∧ before = i :=
    hx.run.weaken (fun _ hj => hi.1.later hj.1) fun _ _ _ hj hjk _ => ⟨hj.1.trans hjk, hj.2.1⟩
  refine hbody.bind fun j _ hj => ?_
  obtain ⟨-, rfl, -⟩ := hj
  exact (guard_moves hi fun p hp => hp ▸ hg p (hp ▸ hi.2)).weaken (fun k hk => hk.2.1) fun _ _ _ _ _ h => h

instance {sync : List Sync} : Steady c body n b (pRecover sync msg) := by
  unfold pRecover
  infer_instance

instance {sync : List Sync} : Moving c body n b (pRecover sync msg) := by
  have hstuck (b : Nat) : Moving c body n b (pPos >>= fun start => repeatWhile (recoverTurn sync) >>= fun _ =>
      guarded (test fun c p => p.pos = start && !isEof c p) skipOne) :=
    Moving.ifStuck (g := fun start c p => p.pos = start && !isEof c p) fun p hlt => by
      simp [(isEof_eq_false (c := c) (Nat.le_of_lt hlt)).mpr hlt]
  unfold pRecover
  infer_instance

instance : Steady c body n b (pRecoverAuto msg) := by
  unfold pRecoverAuto
  infer_instance

instance : Moving c body n b (pRecoverAuto msg) := by
  unfold pRecoverAuto
  infer_instance

instance [Steady c body n b u] : Steady c body n b (recoverIfStuck msg u) := by
  unfold recoverIfStuck
  infer_instance

instance [Steady c body n b u] : Moving c body n b (recoverIfStuck msg u) :=
  Moving.ifStuck (g := fun before _ p => p.pos = before) fun _ _ => decide_eq_true rfl

instance {stop : SyntaxKind} [Steady c body n b u] : Steady c body n b (commaSeparated stop u) :=
  have : Turning c body n b (test (fun c p => !isEof c p && peek c p ≠ stop) >>= fun a =>
      if a = true then u >>= fun _ => pMatch .comma else pure false) :=
    Turning.tested fun p hi h => by
      simp only [Bool.and_eq_true, Bool.not_eq_true'] at h
      exact (isEof_eq_false hi).mp h.1
  inferInstanceAs (Steady c body n b (repeatWhile _))

instance {t : Parse Bool} [TurningInside c body n b t] : Steady c body n b (untilRbrace t) :=
  have : Turning c body n b (test (fun c p => !isEof c p && !check c p .rbrace) >>= fun a =>
      if a = true then t else pure false) :=
    Turning.tested fun p hi h => by
      simp only [Bool.and_eq_true, Bool.not_eq_true'] at h
      exact (isEof_eq_false hi).mp h.1
  inferInstanceAs (Steady c body n b (repeatWhile _))

end Primitives

end Ore.ParserRules
