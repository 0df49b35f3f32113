import Ore.BuilderCalls
import Ore.GreenLayout

namespace Ore.BuilderNesting

open SyntaxKinds GreenTree GreenCache GreenCacheSteps GreenCacheCanonical GreenDenotes GreenBuilder GreenBuilderTrees
open BuilderCalls GreenLayout RedTree
open WorkspaceModel (Bytes)

section Growing

variable {initial minCap : Nat}

theorem growTurn_ends (hmin : minCap ≤ 2 ^ 31) (fuel newCap : Nat) (hcap : minCap ≤ newCap * 2 ^ fuel) :
    ∃ cap, Loop.run (growTurn minCap) (fuel + 1) newCap = some cap := by
  induction fuel generalizing newCap with
  | zero =>
      refine ⟨newCap, Loop.run_exit ?_ 0⟩
      rw [growTurn, if_neg (by omega)]
  | succ fuel ih =>
      by_cases hlt : newCap < minCap
      · obtain ⟨cap, hrun⟩ := ih (newCap * 2) (by rw [Nat.mul_assoc, ← Nat.pow_succ']; exact hcap)
        refine ⟨cap, ?_⟩
        rw [Loop.run, growTurn, if_pos hlt, Nat.mod_eq_of_lt (by omega)]
        exact hrun
      · refine ⟨newCap, Loop.run_exit ?_ _⟩
        rw [growTurn, if_neg hlt]

/-- A stack of at most 2^31 entries finds room. -/
theorem grow_ends (cap : Nat) (hinitial : 0 < initial) (hmin : minCap ≤ 2 ^ 31) :
    ∃ c, grow initial cap minCap = some c := by
  rw [grow]
  split_ifs with hle hzero
  · exact ⟨cap, rfl⟩
  · exact growTurn_ends hmin 32 initial (by omega)
  · exact growTurn_ends hmin 32 cap (by omega)

theorem grown_some {α : Type} (s : Client α) {b : Builder α} (hparents : b.parents.length ≤ 2 ^ 31)
    (hchildren : b.children.length ≤ 2 ^ 31) : ∃ s', s.grown b = some s' ∧ s'.builder = b ∧
      s'.checkpoints = s.checkpoints := by
  obtain ⟨parentsCap, hp⟩ := grow_ends s.parentsCap (show 0 < 8 by decide) hparents
  obtain ⟨childrenCap, hc⟩ := grow_ends s.childrenCap (show 0 < 16 by decide) hchildren
  refine ⟨⟨b, s.checkpoints, parentsCap, childrenCap⟩, ?_, rfl, rfl⟩
  rw [Client.grown, hp, Option.bind_some, hc, Option.map_some]

end Growing

section Stacks

/-- The open nodes with the places where their children begin. -/
def frames : List (List Green × SyntaxKind) → List (SyntaxKind × Nat)
  | [] => []
  | (before, kind) :: enclosing => (kind, (outer enclosing ++ before).length) :: frames enclosing

def builderOf (n : Nest) : Builder Green := ⟨frames n.enclosing, n.elements⟩

theorem frames_length (enclosing : List (List Green × SyntaxKind)) : (frames enclosing).length = enclosing.length := by
  induction enclosing with
  | nil => rfl
  | cons frame enclosing ih => rw [frames, List.length_cons, List.length_cons, ih]

variable {n n' : Nest} {call : Call} {α : Type} {s : Client α} {b : Builder α} {kind : SyntaxKind} {cp first : Nat}
  {parents : List (SyntaxKind × Nat)} {children : List α}

theorem startNodeAt_some (h : cp ≤ b.children.length) :
    b.startNodeAt cp kind = some ⟨(kind, cp) :: b.parents, b.children⟩ := if_pos h

theorem popFrame_some (h : first ≤ children.length) :
    (⟨(kind, first) :: parents, children⟩ : Builder α).popFrame =
      some (kind, children.drop first, ⟨parents, children.take first⟩) := if_pos h

theorem nests_builderOf (h : Nests n call n') (hcall : call ≠ .checkpoint)
    (hcheckpoints : s.checkpoints = n.checkpoints.map List.length) :
    ∃ op, s.op call = some op ∧ buildTree (builderOf n) op = some (builderOf n') ∧ n'.checkpoints = n.checkpoints := by
  cases h with
  | startNode enclosing current checkpoints kind =>
      refine ⟨_, rfl, ?_, rfl⟩
      simp [buildTree, Builder.startNode, builderOf, frames, Nest.elements, outer]
  | token enclosing current checkpoints kind text =>
      refine ⟨_, rfl, ?_, rfl⟩
      simp [buildTree, Builder.push, builderOf, Nest.elements]
  | checkpoint => exact absurd rfl hcall
  | @startNodeAt enclosing before since checkpoints taken kind htaken =>
      have hcp : s.checkpoints[taken]? = some (outer enclosing ++ before).length := by
        rw [hcheckpoints, List.getElem?_map, htaken, Option.map_some]
      refine ⟨.startNodeAt (outer enclosing ++ before).length kind, ?_, ?_, rfl⟩
      · rw [Client.op, hcp, Option.map_some]
      · have hle : (outer enclosing ++ before).length ≤ (outer enclosing ++ (before ++ since)).length := by simp
        rw [buildTree, startNodeAt_some hle]
        simp only [builderOf, Nest.elements, frames, outer, List.append_assoc]
  | finishNode enclosing before current checkpoints kind =>
      refine ⟨_, rfl, ?_, rfl⟩
      have hle : (outer enclosing ++ before).length ≤ (outer enclosing ++ before ++ current).length := by simp
      rw [buildTree, builderOf, frames, Nest.elements, outer, popFrame_some hle, Option.map_some, List.drop_left,
        List.take_left]
      simp only [Builder.push, builderOf, Nest.elements, List.append_assoc]

end Stacks

variable {η : Type} [DecidableEq η] {H : Hashing η} {w w' : World η} {s s' : Client ElemRef} {n n' : Nest}
  {call : Call} {calls : List Call} {addr : Nat} {rest : List ElemRef}

/-- The builder is where the calls say. -/
structure Follows (H : Hashing η) (w : World η) (s : Client ElemRef) (n : Nest) (rest : List ElemRef) : Prop where
  builds : Builds H w s.builder (builderOf n) rest
  checkpoints : s.checkpoints = n.checkpoints.map List.length

namespace Follows

omit [DecidableEq η] in
theorem start (h : Sound H w) : Follows H w (.new ElemRef) .start w.owned := ⟨⟨h, .refl _, rfl, rfl⟩, rfl⟩

theorem step (h : Follows H w s n rest) (hnests : Nests n call n') (hnarrow : Narrow n')
    (hmeets : ∀ op ∈ s.op call, ∀ req ∈ opRequest s.builder addr op, Supplied w req) :
    ∃ w' s', callStep H w s addr call = some (w', s') ∧ Later H InBounds w w' ∧ Follows H w' s' n' rest := by
  by_cases hcall : call = .checkpoint
  · subst hcall
    cases hnests with
    | checkpoint enclosing current checkpoints =>
        refine ⟨w, _, rfl, .refl, h.builds, ?_⟩
        have hlength : s.builder.children.length = (outer enclosing ++ current).length := h.builds.length_eq
        have hwide : (outer enclosing ++ current).length ≤ 2 ^ 31 := hnarrow.2
        simp only [hlength, h.checkpoints, List.map_append, List.map_cons, List.map_nil]
        rw [Nat.mod_eq_of_lt (by omega)]
  · obtain ⟨op, hop, htree, hcheckpoints⟩ := nests_builderOf hnests hcall h.checkpoints
    rcases h.builds.step (hmeets op hop) with ⟨-, hnone⟩ | ⟨w', b', tb', hstep, htree', hlater, hbuilds⟩
    · rw [htree] at hnone
      cases hnone
    · rw [htree, Option.some.injEq] at htree'
      subst htree'
      have hparents : b'.parents.length ≤ 2 ^ 31 := by
        rw [hbuilds.parents, builderOf, frames_length]
        exact hnarrow.1
      have hchildren : b'.children.length ≤ 2 ^ 31 := by
        rw [hbuilds.length_eq]
        exact hnarrow.2
      obtain ⟨s', hgrown, rfl, hsame⟩ := grown_some s hparents hchildren
      refine ⟨w', s', ?_, hlater, hbuilds, by rw [hsame, h.checkpoints, hcheckpoints]⟩
      rw [callStep_of_ne H hcall, hop, Option.bind_some, hstep, Option.bind_some]
      simp only [hgrown, Option.map_some]

theorem run {script : List (Call × Nat)} (h : Follows H w s n rest) (hruns : Runs n (script.map Prod.fst) n')
    (hmeets : CallsMeet H Supplied w s script) :
    ∃ w' s', runCalls H w s script = some (w', s') ∧ Later H InBounds w w' ∧ Follows H w' s' n' rest := by
  induction script generalizing w s n with
  | nil =>
      cases hruns
      exact ⟨w, s, rfl, .refl, h⟩
  | cons entry script ih =>
      obtain ⟨call, addr⟩ := entry
      cases hruns with
      | cons hnests hnarrow hrest =>
          obtain ⟨w₁, s₁, hstep, hlater, hfollows⟩ := h.step hnests hnarrow hmeets.1
          obtain ⟨w', s', hrun, hlater', hfollows'⟩ := ih hfollows hrest (hmeets.2 _ hstep)
          refine ⟨w', s', ?_, later_trans hlater hlater', hfollows'⟩
          rw [runCalls, hstep, Option.bind_some]
          exact hrun

end Follows

section Checking

def canCall (H : Hashing η) : World η → Client ElemRef → List (Call × Nat) → Bool
  | _, _, [] => true
  | w, s, (call, addr) :: script =>
      ((s.op call).all fun op => (opRequest s.builder addr op).all (canSupply H w)) &&
        (callStep H w s addr call).all fun next => canCall H next.1 next.2 script

theorem Follows.meets {script : List (Call × Nat)} (h : Follows H w s n rest)
    (hruns : Runs n (script.map Prod.fst) n') (hcan : canCall H w s script = true) :
    CallsMeet H Supplied w s script := by
  induction script generalizing w s n with
  | nil => trivial
  | cons entry script ih =>
      obtain ⟨call, addr⟩ := entry
      simp only [canCall, Bool.and_eq_true, Option.all_eq_true] at hcan
      have hfirst : ∀ op ∈ s.op call, ∀ req ∈ opRequest s.builder addr op, Supplied w req :=
        fun op hop req hreq => supplied_of_canSupply h.builds.sound (hcan.1 op hop req hreq)
      refine ⟨hfirst, fun next hnext => ?_⟩
      cases hruns with
      | cons hnests hnarrow hrest =>
          obtain ⟨w', s', hstep, -, hfollows⟩ := h.step hnests hnarrow hfirst
          rw [Option.mem_def, hstep, Option.some.injEq] at hnext
          subst hnext
          exact ih hfollows hrest (hcan.2 _ hstep)

end Checking

omit [DecidableEq η] in
theorem Follows.finish {kind : SyntaxKind} {ts : List Green} {checkpoints : List (List Green)}
    (h : Follows H w s ⟨[], [.node kind ts], checkpoints⟩ rest) :
    ∃ root, s.builder.finish = some (.node root) ∧ Denotes w.heap.store.obj (.node root) (.node kind ts) ∧
      w.owned.Perm (.node root :: rest) := by
  obtain ⟨r, later, hchildren, hdenotes, rfl⟩ := h.builds.children
  have howned := h.builds.owned
  rw [hchildren] at howned
  cases r with
  | token a =>
      obtain ⟨_, _, hinterned⟩ := h.builds.sound
      obtain ⟨_, _, _, hobj, -⟩ := hdenotes
      obtain ⟨_, heq⟩ := hinterned.tabled.tokens a _ hobj
      cases heq
  | node root => exact ⟨root, Builder.finish_eq_some.mpr ⟨h.builds.parents, hchildren⟩, hdenotes, howned⟩

/-- The builder reproduces its calls: the tree is the one they say, with their tokens in
order, and every node is laid out. -/
theorem calls_reproduced {script : List (Call × Nat)} {kind : SyntaxKind} {ts : List Green}
    {checkpoints : List (List Green)} (hcache : Later H InBounds World.start w)
    (hruns : Runs .start (script.map Prod.fst) ⟨[], [.node kind ts], checkpoints⟩)
    (hmeets : CallsMeet H Supplied w (.new ElemRef) script) :
    leavesAll ts = tokensOf (script.map Prod.fst) ∧
      ∃ w' s' root, runCalls H w (.new ElemRef) script = some (w', s') ∧ s'.builder.finish = some (.node root) ∧
        Measures wrap32 w'.heap.store.obj (.node root) (.node kind ts) ∧
        (textLenAll ts < 2 ^ 32 → Measures id w'.heap.store.obj (.node root) (.node kind ts) ∧
          lenAt w'.heap.store.obj (.node root) = textLenAll ts) ∧
        w'.owned.Perm (.node root :: w.owned) := by
  have hstart : Sound H World.start := ⟨_, _, Interned.start H⟩
  have hsound : Sound H w := later_sound hcache hstart
  have hleaves : leavesAll ts = tokensOf (script.map Prod.fst) := by
    have hall := hruns.leaves
    simpa [Nest.elements, Nest.start, outer, leavesAll, leaves] using hall
  obtain ⟨w', s', hrun, hlater, hfollows⟩ := (Follows.start hsound).run hruns hmeets
  obtain ⟨root, hfinish, hdenotes, howned⟩ := hfollows.finish
  have hplaced := later_placed (later_trans hcache hlater) hstart Placed.start
  have hmeasures := Denotes.measures hplaced hdenotes
  exact ⟨hleaves, w', s', root, hrun, hfinish, hmeasures, hmeasures.exact, howned⟩

def oneName : List (Call × Nat) :=
  [(.startNode .stmtList, 0), (.checkpoint, 1), (.token .ident [97], 2), (.startNodeAt 0 .binExpr, 3), (.finishNode, 4),
    (.finishNode, 5)]

theorem oneName_runs : Runs .start (oneName.map Prod.fst)
    ⟨[], [.node .stmtList [.node .binExpr [.token ⟨.ident, [97]⟩]]], [[]]⟩ := by
  apply Runs.cons (.startNode ..) (by decide)
  apply Runs.cons (.checkpoint ..) (by decide)
  apply Runs.cons (.token ..) (by decide)
  apply Runs.cons (.startNodeAt _ _ rfl) (by decide)
  apply Runs.cons (.finishNode ..) (by decide)
  apply Runs.cons (.finishNode ..) (by decide)
  exact .nil _

theorem oneName_reproduced : ∃ w s root, runCalls collidingHashing World.start (.new ElemRef) oneName = some (w, s) ∧
    s.builder.finish = some (.node root) ∧
      Measures wrap32 w.heap.store.obj (.node root) (.node .stmtList [.node .binExpr [.token ⟨.ident, [97]⟩]]) := by
  have hmeets : CallsMeet collidingHashing Supplied World.start (.new ElemRef) oneName :=
    (Follows.start ⟨_, _, Interned.start collidingHashing⟩).meets oneName_runs (by decide +kernel)
  obtain ⟨-, w, s, root, hrun, hfinish, hmeasures, -⟩ := calls_reproduced .refl oneName_runs hmeets
  exact ⟨w, s, root, hrun, hfinish, hmeasures⟩

def crossing (tokens : List Call) : List Call :=
  [.startNode .stmtList, .checkpoint] ++ tokens ++
    [.startNode .exprStmt, .startNodeAt 0 .binExpr, .finishNode, .finishNode, .finishNode]

/-- After one token the node does not lie in the open one, and after two the open node has
lost its place. A stack of more than 2^31 entries is grown for ever, and two tokens of 2 GiB
make a node of no length. -/
theorem calls_crossed :
    ((runCalls collidingHashing World.start (.new ElemRef) (crossing [.token .ident [97]]).zipIdx).map fun (w, s) =>
      (s.builder.finish, w.heap.store.obj (.node 7), w.heap.store.obj (.node 5), w.heap.store.obj (.node 6))) =
      some (some (.node 7), some (.node .stmtList 1 () [⟨.node 5, 0⟩, ⟨.node 6, 1⟩]),
        some (.node .binExpr 1 () [⟨.token 2, 0⟩]), some (.node .exprStmt 0 () [])) ∧
    (runCalls collidingHashing World.start (.new ElemRef)
      (crossing [.token .ident [97], .token .plus [43]]).zipIdx).isNone ∧
    grow 16 (2 ^ 31) (2 ^ 31 + 1) = none ∧
    (placeChildren ⟨fun _ => some (.token ⟨.ident, List.replicate (2 ^ 31) 97⟩ ()), fun _ => 0⟩ 0
      [.token 0, .token 0]).map Prod.snd = some 0 := by
  refine ⟨by decide +kernel, by decide +kernel, by decide, ?_⟩
  simp only [placeChildren, GreenObj.len, List.length_replicate, Option.bind_some, Option.map_some]
  decide

end Ore.BuilderNesting
