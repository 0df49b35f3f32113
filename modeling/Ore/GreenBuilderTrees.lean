import Ore.GreenBuilder

namespace Ore.GreenBuilderTrees

open SyntaxKinds GreenTree GreenCache GreenCacheSteps GreenDenotes GreenCacheCanonical GreenBuilder

variable {η : Type} {H : Hashing η} {obj obj' : ElemRef → Option (GreenObj η)}

theorem denotesAll_append {rs' : List ElemRef} {ts' : List Green} (h' : DenotesAll obj rs' ts') :
    ∀ {ts : List Green} {rs : List ElemRef}, DenotesAll obj rs ts → DenotesAll obj (rs ++ rs') (ts ++ ts') := by
  intro ts
  induction ts with
  | nil =>
      rintro rs rfl
      exact h'
  | cons t ts ih =>
      rintro _ ⟨r, rest, rfl, ht, hts⟩
      exact ⟨r, rest ++ rs', rfl, ht, ih hts⟩

theorem denotesAll_take (n : Nat) {ts : List Green} : ∀ {rs : List ElemRef}, DenotesAll obj rs ts →
    DenotesAll obj (rs.take n) (ts.take n) := by
  induction ts generalizing n with
  | nil =>
      rintro rs rfl
      rw [List.take_nil, List.take_nil]
      rfl
  | cons t ts ih =>
      rintro _ ⟨r, rest, rfl, ht, hts⟩
      cases n with
      | zero => rfl
      | succ n => exact ⟨r, rest.take n, rfl, ht, ih n hts⟩

theorem denotesAll_drop (n : Nat) {ts : List Green} : ∀ {rs : List ElemRef}, DenotesAll obj rs ts →
    DenotesAll obj (rs.drop n) (ts.drop n) := by
  induction ts generalizing n with
  | nil =>
      rintro rs rfl
      rw [List.drop_nil, List.drop_nil]
      rfl
  | cons t ts ih =>
      rintro _ ⟨r, rest, rfl, ht, hts⟩
      cases n with
      | zero => exact ⟨r, rest, rfl, ht, hts⟩
      | succ n => exact ih n hts

variable [DecidableEq η] {w w' w'' : World η} {b b' : Builder ElemRef} {tb tb' : Builder Green} {rest : List ElemRef}
    {addr : Nat}
  {op : BuilderOp}

theorem later_trans {ok : World η → Request → Prop} (h : Later H ok w w') (h' : Later H ok w' w'') :
    Later H ok w w'' := by
  induction h' with
  | refl => exact h
  | step _ hok hstep ih => exact .step ih hok hstep

/-- The addresses that the allocator hands out are free, and no count is
raised to its limit. -/
def Supplied (w : World η) : Request → Prop
  | .token addr kind text => w.heap.store.obj (.token addr) = none ∧ Room w (.token addr kind text)
  | .node addr kind children => w.heap.store.obj (.node addr) = none ∧ Room w (.node addr kind children)
  | req => Room w req

/-- What the cache is asked for can be given: the buckets tell the objects whose counts are
raised. -/
def canSupply (H : Hashing η) (w : World η) : Request → Bool
  | .token addr kind text =>
      (w.heap.store.obj (.token addr)).isNone &&
        (w.cache.tokens (H.token kind text)).all fun a => w.heap.store.count (.token a) + 1 < 2 ^ 32
  | .node addr kind children =>
      (w.heap.store.obj (.node addr)).isNone &&
        (w.cache.nodes (H.node kind children)).all (fun a => w.heap.store.count (.node a) + 1 < 2 ^ 32) &&
        children.all fun c => w.heap.store.count c + children.count c < 2 ^ 32
  | .retain r => w.heap.store.count r + 1 < 2 ^ 32
  | .release _ => true

omit [DecidableEq η] in
theorem supplied_of_canSupply (h : Sound H w) {req : Request} (hcan : canSupply H w req = true) : Supplied w req := by
  obtain ⟨_, _, hinterned⟩ := h
  cases req with
  | token addr kind text =>
      simp only [canSupply, Bool.and_eq_true, Option.isNone_iff_eq_none, List.all_eq_true, decide_eq_true_eq] at hcan
      refine ⟨hcan.1, fun a hequals => hcan.2 a ?_⟩
      rw [greenTokenEquals] at hequals
      split at hequals
      · rename_i tok hash hobj
        simp only [Bool.and_eq_true, decide_eq_true_eq] at hequals
        obtain ⟨rfl, rfl⟩ := hequals
        obtain ⟨tok', heq⟩ := hinterned.tabled.tokens a _ hobj
        simp only [GreenObj.token.injEq] at heq
        obtain ⟨rfl, rfl⟩ := heq
        exact (hinterned.tabled.tokenBucket a _).mpr ⟨tok, hobj⟩
      · cases hequals
  | node addr kind children =>
      simp only [canSupply, Bool.and_eq_true, Option.isNone_iff_eq_none, List.all_eq_true, decide_eq_true_eq] at hcan
      obtain ⟨⟨hfree, hbucket⟩, hchildren⟩ := hcan
      refine ⟨hfree, fun hfew a hequals => hbucket a ?_, fun _ => hchildren⟩
      obtain ⟨textLen, hash, cs, hobj, rfl⟩ := greenNodeEquals_eq_true.mp hequals
      obtain ⟨_, _, _, heq⟩ := hinterned.tabled.nodes a _ hobj
      simp only [GreenObj.node.injEq] at heq
      obtain ⟨rfl, rfl, rfl, rfl⟩ := heq
      exact (hinterned.tabled.nodeBucket a _).mpr ⟨_, _, _, hobj, by rwa [List.length_map] at hfew⟩
  | retain r =>
      rw [canSupply, decide_eq_true_eq] at hcan
      exact hcan
  | release r => trivial

/-- The elements of the builder are held besides others, and unfold to those of
the builder of trees. -/
structure Builds (H : Hashing η) (w : World η) (b : Builder ElemRef) (tb : Builder Green) (rest : List ElemRef) :
    Prop where
  sound : Sound H w
  owned : w.owned.Perm (b.children ++ rest)
  parents : b.parents = tb.parents
  children : DenotesAll w.heap.store.obj b.children tb.children

theorem releaseAll_spec {refs : List ElemRef} (h : Sound H w) (howned : w.owned.Perm (refs ++ rest)) :
    ∃ w', releaseAll H w refs = some w' ∧ Sound H w' ∧ Later H InBounds w w' ∧ w'.owned.Perm rest ∧
      ∀ r ∈ rest, Kept w.heap.store.obj w'.heap.store.obj r := by
  induction refs generalizing w with
  | nil => exact ⟨w, rfl, h, .refl, howned, fun _ _ _ _ => rfl⟩
  | cons c cs ih =>
      have hallowed : Allowed w (.release c) := howned.mem_iff.mpr (List.mem_cons_self ..)
      obtain ⟨w1, rank, holders, hstep, hinterned, howned1, -⟩ := step_release h hallowed
      have hrest : w1.owned.Perm (cs ++ rest) := by
        rw [howned1]
        simpa using howned.erase c
      obtain ⟨w2, hall, hsound, hlater, howned2, hkept⟩ := ih ⟨rank, holders, hinterned⟩ hrest
      refine ⟨w2, ?_, hsound, later_trans (.step .refl ⟨hallowed, trivial⟩ hstep) hlater, howned2, fun r hr => ?_⟩
      · rw [releaseAll, List.foldlM_cons, hstep]
        exact hall
      · refine (step_kept h ⟨hallowed, trivial⟩ hstep (.inr ⟨?_, ?_⟩)).trans (hkept r hr)
        · exact howned.mem_iff.mpr (List.mem_append_right _ hr)
        · exact hrest.mem_iff.mpr (List.mem_append_right _ hr)

namespace Builds

omit [DecidableEq η] in
theorem length_eq (h : Builds H w b tb rest) : b.children.length = tb.children.length := h.children.length_eq

omit [DecidableEq η] in
theorem kept (h : Builds H w b tb rest) (hgrown : ∀ p o, w.heap.store.obj p = some o → w'.heap.store.obj p = some o) :
    DenotesAll w'.heap.store.obj b.children tb.children := by
  refine h.children.kept fun c hc => ?_
  obtain ⟨rank, holders, hinterned⟩ := h.sound
  obtain ⟨o, ho⟩ := hinterned.mem_live (hinterned.owned_mem (h.owned.mem_iff.mpr (List.mem_append_left _ hc)))
  exact kept_of_grown h.sound hgrown ho

omit [DecidableEq η] in
theorem startNode (h : Builds H w b tb rest) (kind : SyntaxKind) :
    Builds H w (b.startNode kind) (tb.startNode kind) rest where
  sound := h.sound
  owned := h.owned
  parents := by rw [Builder.startNode, Builder.startNode, h.parents, h.length_eq]
  children := h.children

theorem token (h : Builds H w b tb rest) {kind : SyntaxKind} {text : WorkspaceModel.Bytes}
    (hfree : Supplied w (.token addr kind text)) :
    ∃ w' r, step H w (.token addr kind text) = some (w', some r) ∧ Later H InBounds w w' ∧
      Builds H w' (b.push r) (tb.push (.token ⟨kind, text⟩)) rest := by
  obtain ⟨w', a, hash, hstep, hanswered⟩ := step_token h.sound hfree.1 hfree.2
  have hnew : DenotesAll w'.heap.store.obj [.token a] [.token ⟨kind, text⟩] := ⟨_, [], rfl, ⟨hash, hanswered.obj⟩, rfl⟩
  have hbounds : InBounds w (.token addr kind text) := hfree
  refine ⟨w', _, hstep, .step .refl hbounds hstep, hanswered.sound, ?_, h.parents, ?_⟩
  · rw [hanswered.owned, Builder.push, List.append_assoc]
    exact (h.owned.cons _).trans (List.perm_middle.symm)
  · exact denotesAll_append hnew (h.kept hanswered.kept)

omit [DecidableEq η] in
/-- The frames close over elements that unfold to one another. -/
theorem popFrame (h : Builds H w b tb rest) :
    b.popFrame = none ∧ tb.popFrame = none ∨
      ∃ kind first, b.popFrame = some (kind, b.children.drop first, ⟨tb.parents.tail, b.children.take first⟩) ∧
        tb.popFrame = some (kind, tb.children.drop first, ⟨tb.parents.tail, tb.children.take first⟩) := by
  rw [Builder.popFrame, Builder.popFrame, h.parents]
  cases tb.parents with
  | nil => exact .inl ⟨rfl, rfl⟩
  | cons frame parents =>
      obtain ⟨kind, first⟩ := frame
      by_cases hfirst : first ≤ tb.children.length
      · refine .inr ⟨kind, first, ?_, ?_⟩
        · exact if_pos (h.length_eq ▸ hfirst)
        · exact if_pos hfirst
      · refine .inl ⟨?_, ?_⟩
        · exact if_neg (h.length_eq ▸ hfirst)
        · exact if_neg hfirst

/-- A node is made of the elements since its first, which are given up. -/
theorem finishNode (h : Builds H w b tb rest) (parents : List (SyntaxKind × Nat)) {kind : SyntaxKind} {first : Nat}
    (hfree : Supplied w (.node addr kind (b.children.drop first))) :
    ∃ w1 w' r, step H w (.node addr kind (b.children.drop first)) = some (w1, some r) ∧
      releaseAll H w1 (b.children.drop first) = some w' ∧ Later H InBounds w w' ∧
      Builds H w' (Builder.push ⟨parents, b.children.take first⟩ r)
        (Builder.push ⟨parents, tb.children.take first⟩ (.node kind (tb.children.drop first))) rest := by
  have hmem : ∀ c ∈ b.children.drop first, c ∈ w.owned := fun c hc =>
    h.owned.mem_iff.mpr (List.mem_append_left _ (List.mem_of_mem_drop hc))
  obtain ⟨w1, a, textLen, hash, cs, hstep, hanswered, hrefs⟩ := step_node h.sound ⟨hfree.1, hmem⟩ hfree.2
  have hall := h.kept hanswered.kept
  have hnode : Denotes w1.heap.store.obj (.node a) (.node kind (tb.children.drop first)) :=
    ⟨textLen, hash, cs, hanswered.obj, hrefs ▸ denotesAll_drop first hall⟩
  have howned : w1.owned.Perm (b.children.drop first ++ (b.children.take first ++ [.node a] ++ rest)) := by
    have hsplit : (.node a :: (b.children.take first ++ b.children.drop first) ++ rest).Perm
        (b.children.drop first ++ (b.children.take first ++ [.node a] ++ rest)) := by
      rw [List.perm_iff_count]
      intro x
      simp only [List.cons_append, List.count_cons, List.count_append, List.count_nil]
      omega
    rw [hanswered.owned]
    rw [List.take_append_drop] at hsplit
    exact (h.owned.cons _).trans hsplit
  obtain ⟨w', hrelease, hsound, hlater, howned', hkept⟩ := releaseAll_spec hanswered.sound howned
  have hnew : DenotesAll w1.heap.store.obj [.node a] [.node kind (tb.children.drop first)] := ⟨_, [], rfl, hnode, rfl⟩
  have hbounds : InBounds w (.node addr kind (b.children.drop first)) := ⟨⟨hfree.1, hmem⟩, hfree.2⟩
  refine ⟨w1, w', .node a, hstep, hrelease, later_trans (.step .refl hbounds hstep) hlater, hsound, howned', rfl, ?_⟩
  exact (denotesAll_append hnew (denotesAll_take first hall)).kept fun r hr => hkept r (List.mem_append_left _ hr)

/-- Each call does on the cache what it does on trees. -/
theorem step (h : Builds H w b tb rest) (hmeets : ∀ req ∈ opRequest b addr op, Supplied w req) :
    builderStep H w b addr op = none ∧ buildTree tb op = none ∨
      ∃ w' b' tb', builderStep H w b addr op = some (w', b') ∧ buildTree tb op = some tb' ∧ Later H InBounds w w' ∧
        Builds H w' b' tb' rest := by
  cases op with
  | startNode kind => exact .inr ⟨_, _, _, rfl, rfl, .refl, h.startNode kind⟩
  | token kind text =>
      obtain ⟨w', r, hstep, hlater, hbuilds⟩ := h.token (hmeets _ rfl)
      refine .inr ⟨w', _, _, ?_, rfl, hlater, hbuilds⟩
      rw [builderStep, hstep]
      rfl
  | startNodeAt checkpoint kind =>
      rw [builderStep, buildTree, Builder.startNodeAt, Builder.startNodeAt, h.length_eq]
      by_cases hle : checkpoint ≤ tb.children.length
      · rw [if_pos hle, if_pos hle]
        exact .inr ⟨_, _, _, rfl, rfl, .refl, h.sound, h.owned, by rw [h.parents], h.children⟩
      · rw [if_neg hle, if_neg hle]
        exact .inl ⟨rfl, rfl⟩
  | finishNode =>
      rcases h.popFrame with ⟨hnone, hnone'⟩ | ⟨kind, first, hsome, hsome'⟩
      · rw [builderStep, buildTree, hnone, hnone']
        exact .inl ⟨rfl, rfl⟩
      · have hfree : Supplied w (.node addr kind (b.children.drop first)) := hmeets _ (by rw [opRequest, hsome]; rfl)
        obtain ⟨w1, w', r, hstep, hrelease, hlater, hbuilds⟩ := h.finishNode tb.parents.tail hfree
        refine .inr ⟨w', _, _, ?_, ?_, hlater, hbuilds⟩
        · rw [builderStep, hsome, Option.bind_some]
          simp only [hstep, Option.bind_some, hrelease, Option.map_some]
        · rw [buildTree, hsome']
          rfl

theorem run {script : List (BuilderOp × Nat)} (h : Builds H w b tb rest) (hmeets : ScriptMeets H Supplied w b script)
    (hrun : buildAll H w b script = some (w', b')) :
    ∃ tb', (script.map Prod.fst).foldlM buildTree tb = some tb' ∧ Later H InBounds w w' ∧ Builds H w' b' tb' rest := by
  induction script generalizing w b tb with
  | nil =>
      obtain ⟨rfl, rfl⟩ := Prod.mk.inj (Option.some.inj hrun)
      exact ⟨tb, rfl, .refl, h⟩
  | cons call script ih =>
      obtain ⟨op, addr⟩ := call
      rw [buildAll] at hrun
      rcases h.step hmeets.1 with ⟨hnone, -⟩ | ⟨w1, b1, tb1, hstep, htree, hlater, hbuilds⟩
      · simp [hnone] at hrun
      · rw [hstep, Option.bind_some] at hrun
        obtain ⟨tb', hfold, hlater', hbuilds'⟩ := ih hbuilds (hmeets.2 _ hstep) hrun
        refine ⟨tb', ?_, later_trans hlater hlater', hbuilds'⟩
        rw [List.map_cons, List.foldlM_cons, htree]
        exact hfold

omit [DecidableEq η] in
/-- The root that is handed over unfolds to the tree built. -/
theorem finish {root : Nat} (h : Builds H w b tb rest) (hfinish : b.finish = some (.node root)) :
    ∃ kind ts, tb.finish = some (.node kind ts) ∧ Denotes w.heap.store.obj (.node root) (.node kind ts) ∧
      w.owned.Perm (.node root :: rest) := by
  obtain ⟨hparents, hchildren⟩ := Builder.finish_eq_some.mp hfinish
  have hall := h.children
  have howned := h.owned
  rw [hchildren] at hall howned
  obtain ⟨t, htree, hdenotes⟩ : ∃ t, tb.children = [t] ∧ Denotes w.heap.store.obj (.node root) t := by
    have hlength := h.length_eq
    rw [hchildren] at hlength
    obtain ⟨t, ht⟩ := List.length_eq_one_iff.mp hlength.symm
    rw [ht] at hall
    obtain ⟨r, l, hrefs, hdenotes, -⟩ := hall
    obtain ⟨rfl, -⟩ := List.cons.inj hrefs
    exact ⟨t, ht, hdenotes⟩
  cases t with
  | token tok =>
      obtain ⟨_, _, hinterned⟩ := h.sound
      obtain ⟨hash, ho⟩ := hdenotes
      obtain ⟨_, _, _, heq⟩ := hinterned.tabled.nodes root _ ho
      simp at heq
  | node kind ts => exact ⟨kind, ts, Builder.finish_eq_some.mpr ⟨h.parents ▸ hparents, htree⟩, hdenotes, howned⟩

end Builds

end Ore.GreenBuilderTrees
