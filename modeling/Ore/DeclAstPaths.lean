import Mathlib.Data.List.Nodup
import Ore.DeclAstIds

namespace Ore.DeclAstPaths

open SyntaxKinds GreenTree RedTree DeclAstIds

/-- A node below a declaration with the way to it: at each step the number of the
child among those that are no trivia. -/
structure Placed where
  path : List Nat
  node : SyntaxNode

def Placed.ptr (p : Placed) : SyntaxNodePtr := syntaxNodePtrNew p.node

def nextIndex (index : Nat) (c : Green) : Nat := if isTrivia c then index else index + 1

section Walks

mutual

/-- The nodes that the walk of the map visits, in its order. -/
def placed (start : Nat) (path : List Nat) : Green → List Placed
  | .token _ => []
  | .node kind children => ⟨path, ⟨kind, children, start⟩⟩ :: placedAll start path 0 children

def placedAll (start : Nat) (path : List Nat) (index : Nat) : List Green → List Placed
  | [] => []
  | c :: cs => placed start (path ++ [index]) c ++ placedAll (start + textLen c) path (nextIndex index c) cs

end

mutual

/-- Counts down to the wanted node; without it, what is left of the count. -/
def declAstIdFind (start : Nat) (path : List Nat) : Green → Nat → Nat ⊕ Placed
  | .token _, remaining => .inl remaining
  | .node kind children, 0 => .inr ⟨path, ⟨kind, children, start⟩⟩
  | .node _ children, remaining + 1 => declAstIdFindAll start path 0 children remaining

def declAstIdFindAll (start : Nat) (path : List Nat) (index : Nat) : List Green → Nat → Nat ⊕ Placed
  | [], remaining => .inl remaining
  | c :: cs, remaining => match declAstIdFind start (path ++ [index]) c remaining with
    | .inl remaining => declAstIdFindAll (start + textLen c) path (nextIndex index c) cs remaining
    | .inr found => .inr found

end

def nodesOf (wrapper : SyntaxNode) : List Placed := placed wrapper.start [] wrapper.green

def declAstIdResolve (wrapper : SyntaxNode) (rel : Nat) : Option Placed :=
  (declAstIdFind wrapper.start [] wrapper.green rel).getRight?

def relOf (wrapper : SyntaxNode) (p : Placed) : Option Nat := declAstIdLookup (declAstIdMapRefresh wrapper) p.ptr

end Walks

section Orders

mutual

theorem placed_ptrs (start : Nat) (path : List Nat) : ∀ g : Green,
    (placed start path g).map Placed.ptr = nodePtrs start g
  | .token _ => rfl
  | .node kind children => by
      rw [placed, nodePtrs, List.map_cons, placedAll_ptrs start path 0 children]
      rfl

theorem placedAll_ptrs (start : Nat) (path : List Nat) (index : Nat) : ∀ gs : List Green,
    (placedAll start path index gs).map Placed.ptr = nodePtrsAll start gs
  | [] => rfl
  | c :: cs => by
      rw [placedAll, nodePtrsAll, List.map_append, placed_ptrs start (path ++ [index]) c,
        placedAll_ptrs (start + textLen c) path (nextIndex index c) cs]

end

def countdown (ps : List Placed) (remaining : Nat) : Nat ⊕ Placed :=
  match ps[remaining]? with
  | some p => .inr p
  | none => .inl (remaining - ps.length)

theorem countdown_append (ps qs : List Placed) (remaining : Nat) :
    countdown (ps ++ qs) remaining = match countdown ps remaining with
      | .inl remaining => countdown qs remaining
      | .inr p => .inr p := by
  rcases Nat.lt_or_ge remaining ps.length with hlt | hge
  · simp [countdown, List.getElem?_append_left hlt, List.getElem?_eq_getElem hlt]
  · simp [countdown, List.getElem?_append_right hge, List.getElem?_eq_none hge, Nat.sub_sub]

mutual

theorem find_eq (start : Nat) (path : List Nat) : ∀ (g : Green) (remaining : Nat),
    declAstIdFind start path g remaining = countdown (placed start path g) remaining
  | .token _, remaining => rfl
  | .node kind children, 0 => rfl
  | .node kind children, remaining + 1 => by
      rw [declAstIdFind, findAll_eq start path 0 children remaining, placed]
      simp [countdown]

theorem findAll_eq (start : Nat) (path : List Nat) (index : Nat) : ∀ (gs : List Green) (remaining : Nat),
    declAstIdFindAll start path index gs remaining = countdown (placedAll start path index gs) remaining
  | [], remaining => rfl
  | c :: cs, remaining => by
      rw [declAstIdFindAll, placedAll, countdown_append, find_eq start (path ++ [index]) c remaining]
      cases countdown (placed start (path ++ [index]) c) remaining with
      | inl remaining => exact findAll_eq (start + textLen c) path (nextIndex index c) cs remaining
      | inr p => rfl

end

theorem resolve_eq (wrapper : SyntaxNode) (rel : Nat) : declAstIdResolve wrapper rel = (nodesOf wrapper)[rel]? := by
  rw [declAstIdResolve, find_eq, countdown, nodesOf]
  cases (placed wrapper.start [] wrapper.green)[rel]? <;> rfl

end Orders

section Shapes

/-- What an edit of trivia leaves of a node. -/
def Placed.shape (p : Placed) : List Nat × SyntaxKind := (p.path, p.node.kind)

mutual

theorem placed_strip (start start' : Nat) (path : List Nat) : ∀ g : Green,
    (placed start path g).map Placed.shape = (placed start' path (strip g)).map Placed.shape
  | .token _ => rfl
  | .node kind children => by
      rw [strip, placed, placed, List.map_cons, List.map_cons, placedAll_strip start start' path 0 children]
      rfl

theorem placedAll_strip (start start' : Nat) (path : List Nat) (index : Nat) : ∀ gs : List Green,
    (placedAll start path index gs).map Placed.shape = (placedAll start' path index (stripAll gs)).map Placed.shape
  | [] => rfl
  | c :: cs => by
      rw [placedAll, stripAll, List.map_append]
      cases ht : isTrivia c with
      | true =>
          cases c with
          | node kind children => simp [isTrivia] at ht
          | token tok =>
              rw [nextIndex, if_pos ht, if_pos rfl]
              exact placedAll_strip _ start' path index cs
      | false =>
          have hstrip : isTrivia (strip c) = false := by
            cases c with
            | node kind children => rfl
            | token tok => exact ht
          rw [if_neg Bool.false_ne_true, placedAll, List.map_append, placed_strip start start' (path ++ [index]) c,
            nextIndex, nextIndex, ht, hstrip]
          exact congrArg _ (placedAll_strip _ _ path (index + 1) cs)

end

/-- Two trees of one declaration: trivia and the place in the file may differ. -/
def Drifted (wrapper wrapper' : SyntaxNode) : Prop := strip wrapper'.green = strip wrapper.green

theorem shapes_drifted {wrapper wrapper' : SyntaxNode} (h : Drifted wrapper wrapper') :
    (nodesOf wrapper').map Placed.shape = (nodesOf wrapper).map Placed.shape := by
  rw [nodesOf, nodesOf, placed_strip _ 0, placed_strip wrapper.start 0, h]

mutual

theorem path_placed {start : Nat} {path : List Nat} {p : Placed} : ∀ {g : Green}, p ∈ placed start path g →
    path <+: p.path
  | .token _ => fun h => absurd h List.not_mem_nil
  | .node kind children => fun h => by
      rw [placed, List.mem_cons] at h
      rcases h with rfl | h
      · exact List.prefix_refl path
      · obtain ⟨i, -, hi⟩ := path_placedAll h
        exact (List.prefix_append path [i]).trans hi

theorem path_placedAll {start : Nat} {path : List Nat} {index : Nat} {p : Placed} : ∀ {gs : List Green},
    p ∈ placedAll start path index gs → ∃ i, index ≤ i ∧ path ++ [i] <+: p.path
  | [] => fun h => absurd h List.not_mem_nil
  | c :: cs => fun h => by
      rw [placedAll, List.mem_append] at h
      rcases h with h | h
      · exact ⟨index, le_refl index, path_placed h⟩
      · obtain ⟨i, hle, hi⟩ := path_placedAll h
        refine ⟨i, le_trans ?_ hle, hi⟩
        rw [nextIndex]
        split <;> omega

end

theorem prefix_index {path full : List Nat} {i j : Nat} (hi : path ++ [i] <+: full) (hj : path ++ [j] <+: full) :
    i = j := by
  have heq : path ++ [i] = path ++ [j] := (List.prefix_of_prefix_length_le hi hj (by simp)).eq_of_length (by simp)
  simpa using heq

mutual

theorem paths_nodup (start : Nat) (path : List Nat) : ∀ g : Green, ((placed start path g).map Placed.path).Nodup
  | .token _ => List.nodup_nil
  | .node kind children => by
      rw [placed, List.map_cons, List.nodup_cons]
      refine ⟨fun h => ?_, pathsAll_nodup start path 0 children⟩
      obtain ⟨p, hp, hpath⟩ := List.mem_map.mp h
      obtain ⟨i, -, hi⟩ := path_placedAll hp
      have hlen := hi.length_le
      rw [hpath, List.length_append, List.length_singleton] at hlen
      exact absurd hlen (by simp)

theorem pathsAll_nodup (start : Nat) (path : List Nat) (index : Nat) : ∀ gs : List Green,
    ((placedAll start path index gs).map Placed.path).Nodup
  | [] => List.nodup_nil
  | c :: cs => by
      rw [placedAll, List.map_append, List.nodup_append]
      refine ⟨paths_nodup start _ c, pathsAll_nodup _ path _ cs, fun a ha b hb hab => ?_⟩
      obtain ⟨p, hp, rfl⟩ := List.mem_map.mp ha
      obtain ⟨q, hq, rfl⟩ := List.mem_map.mp hb
      obtain ⟨i, hle, hi⟩ := path_placedAll hq
      cases c with
      | token tok => exact absurd hp List.not_mem_nil
      | node kind children =>
          have hindex : index = i := prefix_index (path_placed hp) (hab ▸ hi)
          rw [nextIndex, if_neg (by simp [isTrivia])] at hle
          omega

end

theorem eq_of_path {wrapper : SyntaxNode} {p q : Placed} (hp : p ∈ nodesOf wrapper) (hq : q ∈ nodesOf wrapper)
    (h : p.path = q.path) : p = q :=
  List.inj_on_of_nodup_map (paths_nodup wrapper.start [] wrapper.green) hp hq h

end Shapes

section Ids

def Corresponds (p p' : Placed) : Prop := p.path = p'.path ∧ p.node.kind = p'.node.kind

/-- In every tree of the declaration the id of a node leads to the node that
corresponds to it. -/
def Survive (wrapper : SyntaxNode) : Prop :=
  ∀ wrapper', Drifted wrapper wrapper' → ∀ p ∈ nodesOf wrapper, ∃ rel, relOf wrapper p = some rel ∧
    ∃ p' ∈ nodesOf wrapper', declAstIdResolve wrapper' rel = some p' ∧ Corresponds p p'

def Injective (wrapper : SyntaxNode) : Prop :=
  ∀ p ∈ nodesOf wrapper, ∀ q ∈ nodesOf wrapper, relOf wrapper p = relOf wrapper q → p = q

def Inverse (wrapper : SyntaxNode) : Prop :=
  ∀ rel, ∀ p ∈ nodesOf wrapper, relOf wrapper p = some rel ↔ declAstIdResolve wrapper rel = some p

variable {wrapper wrapper' : SyntaxNode} {p : Placed} {rel : Nat}

theorem ptr_of_node (h : (nodesOf wrapper)[rel]? = some p) : (ptrsOf wrapper)[rel]? = some p.ptr := by
  rw [ptrsOf, ← placed_ptrs wrapper.start [] wrapper.green, List.getElem?_map]
  exact congrArg (Option.map Placed.ptr) h

theorem resolve_relOf (wrapper : SyntaxNode) (p : Placed) :
    ∃ site, declAstIdResolve wrapper ((relOf wrapper p).getD 0) = some site := by
  have hlength : (nodesOf wrapper).length = (ptrsOf wrapper).length := by
    rw [ptrsOf, ← placed_ptrs wrapper.start [] wrapper.green, List.length_map, nodesOf]
  have hlt : (relOf wrapper p).getD 0 < (nodesOf wrapper).length := by
    cases hrel : relOf wrapper p with
    | none => exact List.length_pos_of_mem (List.mem_cons_self (a := (⟨[], wrapper⟩ : Placed)))
    | some rel =>
        rw [relOf, declAstIdLookup, declAstIdMapRefresh, walk_eq] at hrel
        rcases foldl_put_lt hrel with hinit | hlt
        · exact absurd hinit (by simp [DeclAstIdMap.init])
        · rw [hlength, Option.getD_some]
          simpa [DeclAstIdMap.init, ptrsOf] using hlt
  exact ⟨_, (resolve_eq wrapper _).trans (List.getElem?_eq_getElem hlt)⟩

theorem relOf_of_distinct (hd : Distinct wrapper) (h : (nodesOf wrapper)[rel]? = some p) : relOf wrapper p = some rel :=
  current_of_refresh rfl hd rel p.ptr (ptr_of_node h)

theorem inverse_of_distinct (hd : Distinct wrapper) : Inverse wrapper := by
  intro rel p hp
  obtain ⟨i, hi⟩ := List.mem_iff_getElem?.mp hp
  have hrel := relOf_of_distinct hd hi
  rw [hrel, resolve_eq]
  constructor
  · intro h
    rw [← Option.some.inj h]
    exact hi
  · intro h
    exact hrel.symm.trans (relOf_of_distinct hd h)

theorem injective_of_distinct (hd : Distinct wrapper) : Injective wrapper := by
  intro p hp q hq heq
  obtain ⟨i, hi⟩ := List.mem_iff_getElem?.mp hp
  have hrel := relOf_of_distinct hd hi
  have hq' := (inverse_of_distinct hd i q hq).mp (heq ▸ hrel)
  rw [resolve_eq, hi] at hq'
  exact Option.some.inj hq'

theorem survive_of_distinct (hd : Distinct wrapper) : Survive wrapper := by
  intro wrapper' hdrift p hp
  obtain ⟨i, hi⟩ := List.mem_iff_getElem?.mp hp
  have hshapes := congrArg (·[i]?) (shapes_drifted hdrift)
  simp only [List.getElem?_map, hi, Option.map_some, Option.map_eq_some_iff] at hshapes
  obtain ⟨p', hp', hshape⟩ := hshapes
  refine ⟨i, relOf_of_distinct hd hi, p', List.mem_of_getElem? hp', (resolve_eq wrapper' i).trans hp', ?_, ?_⟩
  · exact (congrArg Prod.fst hshape).symm
  · exact (congrArg Prod.snd hshape).symm

/-- Nodes with one hash have one id, which cannot lead back to both. -/
theorem distinct_of_survive (h : Survive wrapper) : Distinct wrapper := by
  rw [Distinct, ptrsOf, ← placed_ptrs wrapper.start [] wrapper.green, List.map_map]
  refine List.Nodup.map_on ?_ (List.Nodup.of_map _ (paths_nodup wrapper.start [] wrapper.green))
  intro p hp q hq hhash
  have hsame : relOf wrapper p = relOf wrapper q := by
    rw [relOf, relOf, declAstIdLookup, declAstIdLookup]
    exact congrArg _ hhash
  obtain ⟨rel, hrel, p', -, hfound, hp'⟩ := h wrapper rfl p hp
  obtain ⟨rel', hrel', q', -, hfound', hq'⟩ := h wrapper rfl q hq
  have hids : rel = rel' := by
    rw [hsame, hrel'] at hrel
    exact (Option.some.inj hrel).symm
  rw [← hids, hfound] at hfound'
  rw [← Option.some.inj hfound'] at hq'
  exact eq_of_path hp hq (hp'.1.trans hq'.1.symm)

/-- Ids survive drift and lead back to their nodes exactly when no two nodes of
the declaration have one hash of kind and range. -/
theorem relative_ids_iff (wrapper : SyntaxNode) :
    (Survive wrapper ∧ Injective wrapper ∧ Inverse wrapper) ↔ Distinct wrapper :=
  ⟨fun h => distinct_of_survive h.1,
    fun h => ⟨survive_of_distinct h, injective_of_distinct h, inverse_of_distinct h⟩⟩

/-- The two missing operands of `a::[-` are empty nodes at one place. -/
def missingOperands : SyntaxNode where
  kind := .bindDecl
  children := [.token ⟨.ident, [97]⟩, .token ⟨.colonColon, [58, 58]⟩,
    .node .arrayType [.token ⟨.lbracket, [91]⟩, .node .prefixExpr [.token ⟨.minus, [45]⟩, .node .errorNode []],
      .node .errorNode []]]
  start := 0

theorem missing_operands_collide : ¬Survive missingOperands := by
  intro h
  exact absurd (distinct_of_survive h) (by decide +kernel)

end Ids

end Ore.DeclAstPaths
