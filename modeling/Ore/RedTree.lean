import Ore.GreenTree
import Ore.Loop

namespace Ore.RedTree

open SyntaxKinds GreenTree

mutual

/-- The bytes of the tokens below an element. -/
def textLen : Green → Nat
  | .token tok => tok.text.length
  | .node _ children => textLenAll children

def textLenAll : List Green → Nat
  | [] => 0
  | c :: cs => textLen c + textLenAll cs

end

mutual

/-- The tokens below an element, from left to right. -/
def leaves : Green → List GreenToken
  | .token tok => [tok]
  | .node _ children => leavesAll children

def leavesAll : List Green → List GreenToken
  | [] => []
  | c :: cs => leaves c ++ leavesAll cs

end

mutual

def depth : Green → Nat
  | .token _ => 0
  | .node _ children => depthAll children + 1

def depthAll : List Green → Nat
  | [] => 0
  | c :: cs => max (depth c) (depthAll cs)

end

def kindOf : Green → SyntaxKind
  | .token tok => tok.kind
  | .node kind _ => kind

structure TextRange where
  start : Nat
  length : Nat
  deriving DecidableEq, Repr

def TextRange.stop (r : TextRange) : Nat := r.start + r.length

def TextRange.contains (outer inner : TextRange) : Bool := outer.start ≤ inner.start && inner.stop ≤ outer.stop

/-- A green node at an offset of the text. -/
structure SyntaxNode where
  kind : SyntaxKind
  children : List Green
  start : Nat

structure SyntaxNodePtr where
  kind : SyntaxKind
  range : TextRange
  deriving DecidableEq, Repr

namespace SyntaxNode

def green (n : SyntaxNode) : Green := .node n.kind n.children

def textRange (n : SyntaxNode) : TextRange := ⟨n.start, textLenAll n.children⟩

/-- Where a child begins: the bytes of the children before it come first. -/
def childStart (n : SyntaxNode) (i : Nat) : Nat := n.start + textLenAll (n.children.take i)

def childRange (n : SyntaxNode) (i : Nat) : TextRange := ⟨n.childStart i, textLenAll n.children[i]?.toList⟩

end SyntaxNode

def syntaxTreeRoot : Green → Option SyntaxNode
  | .token _ => none
  | .node kind children => some ⟨kind, children, 0⟩

def syntaxNodePtrNew (n : SyntaxNode) : SyntaxNodePtr := ⟨n.kind, n.textRange⟩

def searchTurn (parent : SyntaxNode) (target : TextRange) (bounds : Nat × Nat) : (Nat × Nat) ⊕ Option Nat :=
  let (lo, hi) := bounds
  if lo < hi then
    let mid := lo + (hi - lo) / 2
    let child := parent.childRange mid
    if child.stop ≤ target.start then .inl (mid + 1, hi)
    else if target.start < child.start then .inl (lo, mid)
    else if child.contains target then .inr (some mid)
    else .inr none
  else .inr none

def findChildContaining (parent : SyntaxNode) (target : TextRange) : Option Nat :=
  (Loop.run (searchTurn parent target) (parent.children.length + 1) (0, parent.children.length)).join

def resolveTurn (ptr : SyntaxNodePtr) (current : SyntaxNode) : SyntaxNode ⊕ Option SyntaxNode :=
  if current.textRange = ptr.range then .inr none
  else match findChildContaining current ptr.range with
    | none => .inr none
    | some idx => match current.children[idx]? with
      | some (.node kind children) =>
          let next : SyntaxNode := ⟨kind, children, current.childStart idx⟩
          if syntaxNodePtrNew next = ptr then .inr (some next) else .inl next
      | _ => .inr none

/-- The node with a kind and range, found from the root. -/
def syntaxNodePtrResolve (ptr : SyntaxNodePtr) (root : SyntaxNode) : Option SyntaxNode :=
  if syntaxNodePtrNew root = ptr then some root
  else (Loop.run (resolveTurn ptr) (depth root.green + 1) root).join

@[simp] theorem textLenAll_append (ts us : List Green) : textLenAll (ts ++ us) = textLenAll ts + textLenAll us := by
  induction ts with
  | nil => simp [textLenAll]
  | cons t ts ih =>
      rw [List.cons_append, textLenAll, textLenAll, ih]
      omega

@[simp] theorem leavesAll_append (ts us : List Green) : leavesAll (ts ++ us) = leavesAll ts ++ leavesAll us := by
  induction ts with
  | nil => rfl
  | cons t ts ih => rw [List.cons_append, leavesAll, leavesAll, ih, List.append_assoc]

theorem depth_le_of_mem {t : Green} {ts : List Green} (h : t ∈ ts) : depth t ≤ depthAll ts := by
  induction ts with
  | nil => simp at h
  | cons u us ih =>
      rw [depthAll]
      rcases List.mem_cons.mp h with rfl | h
      · exact Nat.le_max_left ..
      · exact (ih h).trans (Nat.le_max_right ..)

theorem resolveTurn_depth {ptr : SyntaxNodePtr} {n next : SyntaxNode} (hturn : resolveTurn ptr n = .inl next) :
    depth next.green < depth n.green := by
  rw [resolveTurn] at hturn
  split at hturn
  · cases hturn
  · split at hturn
    · cases hturn
    · split at hturn
      · rename_i hchild
        simp only at hturn
        split at hturn
        · cases hturn
        · cases hturn
          rw [SyntaxNode.green, SyntaxNode.green, depth]
          exact Nat.lt_succ_of_le (depth_le_of_mem (List.mem_of_getElem? hchild))
      · cases hturn

/-- The descent ends before the levels of the tree are used up. -/
theorem resolve_returns (ptr : SyntaxNodePtr) (root : SyntaxNode) :
    ∃ r, Loop.run (resolveTurn ptr) (depth root.green + 1) root = some r := by
  obtain ⟨r, hr, -⟩ := Loop.run_spec (resolveTurn ptr) (fun _ => True) (fun _ => True) (fun n => depth n.green)
    (fun _ _ _ hturn => ⟨trivial, resolveTurn_depth hturn⟩) (fun _ _ _ _ => trivial) (depth root.green + 1) root trivial
    (Nat.lt_succ_self _)
  exact ⟨r, hr⟩

theorem childRange_stop (n : SyntaxNode) (i : Nat) : (n.childRange i).stop = n.childStart (i + 1) := by
  rw [SyntaxNode.childRange, TextRange.stop, SyntaxNode.childStart, SyntaxNode.childStart, List.take_add_one,
    textLenAll_append]
  simp only
  omega

theorem childStart_mono (n : SyntaxNode) {i j : Nat} (h : i ≤ j) : n.childStart i ≤ n.childStart j := by
  induction h with
  | refl => exact Nat.le_refl _
  | step _ ih => exact ih.trans (childRange_stop n _ ▸ Nat.le_add_right ..)

/-- A range lies in the bytes of the child at a place. -/
structure Holds (parent : SyntaxNode) (target : TextRange) (i : Nat) : Prop where
  start : parent.childStart i ≤ target.start
  inside : target.start < parent.childStart (i + 1)
  stop : target.stop ≤ parent.childStart (i + 1)

variable {parent : SyntaxNode} {target : TextRange} {i lo hi : Nat}

theorem Holds.contains (h : Holds parent target i) : (parent.childRange i).contains target = true := by
  have hstop := h.stop
  rw [← childRange_stop] at hstop
  simp only [TextRange.contains, Bool.and_eq_true, decide_eq_true_eq]
  exact ⟨h.start, hstop⟩

theorem searchTurn_eq (h : Holds parent target i) (hlt : lo < hi) :
    searchTurn parent target (lo, hi) =
      if lo + (hi - lo) / 2 < i then .inl (lo + (hi - lo) / 2 + 1, hi)
      else if i < lo + (hi - lo) / 2 then .inl (lo, lo + (hi - lo) / 2)
      else .inr (some (lo + (hi - lo) / 2)) := by
  have hstart := h.start
  have hinside := h.inside
  rw [searchTurn, if_pos hlt]
  simp only [childRange_stop]
  generalize lo + (hi - lo) / 2 = mid
  rcases Nat.lt_trichotomy mid i with hmid | rfl | hmid
  · rw [if_pos hmid, if_pos ((childStart_mono parent hmid).trans hstart)]
  · have hbegin : (parent.childRange mid).start = parent.childStart mid := rfl
    rw [if_neg (by omega), if_neg (by omega), if_pos h.contains, if_neg (by omega), if_neg (by omega)]
  · have hbefore : parent.childStart (i + 1) ≤ parent.childStart mid := childStart_mono parent hmid
    have hnext : parent.childStart mid ≤ parent.childStart (mid + 1) := childStart_mono parent (Nat.le_succ mid)
    have hbegin : (parent.childRange mid).start = parent.childStart mid := rfl
    rw [if_neg (by omega), if_pos (by omega), if_neg (by omega), if_pos hmid]

theorem findChildContaining_eq (hi : i < parent.children.length) (h : Holds parent target i) :
    findChildContaining parent target = some i := by
  obtain ⟨r, hr, rfl⟩ := Loop.run_spec (searchTurn parent target) (fun bounds => bounds.1 ≤ i ∧ i < bounds.2)
    (· = some i)
    (fun bounds => bounds.2 - bounds.1)
    (fun ⟨lo, hi⟩ next ⟨hlo, hhi⟩ hturn => by
      rw [searchTurn_eq h (Nat.lt_of_le_of_lt hlo hhi)] at hturn
      simp only at hlo hhi ⊢
      split at hturn
      · cases hturn
        exact ⟨⟨by omega, hhi⟩, by omega⟩
      · split at hturn
        · cases hturn
          exact ⟨⟨hlo, by omega⟩, by omega⟩
        · cases hturn)
    (fun ⟨lo, hi⟩ r ⟨hlo, hhi⟩ hturn => by
      rw [searchTurn_eq h (Nat.lt_of_le_of_lt hlo hhi)] at hturn
      split at hturn
      · cases hturn
      · split at hturn
        · cases hturn
        · cases hturn
          congr 1
          omega)
    (parent.children.length + 1) (0, parent.children.length) ⟨Nat.zero_le i, hi⟩ (by simp)
  rw [findChildContaining, hr]
  rfl

theorem resolve_child {kind : SyntaxKind} {before cs after : List Green} {root : SyntaxNode}
    (hroot : root.children = before ++ .node kind cs :: after) (hpos : 0 < textLenAll cs)
    (hlen : textLenAll cs ≠ textLenAll root.children) :
    syntaxNodePtrResolve ⟨kind, ⟨root.start + textLenAll before, textLenAll cs⟩⟩ root =
      some ⟨kind, cs, root.start + textLenAll before⟩ := by
  have htake : root.children.take before.length = before := by rw [hroot, List.take_left]
  have hchild : root.children[before.length]? = some (.node kind cs) := by simp [hroot]
  have hstart : root.childStart before.length = root.start + textLenAll before := by rw [SyntaxNode.childStart, htake]
  have hstop : root.childStart (before.length + 1) = root.start + textLenAll before + textLenAll cs := by
    rw [SyntaxNode.childStart, List.take_add_one, htake, hchild, textLenAll_append]
    simp only [Option.toList_some, textLenAll, textLen]
    omega
  have hrange : root.textRange ≠ ⟨root.start + textLenAll before, textLenAll cs⟩ := by
    rw [SyntaxNode.textRange, ne_eq, TextRange.mk.injEq]
    exact fun h => hlen h.2.symm
  have hholds : Holds root ⟨root.start + textLenAll before, textLenAll cs⟩ before.length :=
    ⟨by rw [hstart], by rw [hstop]; simp only; omega, by rw [hstop, TextRange.stop]⟩
  have hfind := findChildContaining_eq (by rw [hroot]; simp) hholds
  rw [syntaxNodePtrResolve, if_neg fun h => hrange (congrArg SyntaxNodePtr.range h)]
  rw [Loop.run_exit (r := some ⟨kind, cs, root.start + textLenAll before⟩)]
  · rfl
  · rw [resolveTurn, if_neg hrange, hfind]
    simp only [hchild, hstart, syntaxNodePtrNew, SyntaxNode.textRange, if_true]

theorem resolve_whole {kind : SyntaxKind} {root : SyntaxNode} (hkind : root.kind ≠ kind) :
    syntaxNodePtrResolve ⟨kind, root.textRange⟩ root = none := by
  rw [syntaxNodePtrResolve, if_neg fun h => hkind (congrArg SyntaxNodePtr.kind h), Loop.run_exit (r := none)]
  · rfl
  · rw [resolveTurn, if_pos rfl]

end Ore.RedTree
