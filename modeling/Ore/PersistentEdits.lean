import Ore.RedForest

namespace Ore.PersistentEdits

open RedForest SyntaxKinds
open GreenTree (GreenToken)

/-- A green element with what is stored in it: the length of a node, and the
offset of each child within its node. -/
inductive Stored where
  | token (tok : GreenToken)
  | node (kind : SyntaxKind) (textLen : Nat) (children : List (Nat × Stored))

namespace Stored

def kind : Stored → SyntaxKind
  | .token tok => tok.kind
  | .node k _ _ => k

def textLen : Stored → Nat
  | .token tok => tok.text.length
  | .node _ n _ => n

def elements : Stored → List Stored
  | .token _ => []
  | .node _ _ cs => cs.map Prod.snd

end Stored

/-- The loop of green_node_alloc: the children with their offsets, and the length
of all of them. -/
def layOut : Nat → List Stored → List (Nat × Stored) × Nat
  | textLen, [] => ([], textLen)
  | textLen, c :: cs =>
    let (rest, total) := layOut (textLen + c.textLen) cs
    ((textLen, c) :: rest, total)

def greenNodeAlloc (kind : SyntaxKind) (children : List Stored) : Stored :=
  let (laid, textLen) := layOut 0 children
  .node kind textLen laid

def greenNodeReplaceChild (n : Stored) (idx : Nat) (newChild : Stored) : Option Stored :=
  if idx < n.elements.length then some (greenNodeAlloc n.kind (n.elements.set idx newChild)) else none

def greenNodeSpliceChildren (n : Stored) (start stop : Nat) (replace : List Stored) : Option Stored :=
  if start ≤ stop ∧ stop ≤ n.elements.length then
    some (greenNodeAlloc n.kind (n.elements.take start ++ replace ++ n.elements.drop stop))
  else none

mutual

def stored : Green → Stored
  | .token _ tok => .token tok
  | .node _ k cs => greenNodeAlloc k (storedAll cs)

def storedAll : List Green → List Stored
  | [] => []
  | c :: cs => stored c :: storedAll cs

end

/-- The way up from an immutable node: each ancestor is built anew. -/
def bubbleUp : {g : Green} → Fixed g → Stored → Option Stored
  | _, .root _ _ _, current => some current
  | _, @Fixed.child parent up index _ _, current =>
    (greenNodeReplaceChild (stored parent) index current).bind (bubbleUp up)

/-- syntax_node_replace_with of an immutable node. -/
def replaceWith {g : Green} (n : Fixed g) (replacement : Stored) : Option Stored :=
  if replacement.kind = g.kind then bubbleUp n replacement else none

def persistentSplice {g : Green} (n : Fixed g) (start stop : Nat) (replace : List Stored) : Option Stored :=
  (greenNodeSpliceChildren (stored g) start stop replace).bind (replaceWith n)

/-- The tree that an immutable handle is in. -/
def rootOf : {g : Green} → Fixed g → Green
  | _, .root addr kind children => .node addr kind children
  | _, .child up _ _ _ => rootOf up

def placeOf : {g : Green} → Fixed g → List Nat
  | _, .root _ _ _ => []
  | _, .child up index _ _ => placeOf up ++ [index]

/-- The tree with another element at a place, and with the lengths and offsets of
all nodes above it computed again. -/
def putAt : List Nat → Stored → Stored → Stored
  | [], new, _ => new
  | i :: path, new, t => greenNodeAlloc t.kind (t.elements.modify i (putAt path new))

def subtree : List Nat → Stored → Option Stored
  | [], t => some t
  | i :: path, t => (t.elements[i]?).bind (subtree path)

section Alloc

theorem layOut_elements (n : Nat) (cs : List Stored) : (layOut n cs).1.map Prod.snd = cs := by
  induction cs generalizing n with
  | nil => rfl
  | cons c cs ih => simp [layOut, ih]

theorem layOut_total (n : Nat) (cs : List Stored) : (layOut n cs).2 = n + (cs.map Stored.textLen).sum := by
  induction cs generalizing n with
  | nil => rfl
  | cons c cs ih => simp [layOut, ih, Nat.add_assoc]

@[simp] theorem alloc_kind (k : SyntaxKind) (cs : List Stored) : (greenNodeAlloc k cs).kind = k := rfl

@[simp] theorem alloc_elements (k : SyntaxKind) (cs : List Stored) : (greenNodeAlloc k cs).elements = cs :=
  layOut_elements 0 cs

theorem storedAll_map (cs : List Green) : storedAll cs = cs.map stored := by
  induction cs with
  | nil => rfl
  | cons c cs ih => rw [storedAll, ih, List.map_cons]

@[simp] theorem stored_kind (g : Green) : (stored g).kind = g.kind := by
  cases g <;> rfl

@[simp] theorem stored_elements (g : Green) : (stored g).elements = g.children.map stored := by
  cases g with
  | token => rfl
  | node a k cs => rw [stored, alloc_elements, storedAll_map]; rfl

theorem stored_node (addr : Nat) (k : SyntaxKind) (cs : List Green) :
    stored (.node addr k cs) = greenNodeAlloc k (cs.map stored) := by
  rw [stored, storedAll_map]

theorem stored_alloc {g : Green} (hg : g.isToken = false) :
    greenNodeAlloc g.kind (g.children.map stored) = stored g := by
  cases g with
  | token => cases hg
  | node a k cs => exact (stored_node a k cs).symm

mutual

theorem stored_textLen : ∀ g : Green, (stored g).textLen = g.textLen
  | .token _ _ => rfl
  | .node _ k cs => by
      rw [stored]
      change (layOut 0 (storedAll cs)).2 = RedTree.textLenAll (Green.plainAll cs)
      rw [layOut_total, Nat.zero_add, storedAll_textLen cs]

theorem storedAll_textLen : ∀ cs : List Green,
    ((storedAll cs).map Stored.textLen).sum = RedTree.textLenAll (Green.plainAll cs)
  | [] => rfl
  | c :: cs => by
      rw [storedAll, List.map_cons, List.sum_cons, stored_textLen c, storedAll_textLen cs, Green.plainAll,
        RedTree.textLenAll]
      rfl

end

end Alloc

section BubbleUp

variable {g : Green}

theorem putAt_snoc {path : List Nat} {t s : Stored} (h : subtree path t = some s) (i : Nat) (new : Stored)
    (hi : i < s.elements.length) :
    putAt (path ++ [i]) new t = putAt path (greenNodeAlloc s.kind (s.elements.set i new)) t := by
  induction path generalizing t with
  | nil =>
      cases h
      simp [putAt, List.modify_eq_set_getElem?, hi]
  | cons j path ih =>
      rw [subtree] at h
      obtain ⟨u, hu, h⟩ := Option.bind_eq_some_iff.mp h
      rw [List.cons_append, putAt, putAt]
      congr 1
      obtain ⟨hj, rfl⟩ := List.getElem?_eq_some_iff.mp hu
      simp only [List.modify_eq_set_getElem?, hu, Option.map_eq_map, Option.map_some, ih h]

theorem subtree_snoc {path : List Nat} {t s : Stored} (h : subtree path t = some s) (i : Nat) :
    subtree (path ++ [i]) t = s.elements[i]? := by
  induction path generalizing t with
  | nil =>
      cases h
      simp [subtree]
  | cons j path ih =>
      rw [subtree] at h
      obtain ⟨u, hu, h⟩ := Option.bind_eq_some_iff.mp h
      rw [List.cons_append, subtree, hu, Option.bind_some, ih h]

theorem subtree_placeOf (n : Fixed g) : subtree (placeOf n) (stored (rootOf n)) = some (stored g) := by
  induction n with
  | root addr kind children => rfl
  | child up index green held ih =>
      rw [placeOf, rootOf, subtree_snoc ih, stored_elements, List.getElem?_map, held]
      rfl

theorem bubbleUp_putAt (n : Fixed g) (new : Stored) :
    bubbleUp n new = some (putAt (placeOf n) new (stored (rootOf n))) := by
  induction n generalizing new with
  | root addr kind children => rfl
  | @child parent up index green held ih =>
      have hindex : index < (stored parent).elements.length := by
        rw [stored_elements, List.length_map]
        exact (List.getElem?_eq_some_iff.mp held).1
      rw [bubbleUp, greenNodeReplaceChild, if_pos hindex, Option.bind_some, ih, placeOf, rootOf,
        putAt_snoc (subtree_placeOf up) index new hindex]

end BubbleUp

end Ore.PersistentEdits
