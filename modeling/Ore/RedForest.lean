import Ore.RedTree

namespace Ore.RedForest

open SyntaxKinds
open GreenTree (GreenToken)

/-- Green elements as the red tree sees them: an address and what is stored there. -/
inductive Green where
  | token (addr : Nat) (tok : GreenToken)
  | node (addr : Nat) (kind : SyntaxKind) (children : List Green)

namespace Green

def addr : Green → Nat
  | .token a _ | .node a _ _ => a

def kind : Green → SyntaxKind
  | .token _ tok => tok.kind
  | .node _ k _ => k

def children : Green → List Green
  | .token _ _ => []
  | .node _ _ cs => cs

def isToken : Green → Bool
  | .token _ _ => true
  | .node _ _ _ => false

mutual

/-- The element without its addresses. -/
def plain : Green → GreenTree.Green
  | .token _ tok => .token tok
  | .node _ k cs => .node k (plainAll cs)

def plainAll : List Green → List GreenTree.Green
  | [] => []
  | c :: cs => plain c :: plainAll cs

end

def textLen (g : Green) : Nat := RedTree.textLen g.plain

def leaves (g : Green) : List GreenToken := RedTree.leaves g.plain

/-- The offset of the child at `i` within its node. -/
def relOffset (g : Green) (i : Nat) : Nat := RedTree.textLenAll (plainAll (g.children.take i))

end Green

/-- A mutable SyntaxNode or SyntaxToken. `key` and `first` are its entry in the
ring of its parent and the ring of its own children, the head in front. -/
structure Cell where
  refcount : Nat
  parent : Option Nat
  index : Nat
  green : Green
  key : Nat
  first : List Nat

/-- The live handles at their addresses. `next` and `nextGreen` are the next
addresses the allocator answers with. -/
structure Forest where
  cells : Nat → Option Cell
  next : Nat
  nextGreen : Nat

namespace Forest

def modify (f : Forest) (c : Nat) (change : Cell → Cell) : Forest :=
  { f with cells := fun d => if d = c then (f.cells d).map change else f.cells d }

def erase (f : Forest) (c : Nat) : Forest :=
  { f with cells := fun d => if d = c then none else f.cells d }

def keyOf (f : Forest) (c : Nat) : Nat := ((f.cells c).map Cell.key).getD 0

def alloc (f : Forest) (x : Cell) : Nat × Forest :=
  (f.next, { f with cells := fun d => if d = f.next then some x else f.cells d, next := f.next + 1 })

end Forest

section Green

def greenNodeAlloc (f : Forest) (kind : SyntaxKind) (children : List Green) : Green × Forest :=
  (.node f.nextGreen kind children, { f with nextGreen := f.nextGreen + 1 })

def greenNodeReplaceChild (f : Forest) (n : Green) (idx : Nat) (newChild : Green) : Option (Green × Forest) :=
  if idx < n.children.length then some (greenNodeAlloc f n.kind (n.children.set idx newChild)) else none

def greenNodeSpliceChildren (f : Forest) (n : Green) (start stop : Nat) (replace : List Green) :
    Option (Green × Forest) :=
  if start ≤ stop ∧ stop ≤ n.children.length then
    some (greenNodeAlloc f n.kind (n.children.take start ++ replace ++ n.children.drop stop))
  else none

end Green

section Ring

/-- Where an element with a given key goes. -/
inductive SllAdd where
  | emptyHead
  | smallerThanHead
  | smallerThanNotHead (curr : Nat)
  | alreadyInSll (curr : Nat)

/-- The walk backward from the largest element. -/
def sllWalk (f : Forest) (key : Nat) : List Nat → Option SllAdd
  | [] => none
  | curr :: rest =>
    if f.keyOf curr < key then some (.smallerThanNotHead curr)
    else if f.keyOf curr = key then some (.alreadyInSll curr)
    else sllWalk f key rest

def sllLink (f : Forest) (ring : List Nat) (key : Nat) : Option SllAdd :=
  match ring with
  | [] => some .emptyHead
  | head :: _ => if key < f.keyOf head then some .smallerThanHead else sllWalk f key ring.reverse

def insertAfter (curr elem : Nat) : List Nat → List Nat
  | [] => []
  | c :: cs => if c = curr then c :: elem :: cs else c :: insertAfter curr elem cs

def sllAdd (ring : List Nat) (elem : Nat) : SllAdd → List Nat
  | .emptyHead => [elem]
  | .smallerThanHead => elem :: ring
  | .smallerThanNotHead curr => insertAfter curr elem ring
  | .alreadyInSll _ => ring

def sllUnlink (ring : List Nat) (elem : Nat) : List Nat := ring.erase elem

def sllAdjustAndSync (f : Forest) (ring : List Nat) (start : Nat) (shift : Nat → Nat) : Forest :=
  { f with cells := fun c => if c ∈ ring then (f.cells c).map fun x =>
      let key := if start ≤ x.key then shift x.key else x.key
      { x with key := key, index := key } else f.cells c }

end Ring

/-- A root handle, as for a mutable tree. -/
def newRoot (f : Forest) (green : Green) : Nat × Forest := f.alloc ⟨1, none, 0, green, 0, []⟩

/-- The handle of a child: the live one, or a new one linked into the ring. A
failed assertion is `none`. -/
def childAt (f : Forest) (parent : Nat) (green : Green) (index : Nat) : Option (Nat × Forest) :=
  match f.cells parent with
  | none => none
  | some px => match sllLink f px.first index with
    | none => none
    | some (.alreadyInSll d) => match f.cells d with
      | none => none
      | some x =>
        if x.green.addr = green.addr then some (d, f.modify d fun x => { x with refcount := x.refcount + 1 })
        else none
    | some r =>
      let (n, f) := f.alloc ⟨1, some parent, index, green, index, []⟩
      some (n, f.modify parent fun px =>
        { px with refcount := px.refcount + 1, first := sllAdd px.first n r })

def childOrToken (f : Forest) (parent i : Nat) : Option (Nat × Forest) :=
  match f.cells parent with
  | none => none
  | some px => match px.green.children[i]? with
    | none => none
    | some green => childAt f parent green i

def retain (f : Forest) (c : Nat) : Forest := f.modify c fun x => { x with refcount := x.refcount + 1 }

/-- `depth` bounds the walks up to a root, here and below, `none` when it is used up. -/
def release : Nat → Forest → Nat → Option Forest
  | 0, _, _ => none
  | depth + 1, f, c => match f.cells c with
    | none => none
    | some x =>
      if x.refcount = 0 then none
      else if 1 < x.refcount then some (f.modify c fun x => { x with refcount := x.refcount - 1 })
      else if x.first ≠ [] then none
      else match x.parent with
        | none => some (f.erase c)
        | some p =>
          release depth ((f.modify p fun px => { px with first := sllUnlink px.first c }).erase c) p

/-- An immutable handle: the chain of parents down from a root. -/
inductive Fixed : Green → Type
  | root (addr : Nat) (kind : SyntaxKind) (children : List Green) : Fixed (.node addr kind children)
  | child {parent : Green} (up : Fixed parent) (index : Nat) (green : Green)
      (held : parent.children[index]? = some green) : Fixed green

def cloneForUpdate (depth : Nat) : {g : Green} → Fixed g → Forest → Option (Nat × Forest)
  | _, .root addr kind children, f => some (newRoot f (.node addr kind children))
  | _, .child up index green _, f =>
    (cloneForUpdate depth up f).bind fun (parent, f) =>
      (childAt f parent green index).bind fun (clone, f) =>
        (release depth f parent).map fun f => (clone, f)

/-- Walks up from a node whose green element becomes `newGreen`. -/
def respine : Nat → Forest → Nat → Green → Option Forest
  | 0, _, _, _ => none
  | depth + 1, f, cur, newGreen => match f.cells cur with
    | none => none
    | some x =>
      let f := f.modify cur fun x => { x with green := newGreen }
      match x.parent with
      | none => some f
      | some p => match f.cells p with
        | none => none
        | some px =>
          (greenNodeReplaceChild f px.green x.index newGreen).bind fun (up, f) => respine depth f p up

def detachCommon (depth : Nat) (f : Forest) (node : Nat) : Option Forest :=
  match f.cells node with
  | none => none
  | some x => match x.parent with
    | none => some f
    | some p => match f.cells p with
      | none => none
      | some px =>
        let f := sllAdjustAndSync f px.first (x.index + 1) (· - 1)
        let f := f.modify p fun px => { px with first := sllUnlink px.first node }
        (greenNodeSpliceChildren f px.green x.index (x.index + 1) []).bind fun (green, f) =>
          (respine depth f p green).bind fun f =>
            release depth (f.modify node fun x => { x with parent := none }) p

def attachChild (depth : Nat) (f : Forest) (parent index child : Nat) : Option Forest :=
  match f.cells parent, f.cells child with
  | some px, some x =>
    if x.parent = none ∧ index ≤ px.green.children.length then
      let f := f.modify child fun x => { x with parent := some parent, index := index, key := index }
      let f := f.modify parent fun px => { px with refcount := px.refcount + 1 }
      let f := sllAdjustAndSync f px.first index (· + 1)
      match sllLink f px.first index with
      | none | some (.alreadyInSll _) => none
      | some r =>
        let f := f.modify parent fun px => { px with first := sllAdd px.first child r }
        (greenNodeSpliceChildren f px.green index index [x.green]).bind fun (green, f) =>
          respine depth f parent green
    else none
  | _, _ => none

def snapshot (f : Forest) (parent start : Nat) : Nat → Option (List Nat × Forest)
  | 0 => some ([], f)
  | count + 1 =>
    (childOrToken f parent start).bind fun (c, f) =>
      (snapshot f parent (start + 1) count).map fun (cs, f) => (c :: cs, f)

def detachAll (depth : Nat) (f : Forest) (nodes : List Nat) : Option Forest :=
  nodes.foldlM (detachCommon depth) f

def releaseAll (depth : Nat) (f : Forest) (nodes : List Nat) : Option Forest :=
  nodes.foldlM (release depth) f

def attachAll (depth : Nat) (f : Forest) (parent : Nat) : Nat → List Nat → Option Forest
  | _, [] => some f
  | index, c :: cs => (attachChild depth f parent index c).bind fun f => attachAll depth f parent (index + 1) cs

def syntaxNodeSpliceChildren (depth : Nat) (f : Forest) (parent start stop : Nat) (replace : List Nat) :
    Option Forest :=
  match f.cells parent with
  | none => none
  | some px =>
    if start ≤ stop ∧ stop ≤ px.green.children.length then
      (snapshot f parent start (stop - start)).bind fun (nodes, f) =>
        (detachAll depth f nodes.reverse).bind fun f =>
          (releaseAll depth f nodes).bind fun f => attachAll depth f parent start replace
    else none

/-- The green element at the root above a handle. -/
def rootGreen : Nat → Forest → Nat → Option Green
  | 0, _, _ => none
  | depth + 1, f, c => (f.cells c).bind fun x => match x.parent with
    | none => some x.green
    | some p => rootGreen depth f p

def syntaxNodeReplaceWith (depth : Nat) (f : Forest) (node : Nat) (replacement : Green) :
    Option (Green × Forest) :=
  match f.cells node with
  | none => none
  | some x =>
    if replacement.kind = x.green.kind then
      (respine depth f node replacement).bind fun f => (rootGreen depth f node).map fun g => (g, f)
    else none

def syntaxTokenReplaceWith (depth : Nat) (f : Forest) (tok : Nat) (replacement : Green) :
    Option (Green × Forest) :=
  match f.cells tok with
  | none => none
  | some x => match x.parent with
    | none => none
    | some p => match f.cells p with
      | none => none
      | some px =>
        if replacement.kind = x.green.kind then
          (greenNodeReplaceChild f px.green x.index replacement).bind fun (green, f) =>
            (respine depth f p green).bind fun f => (rootGreen depth f p).map fun g => (g, f)
        else none

/-- The absolute offset of a handle: the relative offsets on the way up. A
detached token fails the assertion that tokens have a parent. -/
def nodeAbsOffset : Nat → Forest → Nat → Option Nat
  | 0, _, _ => none
  | depth + 1, f, c => (f.cells c).bind fun x => match x.parent with
    | none => some 0
    | some p => (f.cells p).bind fun px => (nodeAbsOffset depth f p).map (px.green.relOffset x.index + ·)

def absOffset (depth : Nat) (f : Forest) (c : Nat) : Option Nat :=
  (f.cells c).bind fun x => if x.green.isToken ∧ x.parent = none then none else nodeAbsOffset depth f c

end Ore.RedForest
