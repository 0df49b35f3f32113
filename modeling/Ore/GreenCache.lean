import Ore.GreenTree
import Ore.RefCounts

namespace Ore.GreenCache

open SyntaxKinds GreenTree RefCounts
open WorkspaceModel (Bytes)

def dedupMaxChildren : Nat := 32

/-- The tag and the pointer of a child. -/
inductive ElemRef where
  | node (addr : Nat)
  | token (addr : Nat)
  deriving DecidableEq, Repr

structure GreenElement where
  ref : ElemRef
  relOffset : Nat
  deriving DecidableEq, Repr

/-- A token or a node, without its reference count. -/
inductive GreenObj (η : Type) where
  | token (tok : GreenToken) (contentHash : η)
  | node (kind : SyntaxKind) (textLen : Nat) (contentHash : η) (children : List GreenElement)
  deriving DecidableEq

/-- The two hash functions, which may collide. -/
structure Hashing (η : Type) where
  token : SyntaxKind → Bytes → η
  node : SyntaxKind → List ElemRef → η

variable {η : Type}

namespace GreenObj

def refs : GreenObj η → List ElemRef
  | .token _ _ => []
  | .node _ _ _ children => children.map (·.ref)

def len : GreenObj η → Nat
  | .token tok _ => tok.text.length
  | .node _ textLen _ _ => textLen

end GreenObj

abbrev GreenStore (η : Type) := RefCounts.Store ElemRef (GreenObj η)

/-- The green objects, and how many the allocator has handed out. -/
structure Heap (η : Type) where
  store : GreenStore η
  allocs : Nat

/-- Reference counts are 32-bit. Following a dangling pointer is `none`. -/
def greenRetain (s : GreenStore η) (r : ElemRef) : Option (GreenStore η) :=
  (s.obj r).map fun _ => { s with count := Function.update s.count r ((s.count r + 1) % 2 ^ 32) }

/-- The cascade goes down through objects of different ages. -/
def greenRelease (h : Heap η) (r : ElemRef) : Option (Heap η) :=
  (release GreenObj.refs h.allocs h.store r).map fun s => { h with store := s }

/-- The children with their offsets, and the length of the whole. -/
def placeChildren (s : GreenStore η) : Nat → List ElemRef → Option (List GreenElement × Nat)
  | textLen, [] => some ([], textLen)
  | textLen, r :: rs =>
      (s.obj r).bind fun o => (placeChildren s ((textLen + o.len) % 2 ^ 32) rs).map fun (children, total) =>
        (⟨r, textLen⟩ :: children, total)

variable (H : Hashing η)

def greenNodeAlloc (h : Heap η) (addr : Nat) (kind : SyntaxKind) (children : List ElemRef) : Option (Heap η) :=
  (placeChildren h.store 0 children).bind fun (placed, textLen) =>
    (children.foldlM greenRetain h.store).map fun s =>
      ⟨⟨Function.update s.obj (.node addr) (some (.node kind textLen (H.node kind children) placed)),
        Function.update s.count (.node addr) 1⟩, h.allocs + 1⟩

def greenTokenAlloc (h : Heap η) (addr : Nat) (kind : SyntaxKind) (text : Bytes) : Heap η :=
  ⟨⟨Function.update h.store.obj (.token addr) (some (.token ⟨kind, text⟩ (H.token kind text))),
    Function.update h.store.count (.token addr) 1⟩, h.allocs + 1⟩

def greenTokenEquals (s : GreenStore η) (kind : SyntaxKind) (text : Bytes) (a : Nat) : Bool :=
  match s.obj (.token a) with
  | some (.token tok _) => tok.kind = kind && tok.text = text
  | _ => false

def greenNodeEquals (s : GreenStore η) (kind : SyntaxKind) (children : List ElemRef) (a : Nat) : Bool :=
  match s.obj (.node a) with
  | some (.node k _ _ cs) => k = kind && cs.map (·.ref) = children
  | _ => false

/-- The buckets, newest first. -/
structure NodeCache (η : Type) where
  nodes : η → List Nat
  tokens : η → List Nat

def nodeCacheNew : NodeCache η := ⟨fun _ => [], fun _ => []⟩

variable [DecidableEq η]

def nodeCacheInternToken (h : Heap η) (c : NodeCache η) (addr : Nat) (kind : SyntaxKind) (text : Bytes) :
    Option (Heap η × NodeCache η × Nat) :=
  let hash := H.token kind text
  match (c.tokens hash).find? (greenTokenEquals h.store kind text) with
  | some a => (greenRetain h.store (.token a)).map fun s => ({ h with store := s }, c, a)
  | none =>
      let h := greenTokenAlloc H h addr kind text
      (greenRetain h.store (.token addr)).map fun s =>
        ({ h with store := s }, { c with tokens := Function.update c.tokens hash (addr :: c.tokens hash) }, addr)

def nodeCacheInternNode (h : Heap η) (c : NodeCache η) (addr : Nat) (kind : SyntaxKind) (children : List ElemRef) :
    Option (Heap η × NodeCache η × Nat) :=
  if children.length > dedupMaxChildren then (greenNodeAlloc H h addr kind children).map fun h => (h, c, addr)
  else
    let hash := H.node kind children
    match (c.nodes hash).find? (greenNodeEquals h.store kind children) with
    | some a => (greenRetain h.store (.node a)).map fun s => ({ h with store := s }, c, a)
    | none =>
        (greenNodeAlloc H h addr kind children).bind fun h =>
          (greenRetain h.store (.node addr)).map fun s =>
            ({ h with store := s }, { c with nodes := Function.update c.nodes hash (addr :: c.nodes hash) }, addr)

/-- The heap, one cache over it, and the references that its clients hold. -/
structure World (η : Type) where
  heap : Heap η
  cache : NodeCache η
  owned : List ElemRef

def World.start : World η := ⟨⟨⟨fun _ => none, fun _ => 0⟩, 0⟩, nodeCacheNew, []⟩

/-- Requests of the clients; the address is the one that the allocator hands
out if it is asked. -/
inductive Request where
  | token (addr : Nat) (kind : SyntaxKind) (text : Bytes)
  | node (addr : Nat) (kind : SyntaxKind) (children : List ElemRef)
  | retain (ref : ElemRef)
  | release (ref : ElemRef)
  deriving DecidableEq, Repr

def step (w : World η) : Request → Option (World η × Option ElemRef)
  | .token addr kind text => (nodeCacheInternToken H w.heap w.cache addr kind text).map fun (h, c, a) =>
      (⟨h, c, .token a :: w.owned⟩, some (.token a))
  | .node addr kind children => (nodeCacheInternNode H w.heap w.cache addr kind children).map fun (h, c, a) =>
      (⟨h, c, .node a :: w.owned⟩, some (.node a))
  | .retain r => (greenRetain w.heap.store r).map fun s => (⟨{ w.heap with store := s }, w.cache, r :: w.owned⟩, none)
  | .release r => (greenRelease w.heap r).map fun h => (⟨h, w.cache, w.owned.erase r⟩, none)

/-- Clients give up what they hold and build on it, and retain what is there;
the allocator hands out what is not in use. -/
def Allowed (w : World η) : Request → Prop
  | .token addr _ _ => w.heap.store.obj (.token addr) = none
  | .node addr _ children => w.heap.store.obj (.node addr) = none ∧ ∀ c ∈ children, c ∈ w.owned
  | .retain r => (w.heap.store.obj r).isSome
  | .release r => r ∈ w.owned

/-- No reference count is raised to its limit: that of the object found, or
those of the children of a new node. -/
def Room (w : World η) : Request → Prop
  | .token _ kind text => ∀ a, greenTokenEquals w.heap.store kind text a = true →
        w.heap.store.count (.token a) + 1 < 2 ^ 32
  | .node _ kind children =>
      (children.length ≤ dedupMaxChildren →
        ∀ a, greenNodeEquals w.heap.store kind children a = true → w.heap.store.count (.node a) + 1 < 2 ^ 32) ∧
      ((children.length ≤ dedupMaxChildren → ∀ a, greenNodeEquals w.heap.store kind children a = false) →
        ∀ c ∈ children, w.heap.store.count c + children.count c < 2 ^ 32)
  | .retain r => w.heap.store.count r + 1 < 2 ^ 32
  | .release _ => True

inductive Later (ok : World η → Request → Prop) (w : World η) : World η → Prop
  | refl : Later ok w w
  | step {w' w'' : World η} {req : Request} {answer : Option ElemRef} (h : Later ok w w') (hok : ok w' req)
      (hstep : step H w' req = some (w'', answer)) : Later ok w w''

end Ore.GreenCache
