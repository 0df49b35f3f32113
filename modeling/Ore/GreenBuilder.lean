import Ore.GreenCacheCanonical

namespace Ore.GreenBuilder

open SyntaxKinds GreenTree GreenCache GreenCacheSteps GreenDenotes GreenCacheCanonical
open WorkspaceModel (Bytes)

/-- The open nodes, innermost first, each with the place where its children
begin, and the elements so far. -/
structure Builder (α : Type) where
  parents : List (SyntaxKind × Nat)
  children : List α
  deriving Repr

/-- The calls of a parser. -/
inductive BuilderOp where
  | startNode (kind : SyntaxKind)
  | token (kind : SyntaxKind) (text : Bytes)
  | startNodeAt (checkpoint : Nat) (kind : SyntaxKind)
  | finishNode
  deriving DecidableEq, Repr

def greenBuilderNew (α : Type) : Builder α := ⟨[], []⟩

namespace Builder

variable {α : Type}

def startNode (b : Builder α) (kind : SyntaxKind) : Builder α :=
    { b with parents := (kind, b.children.length) :: b.parents }

def startNodeAt (b : Builder α) (checkpoint : Nat) (kind : SyntaxKind) : Option (Builder α) :=
  if checkpoint ≤ b.children.length then some { b with parents := (kind, checkpoint) :: b.parents } else none

def push (b : Builder α) (e : α) : Builder α := { b with children := b.children ++ [e] }

/-- The innermost node, its children, and what is left without them. -/
def popFrame (b : Builder α) : Option (SyntaxKind × List α × Builder α) :=
  match b.parents with
  | [] => none
  | (kind, first) :: parents =>
      if first ≤ b.children.length then some (kind, b.children.drop first, ⟨parents, b.children.take first⟩) else none

/-- The root, once every node is closed. -/
def finish (b : Builder α) : Option α :=
  match b.parents, b.children with
  | [], [root] => some root
  | _, _ => none

theorem finish_eq_some {b : Builder α} {root : α} : b.finish = some root ↔ b.parents = [] ∧ b.children = [root] := by
  rcases b with ⟨_ | ⟨_, _⟩, _ | ⟨_, _ | ⟨_, _⟩⟩⟩ <;> simp [finish]

end Builder

/-- The calls on trees, without sharing. -/
def buildTree (b : Builder Green) : BuilderOp → Option (Builder Green)
  | .startNode kind => some (b.startNode kind)
  | .token kind text => some (b.push (.token ⟨kind, text⟩))
  | .startNodeAt checkpoint kind => b.startNodeAt checkpoint kind
  | .finishNode => b.popFrame.map fun (kind, children, b) => b.push (.node kind children)

def isNode : Green → Bool
  | .node _ _ => true
  | .token _ => false

def treeOf (script : List BuilderOp) : Option Green :=
  ((script.foldlM buildTree (greenBuilderNew Green)).bind Builder.finish).filter isNode

variable {η : Type} [DecidableEq η] (H : Hashing η)

def releaseAll (w : World η) (refs : List ElemRef) : Option (World η) :=
  refs.foldlM (fun w r => (step H w (.release r)).map (·.1)) w

/-- The calls on the cache; the address is for the object that a call may
allocate. -/
def builderStep (w : World η) (b : Builder ElemRef) (addr : Nat) : BuilderOp → Option (World η × Builder ElemRef)
  | .startNode kind => some (w, b.startNode kind)
  | .token kind text => (step H w (.token addr kind text)).bind fun (w, answer) => answer.map fun r => (w, b.push r)
  | .startNodeAt checkpoint kind => (b.startNodeAt checkpoint kind).map fun b => (w, b)
  | .finishNode => b.popFrame.bind fun (kind, children, b) =>
      (step H w (.node addr kind children)).bind fun (w, answer) => answer.bind fun r =>
        (releaseAll H w children).map fun w => (w, b.push r)

def buildAll : World η → Builder ElemRef → List (BuilderOp × Nat) → Option (World η × Builder ElemRef)
  | w, b, [] => some (w, b)
  | w, b, (op, addr) :: script => (builderStep H w b addr op).bind fun (w, b) => buildAll w b script

/-- What a call asks of the cache. -/
def opRequest (b : Builder ElemRef) (addr : Nat) : BuilderOp → Option Request
  | .token kind text => some (.token addr kind text)
  | .finishNode => b.popFrame.map fun (kind, children, _) => .node addr kind children
  | _ => none

/-- Every call of a script asks for what is allowed to be asked. -/
def ScriptMeets (ok : World η → Request → Prop) : World η → Builder ElemRef → List (BuilderOp × Nat) → Prop
  | _, _, [] => True
  | w, b, (op, addr) :: script =>
      (∀ req ∈ opRequest b addr op, ok w req) ∧
        ∀ s ∈ builderStep H w b addr op, ScriptMeets ok s.1 s.2 script

end Ore.GreenBuilder
