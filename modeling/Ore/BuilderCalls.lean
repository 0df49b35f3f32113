import Ore.GreenBuilderTrees
import Ore.Loop
import Ore.RedTree

namespace Ore.BuilderCalls

open SyntaxKinds GreenTree GreenCache GreenBuilder RedTree
open WorkspaceModel (Bytes)

/-- The calls of a client. It hands a checkpoint back by the number of the call that took
it. -/
inductive Call where
  | startNode (kind : SyntaxKind)
  | token (kind : SyntaxKind) (text : Bytes)
  | checkpoint
  | startNodeAt (taken : Nat) (kind : SyntaxKind)
  | finishNode
  deriving DecidableEq, Repr

/-- A builder with the capacities of its stacks, and the checkpoints it has handed out. -/
structure Client (α : Type) where
  builder : Builder α
  checkpoints : List Nat
  parentsCap : Nat
  childrenCap : Nat

def Client.new (α : Type) : Client α := ⟨greenBuilderNew α, [], 0, 0⟩

def growTurn (minCap newCap : Nat) : Nat ⊕ Nat := if newCap < minCap then .inl (newCap * 2 % 2 ^ 32) else .inr newCap

/-- The loops of grow_parents and grow_children. After 32 turns the capacity is zero for
good: the loop does not end. -/
def grow (initial cap minCap : Nat) : Option Nat :=
  if minCap ≤ cap then some cap else Loop.run (growTurn minCap) 33 (if cap = 0 then initial else cap)

namespace Client

variable {α : Type}

def op (s : Client α) : Call → Option BuilderOp
  | .startNode kind => some (.startNode kind)
  | .token kind text => some (.token kind text)
  | .checkpoint => none
  | .startNodeAt taken kind => s.checkpoints[taken]?.map (.startNodeAt · kind)
  | .finishNode => some .finishNode

/-- Room for what a call has pushed. -/
def grown (s : Client α) (b : Builder α) : Option (Client α) :=
  (grow 8 s.parentsCap b.parents.length).bind fun parentsCap =>
    (grow 16 s.childrenCap b.children.length).map fun childrenCap => ⟨b, s.checkpoints, parentsCap, childrenCap⟩

end Client

variable {η : Type} [DecidableEq η] (H : Hashing η)

def callStep (w : World η) (s : Client ElemRef) (addr : Nat) : Call → Option (World η × Client ElemRef)
  | .checkpoint => some (w, { s with checkpoints := s.checkpoints ++ [s.builder.children.length % 2 ^ 32] })
  | call => (s.op call).bind fun op => (builderStep H w s.builder addr op).bind fun (w, b) => (s.grown b).map (w, ·)

theorem callStep_of_ne {w : World η} {s : Client ElemRef} {addr : Nat} {call : Call} (hcall : call ≠ .checkpoint) :
    callStep H w s addr call =
      (s.op call).bind fun op => (builderStep H w s.builder addr op).bind fun (w, b) => (s.grown b).map (w, ·) := by
  cases call with
  | checkpoint => exact absurd rfl hcall
  | startNode | token | startNodeAt | finishNode => rfl

def runCalls : World η → Client ElemRef → List (Call × Nat) → Option (World η × Client ElemRef)
  | w, s, [] => some (w, s)
  | w, s, (call, addr) :: script => (callStep H w s addr call).bind fun (w, s) => runCalls w s script

/-- Every call of a script asks the cache for what is allowed to be asked. -/
def CallsMeet (ok : World η → Request → Prop) : World η → Client ElemRef → List (Call × Nat) → Prop
  | _, _, [] => True
  | w, s, (call, addr) :: script =>
      (∀ op ∈ s.op call, ∀ req ∈ opRequest s.builder addr op, ok w req) ∧
        ∀ next ∈ callStep H w s addr call, CallsMeet ok next.1 next.2 script

/-- What the calls say: the elements of the open node, those before it in each node around
it, innermost first, and for each checkpoint the elements that were there. -/
structure Nest where
  enclosing : List (List Green × SyntaxKind)
  current : List Green
  checkpoints : List (List Green)

def outer : List (List Green × SyntaxKind) → List Green
  | [] => []
  | (before, _) :: enclosing => outer enclosing ++ before

def Nest.elements (n : Nest) : List Green := outer n.enclosing ++ n.current

def Nest.start : Nest := ⟨[], [], []⟩

/-- A node that begins at a checkpoint takes over the elements of the open node since then:
what was there at the checkpoint is there still, up to a place in the open node. -/
inductive Nests : Nest → Call → Nest → Prop
  | startNode (enclosing : List (List Green × SyntaxKind)) (current : List Green) (checkpoints : List (List Green))
      (kind : SyntaxKind) :
      Nests ⟨enclosing, current, checkpoints⟩ (.startNode kind) ⟨(current, kind) :: enclosing, [], checkpoints⟩
  | token (enclosing : List (List Green × SyntaxKind)) (current : List Green) (checkpoints : List (List Green))
      (kind : SyntaxKind) (text : Bytes) :
      Nests ⟨enclosing, current, checkpoints⟩ (.token kind text)
        ⟨enclosing, current ++ [.token ⟨kind, text⟩], checkpoints⟩
  | checkpoint (enclosing : List (List Green × SyntaxKind)) (current : List Green) (checkpoints : List (List Green)) :
      Nests ⟨enclosing, current, checkpoints⟩ .checkpoint
        ⟨enclosing, current, checkpoints ++ [outer enclosing ++ current]⟩
  | startNodeAt {enclosing : List (List Green × SyntaxKind)} {before : List Green} (since : List Green)
      {checkpoints : List (List Green)} {taken : Nat} (kind : SyntaxKind)
      (htaken : checkpoints[taken]? = some (outer enclosing ++ before)) :
      Nests ⟨enclosing, before ++ since, checkpoints⟩ (.startNodeAt taken kind)
        ⟨(before, kind) :: enclosing, since, checkpoints⟩
  | finishNode (enclosing : List (List Green × SyntaxKind)) (before current : List Green)
      (checkpoints : List (List Green)) (kind : SyntaxKind) :
      Nests ⟨(before, kind) :: enclosing, current, checkpoints⟩ .finishNode
        ⟨enclosing, before ++ [.node kind current], checkpoints⟩

/-- Neither stack of the builder has more than 2^31 entries. -/
def Narrow (n : Nest) : Prop := n.enclosing.length ≤ 2 ^ 31 ∧ n.elements.length ≤ 2 ^ 31

instance (n : Nest) : Decidable (Narrow n) := inferInstanceAs (Decidable (_ ∧ _))

inductive Runs : Nest → List Call → Nest → Prop
  | nil (n : Nest) : Runs n [] n
  | cons {n n' n'' : Nest} {call : Call} {calls : List Call} (h : Nests n call n') (hnarrow : Narrow n')
      (hrest : Runs n' calls n'') : Runs n (call :: calls) n''

def tokensOf (calls : List Call) : List GreenToken :=
  calls.filterMap fun
    | .token kind text => some ⟨kind, text⟩
    | _ => none

variable {n n' n'' : Nest} {call : Call} {calls : List Call}

theorem Nests.unique (h : Nests n call n') (h' : Nests n call n'') : n' = n'' := by
  cases h with
  | startNode | token | checkpoint | finishNode =>
      cases h'
      rfl
  | startNodeAt since kind htaken =>
      generalize hcurrent : _ ++ since = current at h'
      cases h' with
      | startNodeAt since' _ htaken' =>
          rw [htaken, Option.some.injEq] at htaken'
          have hbefore := List.append_cancel_left htaken'
          subst hbefore
          rw [List.append_cancel_left hcurrent]

theorem Runs.unique (h : Runs n calls n') (h' : Runs n calls n'') : n' = n'' := by
  induction h with
  | nil n =>
      cases h'
      rfl
  | cons hnests _ _ ih =>
      cases h' with
      | cons hnests' _ hrest' =>
          rw [hnests.unique hnests'] at ih
          exact ih hrest'

theorem Nests.leaves (h : Nests n call n') :
    leavesAll n'.elements = leavesAll n.elements ++ tokensOf [call] := by
  cases h <;> simp [Nest.elements, outer, tokensOf, leavesAll, RedTree.leaves]

theorem Runs.leaves (h : Runs n calls n') : leavesAll n'.elements = leavesAll n.elements ++ tokensOf calls := by
  induction h with
  | nil n => simp [tokensOf]
  | cons hnests _ _ ih =>
      rw [ih, hnests.leaves, List.append_assoc]
      congr 1
      rw [tokensOf, tokensOf, tokensOf, ← List.filterMap_append]
      rfl

end Ore.BuilderCalls
