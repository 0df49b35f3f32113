import Ore.EffectRowUnion

namespace Ore.EffectInference

open EffectRows

/-- What the walk over a body does with effect rows: a call that is evaluated adds the row
of the callee, two function types that meet have their rows unified, a lambda is typed
apart from its surroundings, and a handler discharges the row of its action, which may be
evaluated again among its surroundings. -/
inductive Event where
  | call (row : Row)
  | coerce (actual expected : Row)
  | lambda (body : List Event)
  | handle (action again : List Event) (effect : Row) (tail : Nat)

structure Walk where
  subst : RowSubst
  row : Row

def addRow (depth : Nat) (w : Walk) (row : Row) : Option Walk :=
  (rowUnion depth w.subst w.row row).map fun (merged, σ) =>
    ⟨σ, if merged = .none ∧ w.row ≠ .none ∧ row ≠ .none then .error else merged⟩

/-- The row of a handler's action parameter, with the tail it shares with the result. -/
def handlerRow (σ : RowSubst) (effect : Row) (tail : Nat) : Row :=
  if effect = .error then .error
  else if effect = .none ∨ effect = .empty then .var tail
  else
    let ef := rowFlatten σ effect
    if ef.isRow then rowIntern ef.labels (.var tail) else .var tail

/-- Unifies the row of the action with the handler's, and reads off the shared tail. -/
def discharge (depth : Nat) (σ : RowSubst) (actionRow hEffect : Row) (tail : Nat) : Option (Row × RowSubst) :=
  (rowUnify σ depth actionRow hEffect).map fun (_, σ) => (rowFlatten σ (.var tail), σ)

mutual

def step (depth : Nat) (w : Walk) : Event → Option Walk
  | .call row => if row = .none ∨ row = .error then some w else addRow depth w row
  | .coerce actual expected =>
    if actual = .error ∨ expected = .error ∨ actual = expected then some w
    else (rowUnify w.subst depth actual expected).map fun (_, σ) => { w with subst := σ }
  | .lambda body => do
    let (_, σ) ← isolated depth w.subst body
    return { w with subst := σ }
  | .handle action again effect tail => do
    let hEffect := handlerRow w.subst effect tail
    let (actionRow, σ) ← isolated depth w.subst action
    let w ← walk depth { w with subst := σ } again
    if hEffect = .error then return w
    else
      let (residual, σ) ← discharge depth w.subst actionRow hEffect tail
      addRow depth { w with subst := σ } residual

def isolated (depth : Nat) (σ : RowSubst) (events : List Event) : Option (Row × RowSubst) := do
  let w ← walk depth ⟨σ, .empty⟩ events
  return (rowFlatten w.subst w.row, w.subst)

def walk (depth : Nat) (w : Walk) : List Event → Option Walk
  | [] => some w
  | e :: es => do
    let w ← step depth w e
    walk depth w es

end

/-- The check of an annotated function's body row against the declared one. -/
def effectGate (depth : Nat) (w : Walk) (declared : Row) : Option (Bool × RowSubst) :=
  if declared = .error then some (true, w.subst)
  else do
    let σ ← groundUnboundRowVars depth w.subst w.row
    let resolvedBody := rowFlatten σ w.row
    let resolvedDecl := rowFlatten σ declared
    if resolvedBody = .error then return (true, σ)
    else rowUnify σ depth resolvedBody resolvedDecl

/-- The recorded row is grounded after the substitution is freed. -/
def inferredRow (depth : Nat) (row : Row) : Option Row :=
  (groundUnboundRowVars depth none row).map fun σ => rowDedup σ row

structure Inferred where
  accepted : Bool
  row : Row

def inferBody (depth : Nat) (declared : Option Row) (events : List Event) : Option Inferred := do
  let w ← walk depth ⟨none, .empty⟩ events
  let accepted ← match declared with
    | some row => (effectGate depth w row).map Prod.fst
    | none => some true
  let row ← inferredRow depth w.row
  return ⟨accepted, row⟩

end Ore.EffectInference
