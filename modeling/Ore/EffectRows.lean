import Mathlib.Data.List.Sort
import Mathlib.Data.List.Destutter

namespace Ore.EffectRows

/-- What the row functions read of an interned index. Labels are the DefIds
of effects; `empty` is the reserved closed row whose tail is itself. -/
inductive Row where
  | none
  | error
  | type (id : Nat)
  | var (id : Nat)
  | empty
  | row (labels : List Nat) (tail : Row)
  deriving DecidableEq

namespace Row

def isRow : Row → Bool
  | .empty | .row _ _ => true
  | _ => false

def labels : Row → List Nat
  | .row ls _ => ls
  | _ => []

def tail : Row → Row
  | .row _ t => t
  | _ => .empty

def varId : Row → Option Nat
  | .var i => some i
  | _ => .none

end Row

/-- One index for equal keys: a missing tail is read as the empty row. -/
def rowIntern (labels : List Nat) : Row → Row
  | .none | .empty => if labels = [] then .empty else .row labels .empty
  | tail => .row labels tail

/-- The row substitution of a body; `none` before the first binding. -/
abbrev RowSubst := Option (List (Nat × Row))

/-- A binding to IP_NONE is stored as the null pointer and reads as unbound. -/
def binding (σ : RowSubst) (id : Nat) : Option Row :=
  match (σ.getD []).lookup id with
  | some .none => none
  | r => r

def substBind (σ : RowSubst) (id : Nat) (bound : Row) : RowSubst :=
  some ((id, bound) :: σ.getD [])

def chase (σ : RowSubst) : Nat → Row → Row
  | 0, idx => idx
  | hops + 1, .var id => match binding σ id with
    | none => .var id
    | some bound => chase σ hops bound
  | _ + 1, idx => idx

def rowResolve (σ : RowSubst) (idx : Row) : Row := chase σ 64 idx

structure Spliced where
  labels : List Nat
  tail : Row
  changed : Bool

def splice (σ : RowSubst) : Nat → Row → List Nat → Bool → Spliced
  | 0, _, buf, changed => ⟨buf, .empty, changed⟩
  | hops + 1, cur, buf, changed =>
    let t := rowResolve σ cur.tail
    let moved := changed || t != cur.tail
    if t = .empty then ⟨buf ++ cur.labels, .empty, moved⟩
    else if t.isRow then splice σ hops t (buf ++ cur.labels) true
    else ⟨buf ++ cur.labels, t, moved⟩

def rowFlatten (σ : RowSubst) (idx : Row) : Row :=
  if σ = none then idx
  else
    let idx := rowResolve σ idx
    if idx.isRow then
      let s := splice σ 64 idx [] false
      if s.changed then rowIntern (s.labels.insertionSort (· ≤ ·)) s.tail else idx
    else idx

def occursInRow (σ : RowSubst) (id : Nat) : Nat → Row → Bool
  | 0, _ => true
  | hops + 1, row => match row with
    | .none | .empty => false
    | .var i =>
      if i = id then true
      else match binding σ i with
        | none => false
        | some next => if next = row then false else occursInRow σ id hops next
    | .row _ tail =>
      let next := rowResolve σ tail
      if next = row then false else occursInRow σ id hops next
    | _ => false

def rowWithout (σ : RowSubst) (row : Row) (label : Nat) : Row :=
  if row = .none then .none
  else
    let row := rowFlatten σ row
    if row.isRow && label ∈ row.labels then rowIntern (row.labels.erase label) row.tail else row

/-- The label lists behind their common positional part. -/
def unmatched : List Nat → List Nat → List Nat × List Nat
  | x :: xs, y :: ys => if x = y then unmatched xs ys else (x :: xs, y :: ys)
  | xs, ys => (xs, ys)

def bindChecked (σ : RowSubst) (id : Nat) (row : Row) : Bool × RowSubst :=
  if occursInRow σ id 256 row then (false, σ) else (true, substBind σ id row)

/-- The branches for labels left over on at least one side. -/
def unifyLeftover (σ : RowSubst) (restA restB : List Nat) (aTail bTail : Row) : Bool × RowSubst :=
  match (if restA = [] then aTail.varId else none), (if restB = [] then bTail.varId else none),
      bTail.varId with
  | some i, _, _ => (true, substBind σ i (rowIntern restB bTail))
  | none, some j, _ => (true, substBind σ j (rowIntern restA aTail))
  | none, none, some j => bindChecked σ j (restB.foldl (rowWithout σ) (rowIntern restA aTail))
  | none, none, none => (false, σ)

/-- `depth` bounds the calls on tails, `none` when it is used up. -/
def rowUnify (σ : RowSubst) : Nat → Row → Row → Option (Bool × RowSubst)
  | 0, _, _ => none
  | depth + 1, a, b =>
    let a := rowFlatten σ a
    let b := rowFlatten σ b
    if a = b then some (true, σ)
    else match a.varId, b.varId with
    | some i, _ => some (bindChecked σ i b)
    | none, some j => some (bindChecked σ j a)
    | none, none =>
      if a.isRow && b.isRow then
        let rest := unmatched a.labels b.labels
        let aTail := rowResolve σ a.tail
        let bTail := rowResolve σ b.tail
        if rest.1 = [] ∧ rest.2 = [] then rowUnify σ depth aTail bTail
        else some (unifyLeftover σ rest.1 rest.2 aTail bTail)
      else some (false, σ)

/-- The turns of the merge that take from the second list, up to the one
that takes `x`. -/
def mergeAt (x : Nat) (rest : List Nat → List Nat) : List Nat → List Nat
  | [] => x :: rest []
  | y :: ys => if x ≤ y then x :: rest (y :: ys) else y :: mergeAt x rest ys

def mergeLabels : List Nat → List Nat → List Nat
  | [], ys => ys
  | x :: xs, ys => mergeAt x (mergeLabels xs) ys

def rowUnion (depth : Nat) (σ : RowSubst) (a b : Row) : Option (Row × RowSubst) :=
  if a = .none ∨ b = .none then some (.none, σ)
  else
    let a := rowFlatten σ a
    let b := rowFlatten σ b
    if a = .error ∨ b = .error then some (.error, σ)
    else if a = b then some (a, σ)
    else if a = .empty then some (b, σ)
    else if b = .empty then some (a, σ)
    else match a.varId, b.varId with
    | some _, _ => (rowUnify σ depth a b).map fun r => (if r.1 then b else .none, r.2)
    | none, some _ => (rowUnify σ depth b a).map fun r => (if r.1 then a else .none, r.2)
    | none, none =>
      if a.isRow && b.isRow then
        let out := mergeLabels a.labels b.labels
        let aTail := rowResolve σ a.tail
        let bTail := rowResolve σ b.tail
        if aTail = .empty then some (rowIntern out bTail, σ)
        else if bTail = .empty then some (rowIntern out aTail, σ)
        else (rowUnify σ depth aTail bTail).map fun r =>
          if r.1 then (rowIntern out (rowResolve r.2 aTail), r.2) else (.none, r.2)
      else some (.none, σ)

/-- Sorted labels without repetition. -/
def uniq (labels : List Nat) : List Nat := labels.destutter (· ≠ ·)

def rowDedup (σ : RowSubst) (r : Row) : Row :=
  let r := rowFlatten σ r
  if r.isRow && (uniq r.labels).length ≠ r.labels.length then rowIntern (uniq r.labels) r.tail
  else r

/-- `depth` bounds the calls on tails. -/
def groundUnboundRowVars : Nat → RowSubst → Row → Option RowSubst
  | 0, _, _ => none
  | depth + 1, σ, r =>
    if r = .none ∨ r = .empty then some σ
    else
      let resolved := rowResolve σ r
      match resolved with
      | .var i => some (substBind σ i .empty)
      | .row _ tail => groundUnboundRowVars depth σ tail
      | .empty => groundUnboundRowVars depth σ .empty
      | _ => some σ

end Ore.EffectRows
