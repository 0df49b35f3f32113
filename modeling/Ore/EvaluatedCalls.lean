import Ore.ConstFits

namespace Ore.EvaluatedCalls

open Coercions ConstFits ConstFolding IntConstants TypeHoles

/-- What a call reads of its callee: the parameter types, none for a comptime parameter,
the closed effect row, whether the value names a function, and of how many arguments the
instance of a generic callee looks up the type. -/
structure Callee where
  params : List (Option Ty)
  labels : List Nat
  isFnValue : Bool
  isGeneric : Bool
  lookedUp : Nat

/-- The evaluation of a call takes the arguments again. -/
def Callee.refolds (f : Callee) : Bool := f.isFnValue && !f.isGeneric && f.params.all Option.isSome && f.labels.isEmpty

/-- An expression or a statement with the types that typing finds. What calls nothing is a
leaf, and so is what is typed apart. A form that takes each part once is `other`. -/
inductive Expr where
  | leaf (type : Ty)
  | call (type : Ty) (callee : Callee) (head : Expr) (args : List Expr)
  | arith (type : Ty) (lhs rhs : Expr)
  | field (type : Ty) (base : Expr)
  | ifElse (type : Ty) (captures : Bool) (condition : Expr) (branches : List Expr)
  | switch (type : Ty) (scrutinee : Expr) (arms : List Expr)
  | against (expected : Ty) (part : Expr)
  | other (type : Ty) (parts : List Expr)

namespace Expr

def type : Expr → Ty
  | .leaf t | .call t _ _ _ | .arith t _ _ | .field t _ | .ifElse t _ _ _ | .switch t _ _ | .other t _ => t
  | .against _ _ => .prim .void

/-- A check of these forms goes on to their parts and records no type for the whole. -/
def isRecorded : Expr → Bool
  | .ifElse .. | .switch .. => false
  | _ => true

end Expr

/-- Whether a coercion evaluates the expression for its value. -/
def looksAgain (actual expected : Ty) : Bool :=
  let target := unwrapOptionalChain expected
  if actual = comptimeInt ∨ actual = comptimeFloat then
    numericFits actual target && (isConcreteInt target || isConcreteFloat target)
  else isConcreteInt actual && isConcreteInt target && !(actual = target || numericFits actual target)

/-- The rows of an expression that is typed and then coerced. What is evaluated again has
been evaluated before. -/
def coerced (expected : Option Ty) (actual : Ty) (again : Bool) (typed : Bool → List (List Nat)) : List (List Nat) :=
  match expected with
  | none => typed again
  | some t => if looksAgain actual t then typed again ++ typed true else typed again

/-- A check against an error types the expression alone. -/
def expectation (t : Ty) : Option Ty := if t = .prim .error then none else some t

mutual

/-- The rows of the calls that an expression evaluates, in the order of the evaluation:
checked against a type, or typed without one. `again` tells that it has been evaluated
before. -/
def Expr.rows (again : Bool) (expected : Option Ty) : Expr → List (List Nat)
  | .leaf _ => []
  | .call type f head args => coerced expected type again fun again =>
      head.rows again none ++
        (if f.params.length = args.length then
          argRows again f.params args ++ (if again then [] else lookedUpRows f.lookedUp f.params args) ++ [f.labels]
        else allRows again none args) ++
      head.rows true none ++ if f.refolds then allRows true none args else []
  | .arith type lhs rhs => match expected with
    | none => lhs.rows again none ++ rhs.rows again none
    | some t =>
      if isNumeric t then
        lhs.rows again none ++
          if isNumeric lhs.type then lhs.rows true (some t) ++ rhs.rows again (some t)
          else coerced expected type again fun again => lhs.rows true none ++ rhs.rows again none
      else coerced expected type again fun again => lhs.rows again none ++ rhs.rows again none
  | .field type base => coerced expected type again fun again => base.rows again none ++ base.rows true none
  | .ifElse _ captures condition branches => match expected with
    | none => condition.rows again none ++ allRows again none branches
    | some t => condition.rows again (if captures then none else some (.prim .bool)) ++ allRows again (some t) branches
  | .switch _ scrutinee arms => match expected with
    | none => scrutinee.rows again none ++ scrutinee.rows true none ++ allRows again none arms
    | some t => scrutinee.rows again none ++ allRows again (some t) arms
  | .against t part => part.rows again (expectation t)
  | .other type parts => coerced expected type again fun again => allRows again none parts

def allRows (again : Bool) (expected : Option Ty) : List Expr → List (List Nat)
  | [] => []
  | e :: es => e.rows again expected ++ allRows again expected es

def argRows (again : Bool) : List (Option Ty) → List Expr → List (List Nat)
  | p :: ps, e :: es => e.rows again (p.bind expectation) ++ argRows again ps es
  | _, _ => []

/-- The arguments for a hole whose types have not been recorded. -/
def lookedUpRows : Nat → List (Option Ty) → List Expr → List (List Nat)
  | n + 1, p :: ps, e :: es =>
      (if (p.bind Ty.varId).isSome && !e.isRecorded then e.rows true none else []) ++ lookedUpRows n ps es
  | _, _, _ => []

end

mutual

def Expr.called : Expr → List (List Nat)
  | .leaf _ => []
  | .call _ f head args =>
      head.called ++ allCalled args ++ if f.params.length = args.length then [f.labels] else []
  | .arith _ lhs rhs => lhs.called ++ rhs.called
  | .field _ base => base.called
  | .ifElse _ _ condition branches => condition.called ++ allCalled branches
  | .switch _ scrutinee arms => scrutinee.called ++ allCalled arms
  | .against _ part => part.called
  | .other _ parts => allCalled parts

def allCalled : List Expr → List (List Nat)
  | [] => []
  | e :: es => e.called ++ allCalled es

end

theorem mem_coerced {expected : Option Ty} {actual : Ty} {again : Bool} {typed : Bool → List (List Nat)}
    {ls : List Nat} {P : Prop} (h : ∀ b, ls ∈ typed b ↔ P) : ls ∈ coerced expected actual again typed ↔ P := by
  cases expected with
  | none => exact h again
  | some t =>
      rw [coerced]
      split
      · rw [List.mem_append, h again, h true, or_self]
      · exact h again

mutual

/-- However often a call is evaluated, its row is that of a call of the body. -/
theorem mem_rows (ls : List Nat) (again : Bool) (expected : Option Ty) : ∀ e : Expr,
    ls ∈ e.rows again expected ↔ ls ∈ e.called
  | .leaf _ => by simp [Expr.rows, Expr.called]
  | .call type f head args => by
      have hhead (b : Bool) := mem_rows ls b none head
      have hall (b : Bool) := mem_allRows ls b none args
      rw [Expr.rows, Expr.called]
      refine mem_coerced fun b => ?_
      have hrefolded : ls ∈ (if f.refolds then allRows true none args else []) → ls ∈ allCalled args := by
        split
        · exact (hall true).mp
        · exact fun h => absurd h List.not_mem_nil
      by_cases harity : f.params.length = args.length
      · have hlooked : ls ∈ (if b then [] else lookedUpRows f.lookedUp f.params args) → ls ∈ allCalled args := by
          split
          · exact fun h => absurd h List.not_mem_nil
          · exact mem_lookedUpRows ls f.lookedUp f.params args
        simp only [harity, if_true, List.mem_append, hhead, mem_argRows ls b f.params args harity]
        tauto
      · simp only [harity, if_false, List.mem_append, hhead, hall]
        tauto
  | .arith type lhs rhs => by
      have hlhs (b : Bool) (t : Option Ty) := mem_rows ls b t lhs
      have hrhs (b : Bool) (t : Option Ty) := mem_rows ls b t rhs
      have hboth (b c : Bool) (t : Option Ty) : ls ∈ lhs.rows b t ++ rhs.rows c t ↔ ls ∈ lhs.called ++ rhs.called := by
        rw [List.mem_append, List.mem_append, hlhs, hrhs]
      rw [Expr.called]
      cases expected with
      | none =>
          rw [Expr.rows]
          exact hboth again again none
      | some t =>
          rw [Expr.rows]
          split
          · rw [List.mem_append, hlhs]
            split
            · rw [hboth, List.mem_append]
              tauto
            · rw [mem_coerced fun b => hboth true b none, List.mem_append]
              tauto
          · exact mem_coerced fun b => hboth b b none
  | .field type base => by
      rw [Expr.rows, Expr.called]
      refine mem_coerced fun b => ?_
      rw [List.mem_append, mem_rows ls b none base, mem_rows ls true none base, or_self]
  | .ifElse type captures condition branches => by
      have hcondition (t : Option Ty) := mem_rows ls again t condition
      have hbranches (t : Option Ty) := mem_allRows ls again t branches
      cases expected <;> simp only [Expr.rows, Expr.called, List.mem_append, hcondition, hbranches]
  | .switch type scrutinee arms => by
      have hscrutinee (b : Bool) := mem_rows ls b none scrutinee
      have harms (t : Option Ty) := mem_allRows ls again t arms
      cases expected <;> simp only [Expr.rows, Expr.called, List.mem_append, hscrutinee, harms, or_self]
  | .against t part => by
      rw [Expr.rows, Expr.called]
      exact mem_rows ls again (expectation t) part
  | .other type parts => by
      rw [Expr.rows, Expr.called]
      exact mem_coerced fun b => mem_allRows ls b none parts

theorem mem_allRows (ls : List Nat) (again : Bool) (expected : Option Ty) : ∀ es : List Expr,
    ls ∈ allRows again expected es ↔ ls ∈ allCalled es
  | [] => by simp [allRows, allCalled]
  | e :: es => by
      rw [allRows, allCalled, List.mem_append, List.mem_append, mem_rows ls again expected e,
        mem_allRows ls again expected es]

theorem mem_argRows (ls : List Nat) (again : Bool) : ∀ (ps : List (Option Ty)) (es : List Expr),
    ps.length = es.length → (ls ∈ argRows again ps es ↔ ls ∈ allCalled es)
  | [], [], _ => by simp [argRows, allCalled]
  | p :: ps, e :: es, h => by
      rw [argRows, allCalled, List.mem_append, List.mem_append, mem_rows ls again (p.bind expectation) e,
        mem_argRows ls again ps es (Nat.succ.inj h)]

theorem mem_lookedUpRows (ls : List Nat) : ∀ (n : Nat) (ps : List (Option Ty)) (es : List Expr),
    ls ∈ lookedUpRows n ps es → ls ∈ allCalled es
  | n + 1, p :: ps, e :: es, h => by
      rw [lookedUpRows, List.mem_append] at h
      rw [allCalled, List.mem_append]
      refine h.imp (fun hfirst => ?_) (mem_lookedUpRows ls n ps es)
      split at hfirst
      · exact (mem_rows ls true none e).mp hfirst
      · exact absurd hfirst List.not_mem_nil
  | 0, _, _, h | _ + 1, [], _, h | _ + 1, _ :: _, [], h => by simp [lookedUpRows] at h

end

end Ore.EvaluatedCalls
