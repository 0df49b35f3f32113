import Ore.TypeHoles

namespace Ore.Coercions

open EffectRows InternKeys TypeHoles

def isSignedInt : Ty → Bool
  | .prim .i8 | .prim .i16 | .prim .i32 | .prim .i64 | .prim .isize => true
  | _ => false

def isUnsignedInt : Ty → Bool
  | .prim .u8 | .prim .u16 | .prim .u32 | .prim .u64 | .prim .usize => true
  | _ => false

def isConcreteInt (t : Ty) : Bool := isSignedInt t || isUnsignedInt t

def isConcreteFloat : Ty → Bool
  | .prim .f32 | .prim .f64 => true
  | _ => false

def intBits : Ty → Nat
  | .prim .u8 | .prim .i8 => 8
  | .prim .u16 | .prim .i16 => 16
  | .prim .u32 | .prim .i32 => 32
  | .prim .u64 | .prim .i64 => 64
  | .prim .usize | .prim .isize => 64
  | _ => 0

/-- The two substitutions of an inference frame, `none` for a null pointer. -/
structure Ctx where
  typeSubst : Option TypeSubst
  rowSubst : Option RowSubst

/-- A test that may bind variables; `none` when the depth is used up. -/
abbrev Check := Ctx → Option (Bool × Ctx)

namespace Check

def pass : Check := fun c => some (true, c)

def holds (b : Bool) : Check := fun c => some (b, c)

/-- The second test runs after the first has passed. -/
def andThen (p q : Check) : Check := fun c => match p c with
  | some (true, c) => q c
  | r => r

/-- The second test runs after the first has failed, and keeps its bindings. -/
def orElse (p q : Check) : Check := fun c => match p c with
  | some (false, c) => q c
  | r => r

end Check

def absorbs (actual expected : Ty) : Bool :=
  actual = .none || expected = .none || actual = .prim .error || expected = .prim .error ||
    actual = expected || actual = .prim .noreturn

inductive HoleRule where
  | sameHole
  | fill (id : Nat) (bound : Ty)
  | resolved (actual expected : Ty)
  | shapes

def holeRule (c : Ctx) (actual expected : Ty) : HoleRule :=
  match c.typeSubst with
  | none => .shapes
  | some σ =>
    let ra := typeResolve σ actual
    let re := typeResolve σ expected
    match ra.varId, re.varId with
    | _, some j => if ra = re then .sameHole else .fill j ra
    | some i, none => .fill i re
    | none, none => if ra ≠ actual ∨ re ≠ expected then .resolved ra re else .shapes

/-- Pointer families drop mutability over the same element. -/
def dropsMut : Ty → Ty → Bool
  | .ptr a ac, .ptr e ec | .slice a ac, .slice e ec | .manyPtr a ac, .manyPtr e ec => a = e && (!ac || ec)
  | _, _ => false

def arrayDecays : Ty → Ty → Bool
  | .ptr (.array a _) ac, .slice e ec | .ptr (.array a _) ac, .manyPtr e ec => a = e && (!ac || ec)
  | _, _ => false

def nilFits : Ty → Ty → Bool
  | .prim .nil, .optional _ => true
  | _, _ => false

def numericFits (actual expected : Ty) : Bool :=
  (actual = .prim .comptimeInt &&
      (isConcreteInt expected || isConcreteFloat expected || expected = .prim .comptimeFloat)) ||
    (actual = .prim .comptimeFloat && isConcreteFloat expected) ||
    (isConcreteInt actual && isConcreteInt expected && intBits actual < intBits expected &&
      ((isUnsignedInt actual && isUnsignedInt expected) || (isSignedInt actual && isSignedInt expected) ||
        (isUnsignedInt actual && isSignedInt expected)))

/-- Effect rows of function types. `depth` bounds the unification. -/
def rowsAgree (depth : Nat) (actual expected : Row) : Check := fun c =>
  if actual = .error ∨ expected = .error ∨ actual = expected then some (true, c)
  else match c.rowSubst with
  | none => some (actual = .empty, c)
  | some ρ => (rowUnify ρ depth actual expected).map fun r =>
      (r.1 || actual = .empty, { c with rowSubst := some r.2 })

def paramsCoerce (coerce : Ty → Ty → Check) : List Ty → List Ty → Check
  | a :: as, e :: es => (coerce e a).andThen (paramsCoerce coerce as es)
  | _, _ => .pass

def liftCoerces (coerce : Ty → Ty → Check) (actual : Ty) : Ty → Check
  | .optional elem => coerce actual elem
  | _ => .holds false

def fnCoerces (depth : Nat) (coerce : Ty → Ty → Check) : Ty → Ty → Check
  | .fn ret params modifiers _ _ row, .fn ret' params' modifiers' _ _ row' =>
    if params.length = params'.length ∧ modifiers = modifiers' then
      (coerce ret ret').andThen ((paramsCoerce coerce params params').andThen (rowsAgree depth row row'))
    else .holds false
  | _, _ => .holds false

/-- The rules behind the hole rule, in the order of the source. -/
def shapesCoerce (depth : Nat) (coerce : Ty → Ty → Check) (actual expected : Ty) : Check :=
  if dropsMut actual expected || arrayDecays actual expected || nilFits actual expected then .pass
  else (liftCoerces coerce actual expected).orElse
    ((fnCoerces depth coerce actual expected).orElse (.holds (numericFits actual expected)))

/-- The structural rules with `fill` for the binding of a hole. `depth` bounds
the recursive calls. -/
def coerceWith (fill : Nat → Ty → Check) : Nat → Ty → Ty → Check
  | 0, _, _ => fun _ => none
  | depth + 1, actual, expected => fun c =>
    if absorbs actual expected then some (true, c)
    else match holeRule c actual expected with
    | .sameHole => some (true, c)
    | .fill id bound => fill id bound c
    | .resolved ra re => coerceWith fill depth ra re c
    | .shapes => shapesCoerce depth (coerceWith fill depth) actual expected c

def Ctx.bind (c : Ctx) (id : Nat) (bound : Ty) : Ctx :=
  { c with typeSubst := c.typeSubst.map (typeSubstBind · id bound) }

def coerceStructuralCtx : Nat → Ty → Ty → Check :=
  coerceWith fun id bound c => some (true, c.bind id bound)

/-- A comptime argument of a call fills the hole of its parameter unless the
hole is filled already. -/
def fillArgument (c : Ctx) (pty target : Ty) : Ctx :=
  match pty, c.typeSubst with
  | .var id, some σ =>
    if target ≠ .none ∧ target ≠ .prim .error ∧ typeResolve σ pty = pty then c.bind id target else c
  | _, _ => c

/-- An instance frame fills the holes of its parameters from its arguments. -/
def fillParameter (c : Ctx) (pty arg : Ty) : Ctx :=
  match pty, c.typeSubst with
  | .var id, some σ => if typeResolve σ pty = pty then c.bind id arg else c
  | _, _ => c

end Ore.Coercions
