import Ore.CallTrees
import Ore.ConstFits
import Ore.NamespaceItems

namespace Ore.EvalModel

open CallTrees Coercions ConstFits EffectRows IntConstants TypeHoles
open NamespaceItems (DefKind)

/-- What the evaluator reads of the index of a value. Types are values too. -/
inductive Value
  | type (t : Ty)
  | bool (b : Bool)
  | int (c : IntConst)
  | float (index : Nat)
  | fnValue (def_ : Nat)
  | namespaceValue (nsid : Nat)
  | other (index : Nat)
  deriving DecidableEq

namespace Value

def none : Value := .type .none

def error : Value := .type (.prim .error)

end Value

structure TypedValue where
  type : Ty
  value : Value
  deriving DecidableEq

namespace TypedValue

def none : TypedValue := ⟨.none, .none⟩

def error : TypedValue := ⟨.prim .error, .error⟩

end TypedValue

/-- The queries that evaluate expressions of a declaration. -/
inductive Query
  | typeOfDef (def_ : Nat)
  | fnSignature (def_ : Nat)
  | inferBody (def_ : Nat)
  | inferInstance (def_ : Nat) (args : List Ty)
  deriving DecidableEq

namespace Query

def decl : Query → Nat
  | .typeOfDef d | .fnSignature d | .inferBody d | .inferInstance d _ => d

def isInstance : Query → Bool
  | .inferInstance _ _ => true
  | _ => false

end Query

structure BindDef where
  name : Nat
  hasType : Bool
  isConst : Bool
  value : Option Nat

structure CallExpr where
  isWith : Bool
  isHandle : Bool
  callee : Option Nat
  args : List Nat

/-- A node as the casts of the syntax layer show it. A missing name is zero. -/
inductive Shape
  | name (name : Nat)
  | field (base : Option Nat) (field : Nat)
  | call (call : CallExpr)
  | bindDecl (bind : BindDef)
  | lambda (params : List Nat) (body : Option Nat)
  | block (stmts : List Nat)
  | returnStmt (value : Option Nat)
  | other

/-- The nodes that the casts give access to. -/
def Shape.parts : Shape → List Nat
  | .field base _ => base.toList
  | .call c => c.callee.toList ++ c.args
  | .bindDecl bind => bind.value.toList
  | .lambda _ body => body.toList
  | .block stmts => stmts
  | .returnStmt value => value.toList
  | .name .. | .other => []

structure TopLevelEntry where
  node : Nat
  file : Nat
  id : Nat

structure Hints where
  enumCtxHint : Nat
  inComptime : Bool
  expectedRetOverride : Ty

/-- `types` is the builder, named by the query it belongs to, and `declAstMap` the
declaration of the map. -/
structure SemaCtx where
  nsid : Nat
  enclosingFn : Nat
  fileLocal : Nat
  types : Option Query
  declAstMap : Option Nat
  declKey : Nat
  typeNameMap : Option Nat
  hints : Hints

structure EvalCycleFrame where
  fileIdx : Nat
  keyHash : Nat
  deriving DecidableEq

/-- A call frame; `prev` is the place of the one below. -/
structure EvalFrame where
  prev : Option Nat
  bindings : List (Nat × TypedValue)
  cap : Nat

/-- An entry of a builder with the node it was made for. -/
structure Stamp where
  builder : Query
  node : Nat
  key : Nat
  entry : TypedValue

structure Diag where
  text : String
  name : Nat

/-- The globals of the evaluator, the builders, the engine's slots and, as `world`,
all that the type functions change. Frames stay at their places in `frames`. -/
structure State (World : Type) where
  cycles : List EvalCycleFrame
  frames : List EvalFrame
  frameTop : Option Nat
  branch : Nat
  stamps : List Stamp
  results : List (Query × TypedValue)
  running : List Query
  monoDepth : Nat
  diags : List Diag
  world : World

/-- What typing does at a place: it evaluates and stamps nodes it may reach, asks
queries and changes the rest of the state. A quiet evaluation drops the builder. -/
inductive Arm (World : Type) (Reach : Nat → Prop) (α : Type)
  | done (a : α)
  | look (next : State World → Arm World Reach α)
  | change (w : World) (next : Arm World Reach α)
  | emit (d : Diag) (next : Arm World Reach α)
  | eval (node : Nat) (h : Reach node) (hints : Hints) (quiet : Bool) (next : TypedValue → Arm World Reach α)
  | stamp (node : Nat) (h : Reach node) (entry : TypedValue) (next : Arm World Reach α)
  | ask (q : Query) (h : q.isInstance = false) (next : TypedValue → Arm World Reach α)
  | demand (def_ : Nat) (args : List Ty) (next : TypedValue → Arm World Reach α)

/-- The type of a call. `tail` is what the answer of a `with` call is coerced to
when it is the value of the enclosing function. -/
structure CallTyping (World : Type) where
  tail : Option (Ty × Ty)
  after : World → World
  result : Ty

/-- A program as the evaluator sees it: its syntax, its names, and the typing of
the kinds of nodes that only evaluate nodes below them. -/
structure Program (World : Type) where
  shape : Nat → Shape
  below : Nat → List Nat
  height : Nat → Nat
  owner : Nat → Nat
  parts_below : ∀ n, ∀ c ∈ (shape n).parts, c ∈ below n
  height_below : ∀ n, ∀ c ∈ below n, height c < height n
  owner_below : ∀ n, ∀ c ∈ below n, owner c = owner n
  start : Nat → Nat
  length : Nat → Nat
  ptrHash : Nat → Nat
  declAstId : Nat → Nat → Option Nat
  bodyScopeLookup : Nat → Nat → Nat → Option Nat
  bound_owner : ∀ f n name b, bodyScopeLookup f n name = some b → owner b = f
  fileAst : Nat → Bool
  resolveRef : Nat → Nat → Option Nat
  primitive : Nat → Option Ty
  defKind : Nat → DefKind
  topLevelEntry : Nat → Nat → Option TopLevelEntry
  defIdentity : Nat → Nat → Nat
  defName : Nat → Nat
  defParentModule : Nat → Nat
  declAstMap : Nat → Option Nat
  namespaceType : Ty → Option Nat
  typeHole : World → Nat → Nat → Option Ty
  typeResolve : World → Ty → Ty
  hasUnboundHole : World → Ty → Bool
  coerceStructural : World → Ty → Ty → Bool × World
  tvFitsIn : Value → Ty → Fit
  infer : (ctx : SemaCtx) → (n : Nat) → Arm World (· ∈ below n) TypedValue
  inferCall : (ctx : SemaCtx) → (n : Nat) → Arm World (· ∈ below n) (CallTyping World)
  inferField : (ctx : SemaCtx) → (n : Nat) → TypedValue → Arm World (· ∈ below n) TypedValue
  queries : List Query
  frameCtx : Query → SemaCtx
  frame_fn : ∀ q, (frameCtx q).enclosingFn = 0 ∨ (frameCtx q).enclosingFn = q.decl
  compute : (q : Query) → Arm World (owner · = q.decl) TypedValue
  onCycle : World → Query → TypedValue

/-- The functions that call each other. `constant` is the evaluation of the right
side of a constant declaration, in its own context. -/
inductive Call
  | evalExpr (ctx : SemaCtx) (node : Nat)
  | constant (ctx : SemaCtx) (target : Nat) (entry : TopLevelEntry) (rhs : Nat)
  | coerceOrDiag (ctx : SemaCtx) (node : Nat) (actual expected : Ty)
  | query (q : Query)

abbrev Eval (World : Type) := CallTree Call TypedValue (State World)

def evalCycleDepthMax : Nat := 64

def evalBranchQuotaDefault : Nat := 1000

def oreMonoDepthLimit : Nat := 64

section Stacks

def evalCycleContains (cycles : List EvalCycleFrame) (fileIdx keyHash : Nat) : Bool :=
  cycles.any fun f => f.fileIdx = fileIdx && f.keyHash = keyHash

def setBinding (name : Nat) (val : TypedValue) : List (Nat × TypedValue) → Option (List (Nat × TypedValue))
  | [] => none
  | b :: bs => if b.1 = name then some ((name, val) :: bs) else (setBinding name val bs).map (b :: ·)

/-- Bind or overwrite; `none` when the frame is full. -/
def evalFrameBind (f : EvalFrame) (name : Nat) (val : TypedValue) : Option EvalFrame :=
  match setBinding name val f.bindings with
  | some bs => some { f with bindings := bs }
  | none => if f.cap ≤ f.bindings.length then none else some { f with bindings := f.bindings ++ [(name, val)] }

variable {World : Type}

def evalFrameLookup (s : State World) (name : Nat) : Option TypedValue := do
  let place ← s.frameTop
  let f ← s.frames[place]?
  f.bindings.lookup name

def emit (text : String) (name : Nat) : Eval World PUnit :=
  CallTree.modify fun s => { s with diags := s.diags ++ [⟨text, name⟩] }

def fail (text : String) (name : Nat) : Eval World TypedValue := do
  emit text name
  return .error

def evalExpr (ctx : SemaCtx) (node : Nat) : Eval World TypedValue := CallTree.invoke (.evalExpr ctx node)

def ask (q : Query) : Eval World TypedValue := CallTree.invoke (.query q)

def onCycleStack (frame : EvalCycleFrame) (run : Eval World TypedValue) : Eval World TypedValue := do
  let prev := (← CallTree.get).cycles
  CallTree.modify fun s => { s with cycles := frame :: prev }
  let tv ← run
  CallTree.modify fun s => { s with cycles := prev }
  return tv

def guarded (frame : EvalCycleFrame) (name : Nat) (enter : Eval World TypedValue) : Eval World TypedValue := do
  let s ← CallTree.get
  if evalCycleContains s.cycles frame.fileIdx frame.keyHash then
    fail "circular const dependency through '%S'" name
  else if evalCycleDepthMax ≤ s.cycles.length then fail "const chain too deep (max 64)" name
  else enter

end Stacks

namespace Program

variable {World : Type} (p : Program World)

section Builders

def nodeKey (map : Option Nat) (node : Nat) : Nat := (map.bind fun d => p.declAstId d node).getD (p.ptrHash node)

def lookupEntry (s : State World) (builder : Query) (key : Nat) : Option TypedValue :=
  (s.stamps.find? fun x => x.builder = builder ∧ x.key = key).map Stamp.entry

def nodeTypedValuePush (ctx : SemaCtx) (node : Nat) (entry : TypedValue) : Eval World PUnit :=
  match ctx.types with
  | none => return
  | some builder =>
    CallTree.modify fun s => { s with stamps := ⟨builder, node, p.nodeKey ctx.declAstMap node, entry⟩ :: s.stamps }

def dbLookupNodeTypedValue (ctx : SemaCtx) (s : State World) (node : Nat) : TypedValue :=
  (ctx.types.bind fun builder => lookupEntry s builder (p.nodeKey ctx.declAstMap node)).getD .none

def valueResolve (w : World) : Value → Value
  | .type t => .type (p.typeResolve w t)
  | v => v

end Builders

/-- An arm in its context. The depth limit guards every demand of an instance. -/
def runArm {Reach : Nat → Prop} {α : Type} (ctx : SemaCtx) : Arm World Reach α → Eval World α
  | .done a => return a
  | .look next => .read fun s => runArm ctx (next s)
  | .change w next => .read fun s => .write { s with world := w } (runArm ctx next)
  | .emit d next => .read fun s => .write { s with diags := s.diags ++ [d] } (runArm ctx next)
  | .eval node _ hints quiet next =>
    .call (.evalExpr { ctx with hints := hints, types := if quiet then none else ctx.types } node) fun tv =>
      runArm ctx (next tv)
  | .stamp node _ entry next => p.nodeTypedValuePush ctx node entry >>= fun _ => runArm ctx next
  | .ask q _ next => .call (.query q) fun tv => runArm ctx (next tv)
  | .demand d args next => .read fun s =>
    if oreMonoDepthLimit ≤ s.monoDepth then runArm ctx (next .error)
    else .call (.query (.inferInstance d args)) fun tv => runArm ctx (next tv)

section Names

/-- The right side of a constant is evaluated under its own map, with the rest of
the context as it is. -/
def evalConstant (ctx : SemaCtx) (target : Nat) (entry : TopLevelEntry) (rhs : Nat) : Eval World TypedValue :=
  onCycleStack ⟨entry.file, p.ptrHash entry.node⟩
    (evalExpr
      { ctx with declAstMap := p.declAstMap target, declKey := entry.id, fileLocal := entry.file } rhs)

/-- A constant by its declaration; `otherwise` when it has no right side to evaluate. -/
def enterConstant (ctx : SemaCtx) (name target : Nat) (entry : TopLevelEntry) (otherwise : TypedValue) :
    Eval World TypedValue :=
  match p.fileAst entry.file, p.shape entry.node with
  | true, .bindDecl ⟨_, _, true, some rhs⟩ =>
    guarded ⟨entry.file, p.ptrHash entry.node⟩ name (CallTree.invoke (.constant ctx target entry rhs))
  | _, _ => return otherwise

def evalBinding (ctx : SemaCtx) (name bind : Nat) : Eval World TypedValue := do
  let s ← CallTree.get
  let stored := p.dbLookupNodeTypedValue ctx s bind
  let resolvedTy := p.typeResolve s.world stored.type
  match p.shape bind with
  | .bindDecl b =>
    guarded ⟨ctx.fileLocal, p.ptrHash bind⟩ name do
      let tv ← match b.value with
        | some rhs => onCycleStack ⟨ctx.fileLocal, p.ptrHash bind⟩ (evalExpr ctx rhs)
        | none => pure .none
      let type := if b.hasType ∧ resolvedTy ≠ .none ∧ tv.type ≠ .prim .error then resolvedTy else tv.type
      let value := if b.isConst then tv.value else .none
      return if type = .none ∧ value = .none then ⟨resolvedTy, stored.value⟩ else ⟨type, value⟩
  | _ => return ⟨resolvedTy, p.valueResolve s.world stored.value⟩

def readBinding (ctx : SemaCtx) (name bind : Nat) : Eval World (Option TypedValue) := do
  if p.fileAst ctx.fileLocal = false then return none
  let tv ← p.evalBinding ctx name bind
  return if tv = .none then none else some tv

/-- The local lookup; `none` goes on with the other scopes. -/
def evalLocal (ctx : SemaCtx) (node name : Nat) : Eval World (Option TypedValue) := do
  if ctx.enclosingFn = 0 then return none
  match p.bodyScopeLookup ctx.enclosingFn node name, ctx.types with
  | none, _ => return none
  | some bind, none => p.readBinding ctx name bind
  | some bind, some builder =>
    let s ← CallTree.get
    match lookupEntry s builder (p.nodeKey ctx.declAstMap bind), p.shape bind with
    | none, _ =>
      if p.start node < p.start bind + p.length bind then
        return some (← fail "'%S' used before its declaration" name)
      else return some .none
    | some _, .bindDecl _ => p.readBinding ctx name bind
    | some entry, _ => return some ⟨p.typeResolve s.world entry.type, p.valueResolve s.world entry.value⟩

/-- The scopes outside of a body: the holes of a signature, then the namespace. -/
def evalGlobal (ctx : SemaCtx) (name : Nat) : Eval World TypedValue := do
  let s ← CallTree.get
  match ctx.typeNameMap.bind fun map => p.typeHole s.world map name with
  | some hole => return ⟨.prim .type, .type hole⟩
  | none =>
    match p.resolveRef ctx.nsid name with
    | none => fail "unknown name '%S'" name
    | some target =>
      match p.primitive target, p.defKind target with
      | some prim, _ => return ⟨.prim .type, .type prim⟩
      | none, .struct | none, .union | none, .enum | none, .distinct | none, .effect =>
        return ⟨.prim .type, .type (← ask (.typeOfDef target)).type⟩
      | none, .constant =>
        let declared : TypedValue := ⟨(← ask (.typeOfDef target)).type, .none⟩
        match p.topLevelEntry ctx.nsid name with
        | none => return declared
        | some entry => p.enterConstant ctx name target entry declared
      | none, .function => return ⟨(← ask (.fnSignature target)).type, .fnValue target⟩
      | none, _ => return ⟨(← ask (.typeOfDef target)).type, .none⟩

def evalName (ctx : SemaCtx) (node name : Nat) : Eval World TypedValue := do
  if name = 0 then return .none
  let s ← CallTree.get
  match evalFrameLookup s name with
  | some bound => return bound
  | none =>
    match ← p.evalLocal ctx node name with
    | some tv => return tv
    | none => p.evalGlobal ctx name

end Names

section Fields

def noHint (ctx : SemaCtx) : SemaCtx := { ctx with hints := { ctx.hints with enumCtxHint := 0 } }

def evalMember (ctx : SemaCtx) (ns field : Nat) : Eval World TypedValue :=
  match p.topLevelEntry ns field with
  | none => fail "no member '%S' in namespace" field
  | some entry => do
    let target := p.defIdentity ns entry.id
    let memberType := (← ask (.typeOfDef target)).type
    match p.defKind target with
    | .function => return ⟨memberType, .fnValue target⟩
    | .constant => p.enterConstant (noHint ctx) field target entry ⟨memberType, .none⟩
    | _ => return ⟨memberType, .none⟩

def fnMember (base : TypedValue) (field : Nat) : Option Nat := do
  let ns ← p.namespaceType base.type
  let entry ← p.topLevelEntry ns field
  let target := p.defIdentity ns entry.id
  if p.defKind target = .function then some target else none

def evalField (ctx : SemaCtx) (node : Nat) (base : Option Nat) (field : Nat) : Eval World TypedValue := do
  let baseTv ← match base with
    | some b => evalExpr (noHint ctx) b
    | none => pure .none
  if baseTv.type = .prim .error then return .error
  else if baseTv.type = .none ∨ field = 0 then return .none
  else match baseTv.value, p.fnMember baseTv field with
    | .namespaceValue ns, _ => p.evalMember ctx ns field
    | _, some target => return ⟨(← ask (.typeOfDef target)).type, .fnValue target⟩
    | _, none => p.runArm ctx (p.inferField ctx node baseTv)

end Fields

section Calls

def ctfeIsScalarValue : Value → Bool
  | .bool _ | .int _ | .float _ => true
  | _ => false

def bindLocal (place name : Nat) (val : TypedValue) : Eval World Bool := do
  let s ← CallTree.get
  match s.frames[place]?.bind fun f => evalFrameBind f name val with
  | none => return false
  | some f =>
    CallTree.modify fun s => { s with frames := s.frames.set place f }
    return true

structure EvalStmtResult where
  val : TypedValue
  returned : Bool
  folded : Bool

def evalStmtList (ctx : SemaCtx) (place : Nat) : List Nat → Eval World EvalStmtResult
  | [] => return ⟨.none, false, true⟩
  | stmt :: stmts =>
    match p.shape stmt with
    | .returnStmt none => return ⟨.none, true, false⟩
    | .returnStmt (some value) => do
      let tv ← evalExpr ctx value
      return ⟨tv, true, tv.value ≠ .none ∧ tv.value ≠ .error⟩
    | .bindDecl ⟨name, _, _, some rhs⟩ => do
      if name = 0 then return ⟨.none, false, false⟩
      let lv ← evalExpr ctx rhs
      if ctfeIsScalarValue lv.value = false then return ⟨.none, false, false⟩
      if ← bindLocal place name lv then evalStmtList ctx place stmts
      else return ⟨.none, false, false⟩
    | _ => return ⟨.none, false, false⟩

def evalBody (ctx : SemaCtx) (place body : Nat) : Eval World TypedValue :=
  match p.shape body with
  | .block stmts => do
    let r ← p.evalStmtList ctx place stmts
    return if r.folded ∨ (r.returned ∧ r.val.value = .error) then r.val else .none
  | _ => evalExpr ctx body

/-- The arguments that folded, their number, and whether all of them did. -/
def evalArgs (ctx : SemaCtx) : List Nat → List TypedValue → Nat → Bool → Eval World (List TypedValue × Nat × Bool)
  | [], vals, nArgs, ok => return (vals, nArgs, ok)
  | arg :: args, vals, nArgs, ok => do
    let tv ← evalExpr ctx arg
    if nArgs < 32 ∧ ctfeIsScalarValue tv.value then evalArgs ctx args (vals ++ [tv]) (nArgs + 1) ok
    else evalArgs ctx args vals (nArgs + 1) false

def bindParams : List Nat → List TypedValue → EvalFrame → Option EvalFrame
  | name :: names, val :: vals, f =>
    if name = 0 then bindParams names vals f else (evalFrameBind f name val).bind (bindParams names vals)
  | _, _, f => some f

def withFrame (frame : EvalFrame) (cyc : EvalCycleFrame) (run : Nat → Eval World TypedValue) :
    Eval World TypedValue := do
  let s ← CallTree.get
  CallTree.modify fun s => { s with frames := s.frames ++ [frame], frameTop := some s.frames.length }
  let res ← onCycleStack cyc (run s.frames.length)
  CallTree.modify fun s => { s with frameTop := frame.prev }
  return res

def calleeCtx (ctx : SemaCtx) (target : Nat) (entry : TopLevelEntry) : SemaCtx :=
  { ctx with
    enclosingFn := target, nsid := p.defParentModule target, fileLocal := entry.file,
    declAstMap := p.declAstMap target, declKey := entry.id, types := none,
    hints := { ctx.hints with enumCtxHint := 0, inComptime := true } }

/-- The count of comptime calls since the outermost one, this call included. -/
def countBranch (s : State World) : Nat := ((if s.frameTop = none then 0 else s.branch) + 1) % 2 ^ 32

def runComptime (ctx : SemaCtx) (out : TypedValue) (target : Nat) (entry : TopLevelEntry) (params : List Nat)
    (vals : List TypedValue) (body : Nat) : Eval World TypedValue := do
  CallTree.modify fun s => { s with branch := countBranch s }
  let s ← CallTree.get
  if evalBranchQuotaDefault < s.branch then fail "comptime evaluation exceeded 1000 backwards branches" 0
  else if evalCycleDepthMax ≤ s.cycles.length then fail "comptime call too deep (max 64)" 0
  else match bindParams params vals ⟨s.frameTop, [], 32⟩ with
    | none => return out
    | some frame =>
      let res ← withFrame frame ⟨entry.file, p.ptrHash entry.node⟩ fun place =>
        p.evalBody (p.calleeCtx ctx target entry) place body
      return if ctfeIsScalarValue res.value then ⟨out.type, res.value⟩
        else if res.value = .error then res
        else out

def calleeBody (target : Nat) : Option (TopLevelEntry × List Nat × Nat) := do
  let entry ← p.topLevelEntry (p.defParentModule target) (p.defName target)
  if p.fileAst entry.file = false then none
  else match p.shape entry.node with
    | .bindDecl ⟨_, _, _, some value⟩ =>
      match p.shape value with
      | .lambda params (some body) => some (entry, params, body)
      | _ => none
    | _ => none

def rowIsEffectful (row : Row) : Bool := row ≠ .none && row ≠ .empty && row ≠ .error

/-- The type of a call. A `with` call whose answer is the value of the enclosing
function has that answer coerced at the call itself. -/
def inferCallPosition (ctx : SemaCtx) (node : Nat) (call : CallExpr) : Eval World Ty := do
  let t ← p.runArm ctx (p.inferCall ctx node)
  match call.isWith || call.isHandle, t.tail with
  | true, some (actual, expected) => let _ ← CallTree.invoke (.coerceOrDiag ctx node actual expected)
  | _, _ => pure ⟨⟩
  CallTree.modify fun s => { s with world := t.after s.world }
  return t.result

/-- Fold a call whose callee is known, or leave `out`. -/
def foldCall (ctx : SemaCtx) (out : TypedValue) (target : Nat) (args : List Nat) : Eval World TypedValue := do
  let fnTy := (← ask (.typeOfDef target)).type
  let s ← CallTree.get
  match fnTy with
  | .fn _ params _ comptimeBits typevaluedBits row =>
    if p.hasUnboundHole s.world fnTy ∨ comptimeBits ≠ 0 ∨ typevaluedBits ≠ 0 then return out
    else if rowIsEffectful row then return if ctx.hints.inComptime then .error else out
    else
      let (vals, nArgs, ok) ← evalArgs ctx args [] 0 true
      if ok = false ∨ nArgs ≠ params.length then return out
      else match p.calleeBody target with
        | none => return out
        | some (entry, names, body) => p.runComptime ctx out target entry names vals body
  | _ => return out

def evalCall (ctx : SemaCtx) (node : Nat) (call : CallExpr) : Eval World TypedValue := do
  let out : TypedValue := ⟨← p.inferCallPosition ctx node call, .none⟩
  match call.isWith || call.isHandle, call.callee with
  | false, some callee =>
    match (← evalExpr ctx callee).value with
    | .fnValue target => p.foldCall ctx out target call.args
    | _ => return out
  | _, _ => return out

end Calls

section Coercing

/-- The numbers of the compiler that a coercion to the type has to look at. -/
def comptimeNarrow (actual target : Ty) : Bool :=
  (actual = comptimeInt || actual = ConstFolding.comptimeFloat) && (isConcreteInt target || isConcreteFloat target)

def wantsValue (w : World) (actual expected : Ty) : Bool :=
  if (p.coerceStructural w actual expected).1 then comptimeNarrow actual (unwrapOptionalChain expected)
  else isConcreteInt actual && isConcreteInt (unwrapOptionalChain expected)

def coercionOf (structural : Bool) (value : Value) (target : Ty) : Coercion :=
  let fit := p.tvFitsIn value target
  let checked := if fit.fits then .ok else .failRange fit.lo fit.hi
  match structural, value with
  | true, _ => if value = .none ∨ value = .error then .ok else checked
  | false, .int _ => checked
  | false, _ => .failType

def coerceNode (ctx : SemaCtx) (node : Nat) (actual expected : Ty) : Eval World Coercion := do
  let s ← CallTree.get
  let structural := p.coerceStructural s.world actual expected
  CallTree.modify fun s => { s with world := structural.2 }
  if p.wantsValue s.world actual expected then
    return p.coercionOf structural.1 (← evalExpr ctx node).value (unwrapOptionalChain expected)
  else return if structural.1 then .ok else .failType

def rangeText (value : Value) (lo hi : Option String) : String :=
  match value, lo, hi with
  | .float _, _, _ => "type '%T' cannot represent float value '%s'"
  | _, some _, some _ => "type '%T' cannot represent integer value '%s' (range %s..%s)"
  | _, _, _ => "type '%T' cannot represent integer value '%s'"

/-- A coercion of the node's own expression; what it returns is not read here. -/
def coerceOrDiagNode (ctx : SemaCtx) (node : Nat) (actual expected : Ty) : Eval World TypedValue := do
  if actual = .prim .error ∨ expected = .prim .error then return .none
  match ← p.coerceNode ctx node actual expected with
  | .ok => return .none
  | .failType => fail "expected type '%T', found '%T'" 0
  | .failRange lo hi => fail (rangeText (← evalExpr ctx node).value lo hi) 0

end Coercing

section Bodies

def evalNode (ctx : SemaCtx) (node : Nat) : Eval World TypedValue := do
  let result ← match p.shape node with
    | .name name => p.evalName ctx node name
    | .field base field => p.evalField ctx node base field
    | .call call => p.evalCall ctx node call
    | _ => p.runArm ctx (p.infer ctx node)
  if result = .none then return result
  else
    p.nodeTypedValuePush ctx node result
    return result

/-- The context a query computes in, with a builder of its own. -/
def queryCtx (q : Query) : SemaCtx := { p.frameCtx q with types := some q, declAstMap := p.declAstMap q.decl }

def runQuery (q : Query) : Eval World TypedValue := do
  let s ← CallTree.get
  match s.results.lookup q with
  | some tv => return tv
  | none =>
    if q ∈ s.running then return p.onCycle s.world q
    else if q ∉ p.queries ∧ q.isInstance = false then return .none
    else
      let depth := if q.isInstance then 1 else 0
      CallTree.modify fun s => { s with running := q :: s.running, monoDepth := s.monoDepth + depth }
      let tv ← p.runArm (p.queryCtx q) (p.compute q)
      CallTree.modify fun s =>
        { s with running := s.running.erase q, results := (q, tv) :: s.results, monoDepth := s.monoDepth - depth }
      return tv

def body : Call → Eval World TypedValue
  | .evalExpr ctx node => p.evalNode ctx node
  | .constant ctx target entry rhs => p.evalConstant ctx target entry rhs
  | .coerceOrDiag ctx node actual expected => p.coerceOrDiagNode ctx node actual expected
  | .query q => p.runQuery q

end Bodies

end Program

end Ore.EvalModel
