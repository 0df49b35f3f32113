import Mathlib.Logic.Function.Basic
import Ore.Tasks

namespace Ore.EngineModel

open Tasks

inductive QueryKind
  | sourceText | fileSet | fileAst | lineIndex | fileImports | namespaceItems | topLevelEntry | namespaceScopes
  | defIdentity | resolveRef | typeOfDecl | fnSignature | fnSignatureShape | inferBody | bodyScopes
  | bodyReferences | namespaceType | inferInstance | declAstMap | check
  deriving DecidableEq, Repr

namespace QueryKind

def isInput : QueryKind → Bool
  | sourceText | fileSet | check => true
  | _ => false

/-- The kinds whose re-entry joins a fixpoint instead of answering bottom. -/
def isFixpoint : QueryKind → Bool
  | fnSignature | inferBody => true
  | _ => false

/-- The kinds whose rows are found through a routing map. -/
def isHashRouted : QueryKind → Bool
  | topLevelEntry | defIdentity | resolveRef | inferInstance => true
  | _ => false

end QueryKind

structure Query where
  kind : QueryKind
  key : Nat
  deriving DecidableEq, Repr

inductive Durability
  | low | medium | high
  deriving DecidableEq, Repr

namespace Durability

def level : Durability → Nat
  | low => 0
  | medium => 1
  | high => 2

instance : LE Durability := ⟨fun a b => a.level ≤ b.level⟩

instance : LT Durability := ⟨fun a b => a.level < b.level⟩

instance (a b : Durability) : Decidable (a ≤ b) := inferInstanceAs (Decidable (a.level ≤ b.level))

instance (a b : Durability) : Decidable (a < b) := inferInstanceAs (Decidable (a.level < b.level))

end Durability

inductive QueryState
  | empty | running | done | error
  deriving DecidableEq, Repr

inductive BeginResult
  | compute | cached | cycle | cycleProvisional | error | canceled
  deriving DecidableEq, Repr

/-- How the answer of a demanded query came about: served from the slot,
freshly computed to an end, or without a settled result. -/
inductive AnswerKind
  | cached | succeeded | failed | cachedError | cycle | provisional | canceled | abandoned
  deriving DecidableEq, Repr

structure Answer (V : Type) where
  value : V
  kind : AnswerKind

/-- The null fingerprint is `none`. -/
structure Dep (F : Type) where
  query : Query
  fp : Option F
  dur : Durability

/-- The hot and cold halves of a slot. A row index reads as zero both when it
is zero and when the key is absent. `consumed` is not in the source: it lists
the answers the last run of the body used. -/
structure Slot (F : Type) where
  state : QueryState
  durability : Durability
  fingerprint : Option F
  verifiedRev : Nat
  deps : List (Dep F)
  depIndex : Nat → Nat
  provisional : Bool
  computedRev : Nat
  routed : Bool
  consumed : List (Query × AnswerKind)

def Slot.zero (F : Type) : Slot F where
  state := .empty
  durability := .low
  fingerprint := none
  verifiedRev := 0
  deps := []
  depIndex := fun _ => 0
  provisional := false
  computedRev := 0
  routed := false
  consumed := []

structure Frame (F : Type) where
  query : Query
  deps : List (Dep F)
  depIndex : Nat → Nat
  minInputDur : Durability
  durSet : Bool
  consumed : List (Query × AnswerKind)

structure SccMember (F : Type) where
  query : Query
  fp : Option F
  written : Bool

structure Scc (F : Type) where
  root : Query
  members : List (SccMember F)

/-- The engine's part of the database. `columns` holds the result of each
query and the content of each input; `cancelIn` counts the checks after which
the cancel request becomes visible. `tainted` is not in the source: it marks
the columns written by a body that was answered CANCELED. -/
structure Db (V F : Type) where
  slots : Query → Slot F
  columns : Query → V
  tainted : Query → Bool
  stack : List (Frame F)
  running : List Query
  scc : Option (Scc F)
  current : Nat
  request : Nat
  lastChanged : Durability → Nat
  cancelIn : Option Nat

/-- What an observer of the engine sees: each answer of `queryBegin`, each
slot accepted by its durability alone, each dep that a walk has pulled and
compares, and each body that ends. -/
inductive Event (V F : Type)
  | answered (q : Query) (r : BeginResult) (db : Db V F)
  | skipped (q : Query) (db : Db V F)
  | compared (dep : Dep F) (before after : Db V F)
  | finished (q : Query) (deps : List (Dep F)) (consumed : List (Query × AnswerKind))

structure State (V F : Type) extends Db V F where
  log : List (Event V F)

/-- The query bodies, with the values their wrappers return on a cycle and on
a cached failure, and the fingerprint they succeed with. -/
structure Family (V F : Type) where
  body : Query → Prog Query V
  bottom : Query → V
  onError : Query → V
  fingerprint : Query → V → Option F

variable {V F : Type}

abbrev Pull (V F : Type) := Query → State V F → Option (Answer V × State V F)

def revLimit : Nat := 2 ^ 31
def orphanThreshold : Nat := 8

namespace State

def modifySlot (s : State V F) (q : Query) (f : Slot F → Slot F) : State V F :=
  { s with slots := Function.update s.slots q (f (s.slots q)) }

def emit (s : State V F) (e : Event V F) : State V F := { s with log := s.log ++ [e] }

/-- A result column is written before the slot is settled. -/
def writeColumn (s : State V F) (q : Query) (v : V) (taint : Bool) : State V F :=
  { s with columns := Function.update s.columns q v, tainted := Function.update s.tainted q taint }

end State

def effectiveRevision (s : Db V F) : Nat := if s.request ≠ 0 then s.request else s.current

def checkCancel (s : State V F) : Bool × State V F :=
  match s.cancelIn with
  | none => (false, s)
  | some 0 => (true, s)
  | some (n + 1) => (false, { s with cancelIn := some n })

def depIndexKey (q : Query) : Nat := q.kind.ctorIdx * 2 ^ 56 + q.key % 2 ^ 56

/-- Record a child on a frame. The index is a hint: a hit counts only when the
row it names holds the same query. -/
def recordDep (frame : Frame F) (child : Query) (fp : Option F) (dur : Durability) : Frame F :=
  let ikey := depIndexKey child
  let row := frame.depIndex ikey
  let frame :=
    if row ≠ 0 ∧ frame.deps[row]?.map (·.query) = some child then
      { frame with deps := frame.deps.set row ⟨child, fp, dur⟩ }
    else
      { frame with
        deps := frame.deps ++ [⟨child, fp, dur⟩]
        depIndex := if row = 0 then Function.update frame.depIndex ikey frame.deps.length else frame.depIndex }
  { frame with
    minInputDur := if frame.durSet = false ∨ dur < frame.minInputDur then dur else frame.minInputDur
    durSet := true }

def recordDepOnParent (s : State V F) (child : Query) (fp : Option F) (dur : Durability) : State V F :=
  match s.stack with
  | top :: parent :: rest => { s with stack := top :: recordDep parent child fp dur :: rest }
  | _ => s

def queryStackPush (s : State V F) (q : Query) : State V F :=
  let slot := s.slots q
  { s with stack := ⟨q, slot.deps, slot.depIndex, .high, false, slot.consumed⟩ :: s.stack }

def queryStackPop (s : State V F) : State V F := { s with stack := s.stack.tail }

def trackRunning (s : State V F) (q : Query) : State V F := { s with running := s.running ++ [q] }

/-- The frame and its slot share one dependency buffer, so the slot sees what
was recorded on the frame. -/
def transferDeps (s : State V F) (q : Query) : State V F :=
  match s.stack with
  | [] => s
  | top :: _ => s.modifySlot q fun slot =>
      { slot with deps := top.deps, depIndex := top.depIndex, consumed := top.consumed }

def clearDeps (s : State V F) (q : Query) : State V F :=
  let s := s.modifySlot q fun slot => { slot with deps := [], depIndex := fun _ => 0, consumed := [] }
  match s.stack with
  | [] => s
  | top :: rest => { s with stack := { top with deps := [], depIndex := fun _ => 0, consumed := [] } :: rest }

def isLocated (s : Db V F) (q : Query) : Bool := !q.kind.isHashRouted || (s.slots q).routed

/-- An input's recompute thunk does nothing. -/
def recomputeDispatch (pull : Pull V F) (q : Query) (s : State V F) : Option (State V F) :=
  if q.kind.isInput then some s else (pull q s).map (·.2)

def sweepSlot (slot : Slot F) : Slot F :=
  if slot.state = .running then
    { slot with state := .empty, fingerprint := none, deps := [], depIndex := fun _ => 0, consumed := [] }
  else slot

variable [DecidableEq F]

/-- The walk over the recorded deps of the frame on top of the stack, from the
row `i` on. -/
def verifyWalk (pull : Pull V F) : Nat → Nat → State V F → Option (Bool × State V F)
  | 0, _, s => some (true, s)
  | n + 1, i, s =>
      match s.stack.head?.bind (·.deps[i]?) with
      | none => none
      | some dep =>
          let located := isLocated s.toDb dep.query
          match recomputeDispatch pull dep.query s with
          | none => none
          | some t =>
              let seen := t.emit (.compared dep s.toDb t.toDb)
              if located ∧ (t.slots dep.query).state = .done ∧ (t.slots dep.query).fingerprint = dep.fp then
                verifyWalk pull n (i + 1) seen
              else some (false, seen)

def engineVerify (pull : Pull V F) (q : Query) (s : State V F) : Option (Bool × State V F) :=
  let eff := effectiveRevision s.toDb
  let slot := s.slots q
  if slot.verifiedRev = eff then some (true, s)
  else if s.lastChanged slot.durability ≤ slot.verifiedRev then
    some (true, (s.emit (.skipped q s.toDb)).modifySlot q fun slot => { slot with verifiedRev := eff })
  else
    match verifyWalk pull ((s.stack.head?.map (·.deps.length)).getD 0) 0 s with
    | some (true, s) => some (true, s.modifySlot q fun slot => { slot with verifiedRev := eff })
    | r => r

def accept (prev : QueryState) (q : Query) (s : State V F) : State V F :=
  let s := s.modifySlot q fun slot => { slot with state := prev, verifiedRev := effectiveRevision s.toDb }
  let s := transferDeps s q
  queryStackPop (recordDepOnParent s q (s.slots q).fingerprint (s.slots q).durability)

/-- A stale slot starts over under the frame it was verified with. -/
def reject (q : Query) (s : State V F) : State V F :=
  trackRunning ((clearDeps s q).modifySlot q fun slot => { slot with fingerprint := none }) q

/-- A settled slot is verified under its own frame, and recomputed when that
fails. -/
def revalidate (pull : Pull V F) (prev : QueryState) (cachedResult : BeginResult) (q : Query) (s : State V F) :
    Option (BeginResult × State V F) :=
  let s := queryStackPush (s.modifySlot q fun slot => { slot with state := .running }) q
  match engineVerify pull q s with
  | none => none
  | some (true, s) => some (cachedResult, accept prev q s)
  | some (false, s) => some (.compute, reject q s)

def sccFind (members : List (SccMember F)) (q : Query) : Option (SccMember F) := members.find? (·.query == q)

/-- The queries of the frames from the re-entered one up to the top. -/
def cyclePath (root : Query) (stack : List (Frame F)) : List Query :=
  let path := stack.reverse.map (·.query)
  if root ∈ path then path.dropWhile (· != root) else path

/-- A new component takes the fixpoint queries of the cycle as members. -/
def enroll (root : Query) (s : State V F) : State V F :=
  let queries := ((cyclePath root s.stack).filter (·.kind.isFixpoint)).eraseDups
  { s with
    slots := fun q => if q ∈ queries then { s.slots q with provisional := true } else s.slots q
    scc := some ⟨root, queries.map fun q => ⟨q, none, false⟩⟩ }

/-- Re-entry of a running slot. -/
def enterCycle (q : Query) (s : State V F) : BeginResult × State V F :=
  if q.kind.isFixpoint then
    match s.scc with
    | none => (.cycleProvisional, enroll q s)
    | some _ => if (s.slots q).provisional then (.cycleProvisional, s) else (.cycle, s)
  else (.cycle, s)

def beginSlot (pull : Pull V F) (q : Query) (s : State V F) : Option (BeginResult × State V F) :=
  match (s.slots q).state with
  | .done => revalidate pull .done .cached q s
  | .error => revalidate pull .error .error q s
  | .running => some (enterCycle q s)
  | .empty =>
      let s := s.modifySlot q fun slot => { slot with state := .running }
      some (.compute, trackRunning (queryStackPush s q) q)

def queryBegin (pull : Pull V F) (q : Query) (s : State V F) : Option (BeginResult × State V F) :=
  let (canceled, s) := checkCancel s
  if canceled then some (.canceled, s) else beginSlot pull q s

def topConsumed (s : State V F) : List (Query × AnswerKind) := (s.stack.head?.map (·.consumed)).getD []

def topDurability (s : State V F) : Durability :=
  match s.stack.head? with
  | some top => if top.durSet then top.minInputDur else .low
  | none => .low

/-- Settle the query on top of the stack, unless the request was canceled:
then its slot stays running for the sweep. -/
def settle (q : Query) (outcome : QueryState) (fp : Option F) (s : State V F) : Bool × State V F :=
  let s := transferDeps s q
  let (canceled, s) := checkCancel s
  if canceled then (true, s)
  else
    let s := s.emit (.finished q (s.slots q).deps (topConsumed s))
    let dur := topDurability s
    (false, s.modifySlot q fun slot =>
      { slot with
        state := outcome, fingerprint := fp, verifiedRev := s.current, durability := dur, computedRev := s.current })

def querySucceed (q : Query) (fp : Option F) (s : State V F) : State V F :=
  let (canceled, s) := settle q .done fp s
  if canceled then queryStackPop s
  else queryStackPop (recordDepOnParent s q fp (s.slots q).durability)

def queryFail (q : Query) (s : State V F) : State V F := queryStackPop (settle q .error none s).2

def fixpointEnrolled (s : Db V F) (q : Query) : Bool := (s.slots q).provisional

def fixpointRecord (s : State V F) (q : Query) (fp : Option F) : State V F :=
  { s with scc := s.scc.map fun scc =>
      { scc with members := scc.members.map fun m => if m.query = q then { m with fp := fp, written := true } else m } }

def fixpointWritten (s : Db V F) (q : Query) : Bool :=
  match s.scc with
  | none => false
  | some scc => ((sccFind scc.members q).map (·.written)).getD false

def fixpointIsRoot (s : Db V F) (q : Query) : Bool := (s.scc.map (·.root)) == some q

def provisionalPop (s : State V F) (q : Query) : State V F := queryStackPop (transferDeps s q)

def noteConsumed (c : Query) (kind : AnswerKind) (s : State V F) : State V F :=
  match s.stack with
  | [] => s
  | top :: rest => { s with stack := { top with consumed := top.consumed ++ [(c, kind)] } :: rest }

def runBody (pull : Pull V F) : Prog Query V → Bool → State V F → Option (Outcome V × Bool × State V F)
  | .ret v, seen, s => some (.ok v, seen, s)
  | .fail, seen, s => some (.failed, seen, s)
  | .demand c next, seen, s =>
      match pull c s with
      | none => none
      | some (answer, s) =>
          runBody pull (next answer.value) (seen || answer.kind == .canceled) (noteConsumed c answer.kind s)

/-- The compute half of a wrapper: run the body, write the column, then settle
the slot, or leave an enrolled member provisional. -/
def compute (fam : Family V F) (pull : Pull V F) (q : Query) (s : State V F) : Option (Answer V × State V F) :=
  match runBody pull (fam.body q) false s with
  | none => none
  | some (.failed, _, s) =>
      some (⟨fam.onError q, if (checkCancel s).1 then .abandoned else .failed⟩, queryFail q s)
  | some (.ok v, seen, s) =>
      let s := s.writeColumn q v seen
      if q.kind.isFixpoint ∧ fixpointEnrolled s.toDb q then
        some (⟨v, .provisional⟩, provisionalPop (fixpointRecord s q (fam.fingerprint q v)) q)
      else
        some (⟨v, if (checkCancel s).1 then .abandoned else .succeeded⟩, querySucceed q (fam.fingerprint q v) s)

def sccRerunMember (fam : Family V F) (pull : Pull V F) (q : Query) (s : State V F) : Option (State V F) :=
  let s := s.modifySlot q fun slot => { slot with deps := [], depIndex := fun _ => 0, consumed := [] }
  (compute fam pull q (queryStackPush s q)).map (·.2)

def sccQueries (s : Db V F) : List Query := (s.scc.map fun scc => scc.members.map (·.query)).getD []

def memberFp (s : Db V F) (q : Query) : Option F :=
  (s.scc.bind fun scc => sccFind scc.members q).bind (·.fp)

def drivePass (fam : Family V F) (pull : Pull V F) : List Query → Bool → State V F → Option (Bool × State V F)
  | [], changed, s => some (changed, s)
  | q :: rest, changed, s =>
      let before := memberFp s.toDb q
      match sccRerunMember fam pull q s with
      | none => none
      | some s => drivePass fam pull rest (changed || memberFp s.toDb q != before) s

def driveLoop (fam : Family V F) (pull : Pull V F) (members : List Query) :
    Nat → State V F → Option (State V F)
  | 0, s => some s
  | cap + 1, s =>
      match drivePass fam pull members false s with
      | none => none
      | some (true, s) => driveLoop fam pull members cap s
      | some (false, s) => some s

def finalize : List Query → State V F → State V F
  | [], s => s
  | q :: rest, s =>
      let fp := memberFp s.toDb q
      let s := s.modifySlot q fun slot => { slot with provisional := false }
      finalize rest (querySucceed q fp (queryStackPush s q))

/-- Iterate the members of the active component until no fingerprint moves,
then settle them. -/
def fixpointDrive (fam : Family V F) (pull : Pull V F) (s : State V F) : Option (State V F) :=
  match s.scc with
  | none => some s
  | some _ =>
      let members := sccQueries s.toDb
      match driveLoop fam pull members (members.length * 64 + 32) s with
      | none => none
      | some s => some { finalize members s with scc := none }

def computeAndDrive (fam : Family V F) (pull : Pull V F) (q : Query) (s : State V F) : Option (Answer V × State V F) :=
  match compute fam pull q s with
  | none => none
  | some (answer, s) =>
      if q.kind.isFixpoint ∧ fixpointIsRoot s.toDb q then
        (fixpointDrive fam pull s).map fun t =>
          (⟨t.columns q, if (checkCancel t).1 then .abandoned else if q ∈ sccQueries
            s.toDb then .succeeded else answer.kind⟩, t)
      else some (answer, s)

variable [Inhabited V]

/-- A hash-routed query gets a zeroed row on first use. -/
def slotAlloc (s : State V F) (q : Query) : State V F :=
  if isLocated s.toDb q then s
  else (s.modifySlot q fun _ => { Slot.zero F with routed := true }).writeColumn q default false

/-- What a wrapper returns for each answer of `queryBegin`. A computed input is
an assertion failure. -/
def answerOf (fam : Family V F) (pull : Pull V F) (q : Query) (r : BeginResult) (s : State V F) :
    Option (Answer V × State V F) :=
  match r with
  | .cached => some (⟨s.columns q, .cached⟩, s)
  | .cycle => some (⟨fam.bottom q, .cycle⟩, s)
  | .canceled => some (⟨fam.bottom q, .canceled⟩, s)
  | .error => some (⟨fam.onError q, .cachedError⟩, s)
  | .cycleProvisional =>
      some (⟨if fixpointWritten s.toDb q then s.columns q else fam.bottom q, .provisional⟩, s)
  | .compute => if q.kind.isInput then none else computeAndDrive fam pull q s

/-- The public wrapper of a query, with the wrappers of the queries it demands
as a parameter. -/
def demandWith (fam : Family V F) (pull : Pull V F) (q : Query) (s : State V F) : Option (Answer V × State V F) :=
  match queryBegin pull q (slotAlloc s q) with
  | none => none
  | some (r, s) => answerOf fam pull q r (s.emit (.answered q r s.toDb))

def demand (fam : Family V F) : Nat → Pull V F
  | 0 => fun _ _ => none
  | depth + 1 => demandWith fam (demand fam depth)

def engineSweepRunning (s : State V F) : State V F :=
  { s with slots := fun q => if q ∈ s.running then sweepSlot (s.slots q) else s.slots q, running := [] }

def reclaimOrphans (s : State V F) (threshold : Nat) : State V F :=
  { s with slots := fun q =>
      let slot := s.slots q
      if q.kind.isInput = false ∧ slot.state ≠ .empty ∧ slot.verifiedRev < threshold then
        { slot with
          state := .empty, fingerprint := none, durability := .low, deps := [], depIndex := fun _ => 0
          computedRev := 0, consumed := [], routed := slot.routed && !q.kind.isHashRouted }
      else slot }

def engineCompact (s : State V F) : State V F :=
  if s.current > orphanThreshold then reclaimOrphans s (s.current - orphanThreshold) else s

def inputSet (fam : Family V F) (q : Query) (v : V) (dur : Durability) (s : State V F) : State V F :=
  (s.modifySlot q fun slot =>
    { slot with
      state := .done, fingerprint := fam.fingerprint q v, durability := dur, verifiedRev := s.current
      computedRev := s.current }).writeColumn q v false

/-- The revision counter has 31 bits; the stamps take its successor whole. -/
def inputChanged (dur : Durability) (s : State V F) : State V F :=
  { s with
    current := (s.current + 1) % revLimit
    lastChanged := fun d => if d ≤ dur then s.current + 1 else s.lastChanged d }

/-- `sourceEdit` is the order of `db_set_source_text`, which bumps the revision
before it stamps the slot, at the tier last given to `db_set_source_durability`. -/
inductive Op (V : Type)
  | edit (q : Query) (v : V) (dur : Durability)
  | sourceEdit (q : Query) (v : V) (dur : Durability)
  | requestBegin (revision : Nat)
  | requestEnd
  | demand (q : Query)
  | cancel (checks : Nat)

/-- One operation of a client. `none` is a failed assertion, or a demand
nested too deep. -/
def step (fam : Family V F) (depth : Nat) (s : State V F) : Op V → Option (State V F)
  | .edit q v dur =>
      if q.kind.isInput ∧ s.request = 0 then some (inputChanged dur (inputSet fam q v dur s)) else none
  | .sourceEdit q v dur =>
      if q.kind.isInput ∧ s.request = 0 then some (inputSet fam q v dur (inputChanged dur s)) else none
  | .requestBegin revision =>
      if revision ≠ 0 ∧ s.stack = [] ∧ revision ≤ s.current then
        some { s with
          request := revision % 2 ^ 32
          cancelIn := if s.cancelIn = some 0 then none else s.cancelIn
          running := [] }
      else none
  | .requestEnd =>
      if s.stack = [] ∧ s.request ≠ 0 then
        some (engineCompact { engineSweepRunning s with request := 0 })
      else none
  | .demand q => (demand fam depth q s).map (·.2)
  | .cancel checks => some { s with cancelIn := some (min checks (s.cancelIn.getD checks)) }

def run (fam : Family V F) (depth : Nat) (ops : List (Op V)) (s : State V F) : Option (State V F) :=
  ops.foldlM (step fam depth) s

def initial (V F : Type) [Inhabited V] : State V F where
  slots := fun _ => Slot.zero F
  columns := fun _ => default
  tainted := fun _ => false
  stack := []
  running := []
  scc := none
  current := 1
  request := 0
  lastChanged := fun _ => 1
  cancelIn := none
  log := []

end Ore.EngineModel
