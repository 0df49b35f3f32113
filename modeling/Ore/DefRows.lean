import Ore.EngineModel
import Ore.HeapLedger
import Ore.NamespaceItems

namespace Ore.DefRows

open EngineModel (QueryState Durability)
open HeapLedger (Ledger)
open NamespaceItems (DefKind)

inductive ResultColumn
  | type | typeResult | signatureResult | signatureShapeResult | bodyNodeTypes | bodyEffectRow | body
  | fnBodyDiags | signatureDiags | fieldLo | fieldLen | variantLo | variantLen | opLo | opLen
  deriving DecidableEq, Repr

/-- The slots of a per-DefId query, each a hot and a cold column. -/
inductive SlotColumn
  | type | signature | signatureShape | infer | bodyScopes | bodyReferences | declAstMap | constEval
  deriving DecidableEq, Repr

inductive Column
  | result (c : ResultColumn)
  | hot (q : SlotColumn)
  | cold (q : SlotColumn)
  deriving DecidableEq, Repr

def slotColumns (qs : List SlotColumn) : List Column := qs.flatMap fun q => [.hot q, .cold q]

def oreFnsColumns : List Column :=
  [.type, .signatureResult, .signatureShapeResult, .bodyNodeTypes, .bodyEffectRow, .body, .fnBodyDiags,
    .signatureDiags].map .result ++
    slotColumns [.type, .signature, .signatureShape, .infer, .bodyScopes, .bodyReferences, .declAstMap]

def oreStructsColumns : List Column :=
  [.typeResult, .fieldLo, .fieldLen].map .result ++ slotColumns [.type, .declAstMap]

def oreUnionsColumns : List Column := [.type, .fieldLo, .fieldLen].map .result ++ slotColumns [.type, .declAstMap]

def oreEnumsColumns : List Column := [.type, .variantLo, .variantLen].map .result ++ slotColumns [.type, .declAstMap]

def oreEffectsColumns : List Column := [.type, .opLo, .opLen].map .result ++ slotColumns [.type, .declAstMap]

def oreDistinctsColumns : List Column := [.type].map .result ++ slotColumns [.type, .declAstMap]

def oreVariablesColumns : List Column := [.typeResult].map .result ++ slotColumns [.type, .declAstMap]

def oreConstantsColumns : List Column := [.typeResult].map .result ++ slotColumns [.type, .constEval, .declAstMap]

def columns : DefKind → List Column
  | .none => []
  | .function => oreFnsColumns
  | .struct => oreStructsColumns
  | .union => oreUnionsColumns
  | .enum => oreEnumsColumns
  | .effect => oreEffectsColumns
  | .variable => oreVariablesColumns
  | .constant => oreConstantsColumns
  | .distinct => oreDistinctsColumns

def countSource : DefKind → Column
  | .struct | .variable | .constant => .result .typeResult
  | _ => .result .type

/-- A cell that owns memory: a result map or a diagnostics bundle of a row, the deps and
the dep index of a slot, and the two bundles that belong to the definition itself. -/
inductive Place
  | result (k : DefKind) (c : ResultColumn) (row : Nat)
  | deps (k : DefKind) (q : SlotColumn) (row : Nat)
  | depIndex (k : DefKind) (q : SlotColumn) (row : Nat)
  | typeOfDeclDiags (d : Nat)
  | declAstIdMap (d : Nat)
  deriving DecidableEq, Repr

structure Hot where
  state : QueryState
  durability : Durability
  fingerprint : Option Nat
  verifiedRev : Nat
  deriving DecidableEq, Repr

structure Cold where
  computedRev : Nat
  routingKey : Nat
  deriving DecidableEq, Repr

def Hot.zero : Hot := ⟨.empty, .low, none, 0⟩
def Cold.zero : Cold := ⟨0, 0⟩

/-- The columns of the definitions, and the per-kind tables: the count of each column,
the cells of the slots, and what the cells own. -/
structure Db where
  names : List Nat
  parentModules : List Nat
  kinds : List DefKind
  kindRow : List Nat
  identityKeys : List Nat
  typeOfDeclDiags : Nat
  declAstIdMaps : Nat
  counts : DefKind → Column → Nat
  hot : DefKind → SlotColumn → Nat → Hot
  cold : DefKind → SlotColumn → Nat → Cold
  heaps : Ledger Place

/-- Every column starts with the zero row of the sentinel. -/
def dbIdsInit : Db where
  names := [0]
  parentModules := [0]
  kinds := [.none]
  kindRow := [0]
  identityKeys := [0]
  typeOfDeclDiags := 1
  declAstIdMaps := 1
  counts := fun k c => if c ∈ columns k then 1 else 0
  hot := fun _ _ _ => .zero
  cold := fun _ _ _ => .zero
  heaps := .empty

def Place.cell : Place → Option (DefKind × Column × Nat)
  | .result k c i => some (k, .result c, i)
  | .deps k q i | .depIndex k q i => some (k, .hot q, i)
  | .typeOfDeclDiags _ | .declAstIdMap _ => none

/-- The maps and bundles embedded in the result of a slot. -/
def heapColumns (k : DefKind) : SlotColumn → List ResultColumn
  | .type =>
      match k with
      | .struct | .variable | .constant => [.typeResult]
      | _ => []
  | .signature => [.signatureResult]
  | .signatureShape => [.signatureShapeResult, .signatureDiags]
  | .infer => [.bodyNodeTypes, .fnBodyDiags]
  | .bodyScopes => [.body]
  | .bodyReferences | .declAstMap | .constEval => []

/-- TYPE_OF_DECL also owns the bundle and the map of its definition. -/
def resultHeaps (k : DefKind) (q : SlotColumn) (i d : Nat) : List Place :=
  (heapColumns k q).map (.result k · i) ++ if q = .type then [.typeOfDeclDiags d, .declAstIdMap d] else []

def typeSlots (k : DefKind) : List SlotColumn :=
  match k with
  | .none => []
  | .function => [.type, .declAstMap, .signature, .signatureShape, .infer, .bodyScopes, .bodyReferences]
  | _ => [.type, .declAstMap]

/-- A map is freed before it is written again, and a bundle keeps its memory. -/
inductive Write
  | overwrite (p : Place)
  | refill (p : Place)

/-- What the body of a query writes, in order. -/
def bodyWrites (k : DefKind) (q : SlotColumn) (i d : Nat) : List Write :=
  match q with
  | .type =>
      .refill (.typeOfDeclDiags d) :: (if k = .function then [] else [.overwrite (.declAstIdMap d)]) ++
        (heapColumns k .type).map fun c => .overwrite (.result k c i)
  | .signature => [.overwrite (.result k .signatureResult i)]
  | .signatureShape =>
      [.refill (.result k .signatureDiags i), .overwrite (.declAstIdMap d),
        .overwrite (.result k .signatureShapeResult i)]
  | .infer => [.refill (.result k .fnBodyDiags i), .overwrite (.result k .bodyNodeTypes i)]
  | .bodyScopes => [.overwrite (.declAstIdMap d), .overwrite (.result k .body i)]
  | .declAstMap => [.overwrite (.declAstIdMap d)]
  | .bodyReferences | .constEval => []

/-- How a computation ends. A canceled one leaves its slot to the sweep. -/
inductive Outcome
  | succeed (fp : Option Nat) (dur : Durability)
  | fail (dur : Durability)
  | canceled

/-- A run of a body: the writes it comes to, each with whether the new value owns memory,
and whether it records a dep. -/
structure Body where
  written : Place → Option Bool
  records : Bool

def revLimit : Nat := 2 ^ 31

def uint64Max : Nat := 2 ^ 64 - 1

namespace Db

/-- Every column of the definitions grows by a zero row. -/
def createDef (db : Db) : Nat × Db :=
  (db.names.length % 2 ^ 32,
    { db with
      names := db.names ++ [0], parentModules := db.parentModules ++ [0], kinds := db.kinds ++ [.none]
      kindRow := db.kindRow ++ [0], identityKeys := db.identityKeys ++ [0]
      typeOfDeclDiags := db.typeOfDeclDiags + 1, declAstIdMaps := db.declAstIdMaps + 1
      heaps := db.heaps.wipe fun p => p = .typeOfDeclDiags db.typeOfDeclDiags ∨ p = .declAstIdMap db.declAstIdMaps })

def kind (db : Db) (d : Nat) : DefKind := (db.kinds[d]?).getD .none

def row (db : Db) (d : Nat) : Nat := (db.kindRow[d]?).getD 0

def setHot (db : Db) (k : DefKind) (q : SlotColumn) (i : Nat) (slot : Hot) : Db :=
  { db with hot := fun k' q' i' => if k' = k ∧ q' = q ∧ i' = i then slot else db.hot k' q' i' }

def setCold (db : Db) (k : DefKind) (q : SlotColumn) (i : Nat) (slot : Cold) : Db :=
  { db with cold := fun k' q' i' => if k' = k ∧ q' = q ∧ i' = i then slot else db.cold k' q' i' }

/-- A cell that the next row of a kind takes. -/
def IsNext (db : Db) (k k' : DefKind) (c : Column) (i : Nat) : Prop := k' = k ∧ c ∈ columns k ∧ i = db.counts k c

instance (db : Db) (k k' : DefKind) (c : Column) (i : Nat) : Decidable (db.IsNext k k' c i) :=
  inferInstanceAs (Decidable (_ ∧ _ ∧ _))

def pushRow (db : Db) (k : DefKind) : Db :=
  { db with
    counts := fun k' c => if k' = k ∧ c ∈ columns k then db.counts k' c + 1 else db.counts k' c
    hot := fun k' q i => if db.IsNext k k' (.hot q) i then .zero else db.hot k' q i
    cold := fun k' q i => if db.IsNext k k' (.cold q) i then .zero else db.cold k' q i
    heaps := db.heaps.wipe fun p => p.cell.any fun (k', c, i) => db.IsNext k k' c i }

/-- A cell out of range owns nothing, so its bounds are not checked. -/
def freeTypeSlotResultHeap (db : Db) (q : SlotColumn) (k : DefKind) (i d : Nat) : Db :=
  { db with heaps := db.heaps.releaseAll (resultHeaps k q i d) }

def freeDeps (db : Db) (k : DefKind) (q : SlotColumn) (i : Nat) : Db :=
  { db with heaps := db.heaps.releaseAll [.deps k q i, .depIndex k q i] }

def reclaimSlot (db : Db) (k : DefKind) (q : SlotColumn) (i : Nat) : Db :=
  ((db.setHot k q i { db.hot k q i with state := .empty, fingerprint := none, durability := .low }).freeDeps k q
    i).setCold k q i { db.cold k q i with computedRev := 0 }

def reclaimOneTypeSlot (q : SlotColumn) (k : DefKind) (i d threshold : Nat) (db : Db) : Db :=
  if db.counts k (.hot q) ≤ i then db
  else if (db.hot k q i).state = .empty then db
  else if threshold ≤ (db.hot k q i).verifiedRev then db
  else (db.freeTypeSlotResultHeap q k i d).reclaimSlot k q i

def reclaimDefTypeSlots (db : Db) (k : DefKind) (i d threshold : Nat) : Db :=
  (typeSlots k).foldl (fun db q => reclaimOneTypeSlot q k i d threshold db) db

def engineReclaimRetypedSlots (db : Db) (oldKind : DefKind) (oldRow d : Nat) : Db :=
  db.reclaimDefTypeSlots oldKind oldRow d uint64Max

/-- The walk over the definitions skips DEF_ID_NONE. -/
def reclaimTypeSlots (db : Db) (threshold : Nat) : Db :=
  (List.range' 1 (db.kinds.length - 1)).foldl
    (fun db d => if db.kind d = .none then db else db.reclaimDefTypeSlots (db.kind d) (db.row d) d threshold) db

/-- Classify a definition. A failed assertion is `none`. -/
def defSetKind (db : Db) (d : Nat) (kind : DefKind) : Option Db :=
  if db.kinds.length ≤ d then none
  else if db.kind d = kind then some db
  else if kind = .none then none
  else
    let oldKind := db.kind d
    let oldRow := db.row d
    let row := db.counts kind (countSource kind) % 2 ^ 32
    let db := db.pushRow kind
    let db := if oldKind = .none then db else db.engineReclaimRetypedSlots oldKind oldRow d
    some { db with kinds := db.kinds.set d kind, kindRow := db.kindRow.set d row }

def routeSlot (db : Db) (q : SlotColumn) (d : Nat) : Option (DefKind × Nat) :=
  if d < db.kinds.length ∧ q ∈ typeSlots (db.kind d) then some (db.kind d, db.row d) else none

def write (b : Body) (db : Db) : Write → Db
  | .overwrite p => ((b.written p).map fun fresh => { db with heaps := db.heaps.overwrite p fresh }).getD db
  | .refill p => ((b.written p).map fun fresh => { db with heaps := db.heaps.refill p fresh }).getD db

def begin (db : Db) (k : DefKind) (q : SlotColumn) (i d : Nat) : Db :=
  let slot := db.hot k q i
  (if slot.state = .empty then db.setCold k q i { db.cold k q i with routingKey := d } else db).setHot k q i
    { slot with state := .running }

def recordDeps (db : Db) (k : DefKind) (q : SlotColumn) (i : Nat) (b : Body) : Db :=
  { db with heaps := (db.heaps.refill (.deps k q i) b.records).refill (.depIndex k q i) b.records }

/-- Settle a slot at the current revision, or sweep it. -/
def settle (db : Db) (k : DefKind) (q : SlotColumn) (i rev : Nat) : Outcome → Db
  | .succeed fp dur =>
      (db.setHot k q i ⟨.done, dur, fp, rev % revLimit⟩).setCold k q i
        { db.cold k q i with computedRev := rev % revLimit }
  | .fail dur =>
      (db.setHot k q i ⟨.error, dur, none, rev % revLimit⟩).setCold k q i
        { db.cold k q i with computedRev := rev % revLimit }
  | .canceled =>
      (db.setHot k q i { db.hot k q i with state := .empty, fingerprint := none }).freeDeps k q i

/-- The body of a query of a definition runs. -/
def compute (db : Db) (q : SlotColumn) (d rev : Nat) (b : Body) (outcome : Outcome) : Option Db :=
  (db.routeSlot q d).map fun (k, i) =>
    (((bodyWrites k q i d).foldl (write b) (db.begin k q i d)).recordDeps k q i b).settle k q i rev outcome

/-- A settled slot is found valid. -/
def verify (db : Db) (q : SlotColumn) (d rev : Nat) : Option Db :=
  (db.routeSlot q d).map fun (k, i) =>
    if (db.hot k q i).state = .empty then db
    else db.setHot k q i { db.hot k q i with verifiedRev := rev % revLimit }

end Db

inductive Op
  | createDef
  | defSetKind (d : Nat) (kind : DefKind)
  | compute (q : SlotColumn) (d rev : Nat) (b : Body) (outcome : Outcome)
  | verify (q : SlotColumn) (d rev : Nat)
  | reclaim (threshold : Nat)

def step (db : Db) : Op → Option Db
  | .createDef => some db.createDef.2
  | .defSetKind d kind => db.defSetKind d kind
  | .compute q d rev b outcome => db.compute q d rev b outcome
  | .verify q d rev => db.verify q d rev
  | .reclaim threshold => some (db.reclaimTypeSlots threshold)

end Ore.DefRows
