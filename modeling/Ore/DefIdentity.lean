import Ore.AstIds
import Ore.DefRowOwnership
import Ore.Loop
import Ore.NamespaceFingerprints
import Ore.SlotRows

namespace Ore.DefIdentity

open AstIds DefRows
open EngineModel (QueryState orphanThreshold)
open NamespaceFingerprints (stableSort)
open NamespaceItems (DefKind Qsort)
open SlotRows (Table Cells Hot Rows)

/-- The fields of a NamespaceItem that DEF_IDENTITY reads, beside the id. -/
structure Item where
  name : UInt32
  kind : DefKind
  deriving DecidableEq, Repr

def Item.id (it : Item) : UInt32 := astIdCompute it.name

def namespaceItems (q : Qsort) (found : List Item) : List Item := q.sort (·.id.toNat) found

def identityKey (ns id : UInt32) : UInt64 := ns.toUInt64 <<< 32 ||| id.toUInt64

/-- The arguments that recompute_DEF_IDENTITY finds in a key. -/
def identityArgs (key : UInt64) : UInt32 × UInt32 := ((key >>> 32).toUInt32, key.toUInt32)

def findTurn (arr : List Item) (id : UInt32) (range : Nat × Nat) : (Nat × Nat) ⊕ Option Item :=
  if range.1 < range.2 then
    let mid := range.1 + (range.2 - range.1) / 2
    match arr[mid]? with
    | none => .inr none
    | some it =>
        if it.id < id then .inl (mid + 1, range.2)
        else if id < it.id then .inl (range.1, mid)
        else .inr (some it)
  else .inr none

def findItem (arr : List Item) (id : UInt32) : Option Item :=
  (Loop.run (findTurn arr id) (arr.length + 1) (0, arr.length)).join

/-- The definitions, the slots of DEF_IDENTITY, what the files of each namespace declare,
and the current revision. -/
structure World where
  db : Db
  table : Table Nat Unit Nat
  items : UInt32 → List Item
  current : Nat

def identityRead (t : Table Nat Unit Nat) (key : UInt64) : Nat := ((t.view key).map (·.result)).getD 0

/-- How the guard of a query ends. A canceled computation has seen only `seen` of the
items. -/
inductive Guard
  | refused
  | cached (eff : Nat)
  | compute (seen : Option (List Item))

def writeDefIdentity (db : Db) (d : Nat) (name ns id : UInt32) : Db :=
  { db with
    names := db.names.set d name.toNat, parentModules := db.parentModules.set d ns.toNat
    identityKeys := db.identityKeys.set d id.toNat }

def mint (db : Db) (ns id : UInt32) (it : Item) (stored : Nat) : Nat × Db :=
  if stored = 0 then (db.createDef.1, writeDefIdentity db.createDef.2 db.createDef.1 it.name ns id) else (stored, db)

def classify (db : Db) (d : Nat) (kind : DefKind) : Option Db :=
  if d ≠ 0 ∧ kind ≠ .none then db.defSetKind d kind else some db

def resolve (db : Db) (ns id : UInt32) (arr : List Item) (stored : Nat) : Option (Nat × Db) :=
  match findItem arr id with
  | none => some (0, db)
  | some it =>
      let (d, db) := mint db ns id it stored
      (classify db d it.kind).map (d, ·)

/-- A canceled computation has written its result, and the sweep empties its slot. The
deps and the durability of the slot play no part. -/
def settled (c : Cells Nat Unit Nat) (d : Nat) (canceled : Bool) (rev : Nat) : Cells Nat Unit Nat :=
  if canceled then { c with result := d, hot := { c.hot with state := .empty, fingerprint := none } }
  else
    { c with
      result := d
      hot := { c.hot with state := .done, fingerprint := if d = 0 then none else some d, verifiedRev := rev }
      cold := { c.cold with computedRev := rev } }

/-- Gives the DefId. A guard that cannot end so, and a failed assertion, are `none`. -/
def queryDefIdentity (q : Qsort) (w : World) (ns id : UInt32) (g : Guard) : Option (Nat × World) :=
  let key := identityKey ns id
  let t := w.table.slotAlloc key
  match g with
  | .refused => some (0, { w with table := t })
  | .cached eff => (t.view key).bind fun c =>
      if c.hot.state = .done then
        some (c.result, { w with table := t.compute key { c with hot := { c.hot with verifiedRev := eff } } })
      else none
  | .compute seen => (t.view key).bind fun c =>
      if seen.all (·.isSublist (w.items ns)) then
        (resolve w.db ns id (namespaceItems q (seen.getD (w.items ns))) c.result).map fun (d, db) =>
          (d, { w with db := db, table := t.compute key (settled c d seen.isSome w.current) })
      else none

inductive Op
  | edit (ns : UInt32) (found : List Item)
  | identity (ns name : UInt32) (g : Guard)
  | requestEnd

def step (q : Qsort) (w : World) : Op → Option (Nat × World)
  | .edit ns found =>
      some (0, { w with items := Function.update w.items ns found, current := (w.current + 1) % revLimit })
  | .identity ns name g => queryDefIdentity q w ns (astIdCompute name) g
  | .requestEnd =>
      let threshold := if w.current > orphanThreshold then w.current - orphanThreshold else 0
      some (0, if threshold > 0 then
        { w with table := w.table.reclaimHashmapKind id threshold, db := w.db.reclaimTypeSlots threshold } else w)

/-- The primitive types have the first DefIds. -/
def seedPrimitives (primitives : List UInt32) (db : Db) : Db :=
  primitives.foldl (fun db name =>
    { db.createDef.2 with names := db.createDef.2.names.set db.createDef.1 name.toNat }) db

def start (primitives : List UInt32) : World :=
  ⟨seedPrimitives primitives dbIdsInit, .initial, fun _ => [], 1⟩

end Ore.DefIdentity
