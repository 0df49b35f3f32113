import Ore.Probing
import Mathlib.Data.Finmap

namespace Ore.HashMapModel

open Probing

def minCapacity : Nat := 16
def maxLoadNumerator : Nat := 7
def maxLoadDenominator : Nat := 10
def sizeMax : Nat := 2 ^ 64 - 1

def hashU64 (key : UInt64) : UInt64 :=
  let key := key ^^^ (key >>> 30)
  let key := key * 0xbf58476d1ce4e5b9
  let key := key ^^^ (key >>> 27)
  let key := key * 0x94d049bb133111eb
  key ^^^ (key >>> 31)

/-- An open-addressed map. The key, value and occupied columns are one table
of optional entries; a map without a backing block has capacity zero. -/
structure HashMap (V : Type) where
  slots : Table UInt64 V
  count : Nat
  capacity : Nat

variable {V : Type}

def hashmapInit : HashMap V := ⟨fun _ => none, 0, 0⟩

def index (capacity : Nat) (key : UInt64) : Nat := (hashU64 key).toNat &&& (capacity - 1)

def maskNext (capacity i : Nat) : Nat := (i + 1) &&& (capacity - 1)

/-- Doubling until the requested size is reached; zero reports overflow. -/
def nextCapacity (current least : Nat) : Option Nat :=
  if current ≠ 0 ∧ current > sizeMax / 2 then some 0
  else
    Loop.run (fun capacity =>
      if capacity < least then
        if capacity > sizeMax / 2 then .inr 0 else .inl (capacity * 2)
      else .inr capacity)
      64 (max (if current ≠ 0 then current * 2 else minCapacity) minCapacity)

def insertExisting (capacity : Nat) (st : Table UInt64 V) (key : UInt64) (value : V) :
    Option (Table UInt64 V) :=
  (probe capacity (maskNext capacity) (fun _ => false) st (index capacity key)).map
    (fun i => Function.update st i (some (key, value)))

def rehash (capacity : Nat) (slots : Table UInt64 V) (st : Table UInt64 V) (i : Nat) :
    Option (Table UInt64 V) :=
  match slots i with
  | none => some st
  | some (key, value) => insertExisting capacity st key value

/-- `allocOk` is the allocator's answer for the new block. The flag of the
result is the returned boolean. -/
def hashmapGrow (allocOk : Bool) (map : HashMap V) (least : Nat) : Option (HashMap V × Bool) :=
  (nextCapacity map.capacity least).bind fun capacity =>
    if capacity = 0 then some (map, false)
    else if !allocOk then some (map, false)
    else ((List.range map.capacity).foldlM (rehash capacity map.slots) (fun _ => none)).map
      (fun slots => (⟨slots, map.count, capacity⟩, true))

def maxCount (capacity : Nat) : Nat :=
  capacity / maxLoadDenominator * maxLoadNumerator +
    capacity % maxLoadDenominator * maxLoadNumerator / maxLoadDenominator

def hashmapNeedsGrow (map : HashMap V) : Bool :=
  map.capacity = 0 || map.count = sizeMax || map.count + 1 > maxCount map.capacity

def putRoom (map : HashMap V) (key : UInt64) (value : V) : Option (HashMap V × Bool) :=
  (probe map.capacity (maskNext map.capacity) (· == key) map.slots (index map.capacity key)).map fun i =>
    match map.slots i with
    | some _ => ({ map with slots := Function.update map.slots i (some (key, value)) }, true)
    | none => (⟨Function.update map.slots i (some (key, value)), map.count + 1, map.capacity⟩, true)

def hashmapPut (allocOk : Bool) (map : HashMap V) (key : UInt64) (value : V) : Option (HashMap V × Bool) :=
  if hashmapNeedsGrow map then
    if map.capacity = sizeMax then some (map, false)
    else (hashmapGrow allocOk map (map.capacity + 1)).bind fun
      | (map, false) => some (map, false)
      | (map, true) => putRoom map key value
  else putRoom map key value

/-- `null` is what a missing key reads as. -/
def hashmapGet (null : V) (map : HashMap V) (key : UInt64) : Option V :=
  if map.capacity = 0 then some null
  else (probe map.capacity (maskNext map.capacity) (· == key) map.slots (index map.capacity key)).map fun i =>
    match map.slots i with
    | some (_, value) => value
    | none => null

def hashmapContains (map : HashMap V) (key : UInt64) : Option Bool :=
  if map.capacity = 0 then some false
  else (probe map.capacity (maskNext map.capacity) (· == key) map.slots (index map.capacity key)).map fun i =>
    (map.slots i).isSome

def hashmapClear (map : HashMap V) : HashMap V :=
  if map.capacity = 0 then map else ⟨fun _ => none, 0, map.capacity⟩

/-- Locate the key, then close the hole by backward shift. The two nested
loops of the cleanup are one scan whose hole moves to the slot it last emptied. -/
def hashmapRemove (map : HashMap V) (key : UInt64) : Option (HashMap V × Bool) :=
  if map.capacity = 0 then some (map, false)
  else (probe map.capacity (maskNext map.capacity) (· == key) map.slots (index map.capacity key)).bind fun i =>
    match map.slots i with
    | none => some (map, false)
    | some _ => (shift map.capacity (maskNext map.capacity) (index map.capacity) map.slots i).map
        (fun slots => (⟨slots, map.count - 1, map.capacity⟩, true))

inductive Op (V : Type)
  | put (key : UInt64) (value : V) (allocOk : Bool)
  | get (key : UInt64)
  | contains (key : UInt64)
  | remove (key : UInt64)
  | clear

inductive Answer (V : Type)
  | stored (ok : Bool)
  | value (v : V)
  | present (found : Bool)
  | removed (found : Bool)
  | cleared

def step (null : V) (map : HashMap V) : Op V → Option (HashMap V × Answer V)
  | .put key value allocOk => (hashmapPut allocOk map key value).map fun r => (r.1, .stored r.2)
  | .get key => (hashmapGet null map key).map fun v => (map, .value v)
  | .contains key => (hashmapContains map key).map fun b => (map, .present b)
  | .remove key => (hashmapRemove map key).map fun r => (r.1, .removed r.2)
  | .clear => some (hashmapClear map, .cleared)

def run (null : V) : HashMap V → List (Op V) → Option (HashMap V × List (Answer V))
  | map, [] => some (map, [])
  | map, op :: ops => (step null map op).bind fun r =>
      (run null r.1 ops).map fun q => (q.1, r.2 :: q.2)

/-- The finite map the operations are meant to work on. A put may be refused
only when the allocator refuses or the map is beyond any addressable size. -/
inductive SpecStep (null : V) : Finmap (fun _ : UInt64 => V) → Op V → Answer V →
    Finmap (fun _ : UInt64 => V) → Prop
  | put (a) (key) (value) (allocOk) : SpecStep null a (.put key value allocOk) (.stored true) (a.insert key value)
  | refused (a) (key) (value) (allocOk) (h : allocOk = false ∨ 2 ^ 62 ≤ a.keys.card) :
      SpecStep null a (.put key value allocOk) (.stored false) a
  | get (a) (key) : SpecStep null a (.get key) (.value ((a.lookup key).getD null)) a
  | contains (a) (key) : SpecStep null a (.contains key) (.present (decide (key ∈ a))) a
  | remove (a) (key) : SpecStep null a (.remove key) (.removed (decide (key ∈ a))) (a.erase key)
  | clear (a) : SpecStep null a .clear .cleared ∅

inductive SpecRun (null : V) : Finmap (fun _ : UInt64 => V) → List (Op V) → List (Answer V) →
    Finmap (fun _ : UInt64 => V) → Prop
  | nil (a) : SpecRun null a [] [] a
  | cons {a b c} {op} {ops} {answer} {answers} (h : SpecStep null a op answer b)
      (t : SpecRun null b ops answers c) : SpecRun null a (op :: ops) (answer :: answers) c

end Ore.HashMapModel
