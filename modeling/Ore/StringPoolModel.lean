import Ore.HashMapRefinement
import Ore.WorkspaceModel

namespace Ore.StringPoolModel

open Probing
open HashMapModel (maskNext)
open WorkspaceModel (Bytes)

abbrev Memory := Nat → UInt8

def readBytes (buffer : Memory) (a n : Nat) : Bytes := (List.range n).map fun k => buffer (a + k)

def writeBytes (buffer : Memory) (a : Nat) (s : Bytes) : Memory :=
  fun i => if a ≤ i ∧ i < a + s.length then s.getD (i - a) 0 else buffer i

/-- The bytes of a 32-bit word, in the order of the host. -/
def u32Bytes (n : Nat) : Bytes := [n.toUInt8, (n / 2 ^ 8).toUInt8, (n / 2 ^ 16).toUInt8, (n / 2 ^ 24).toUInt8]

def readU32 (buffer : Memory) (a : Nat) : Nat :=
  (buffer a).toNat + (buffer (a + 1)).toNat * 2 ^ 8 + (buffer (a + 2)).toNat * 2 ^ 16 + (buffer (a + 3)).toNat * 2 ^ 24

def poolEmpty : Nat := 2 ^ 32 - 1
def stringpoolInitialCap : Nat := 64 * 1024

structure StringPool where
  buffer : Memory
  len : Nat
  cap : Nat
  slots : Nat → Nat
  slotCount : Nat
  slotUsed : Nat

def hashBytes (s : Bytes) : UInt32 := s.foldl (fun h c => (h ^^^ c.toUInt32) * 0x01000193) 0x811c9dc5

def home (slotCount : Nat) (s : Bytes) : Nat := (hashBytes s).toNat &&& (slotCount - 1)

def poolReserve (pool : StringPool) (need : Nat) : Option StringPool :=
  if pool.len + need ≤ pool.cap then some pool
  else
    (Loop.run (fun nc => if nc < pool.len + need then .inl (nc * 2) else .inr nc) (pool.len + need + 1)
      (if pool.cap ≠ 0 then pool.cap else stringpoolInitialCap)).map fun nc => { pool with cap := nc }

/-- One turn of the probe: the slot, and the id in it if it is a hit. -/
def findStep (pool : StringPool) (str : Bytes) (i : Nat) : Nat ⊕ Nat × Nat :=
  let id := pool.slots i
  if id = poolEmpty then .inr (i, poolEmpty)
  else if readU32 pool.buffer id = str.length % 2 ^ 32 ∧
    readBytes pool.buffer (id + 4) str.length = str then .inr (i, id)
  else .inl (maskNext pool.slotCount i)

def findSlot (pool : StringPool) (str : Bytes) : Option (Nat × Nat) :=
  Loop.run (findStep pool str) pool.slotCount (home pool.slotCount str)

def textAt (buffer : Memory) (id : Nat) : Bytes := readBytes buffer (id + 4) (readU32 buffer id)

def freeSlot (slotCount : Nat) (slots : Nat → Nat) (i : Nat) : Option Nat :=
  Loop.run (fun j => if slots j = poolEmpty then .inr j else .inl (maskNext slotCount j)) slotCount i

def rehashSlot (pool : StringPool) (newCount : Nat) (slots : Nat → Nat) (i : Nat) : Option (Nat → Nat) :=
  let id := pool.slots i
  if id = poolEmpty then some slots
  else (freeSlot newCount slots (home newCount (textAt pool.buffer id))).map fun j => Function.update slots j id

/-- A failed assertion is `none`. -/
def slotsResize (pool : StringPool) (newCount : Nat) : Option StringPool :=
  if 16 ≤ newCount ∧ newCount &&& (newCount - 1) = 0 then
    ((List.range pool.slotCount).foldlM (rehashSlot pool newCount) fun _ => poolEmpty).map fun slots =>
      { pool with slots := slots, slotCount := newCount }
  else none

def poolReserveSlots (pool : StringPool) (expectedMore : Nat) : Option StringPool :=
  let needed := pool.slotUsed + expectedMore
  (Loop.run (fun target => if target * 7 < needed * 10 then .inl (target * 2) else .inr target) (needed * 10 + 1)
    16).bind
    fun target => if target > pool.slotCount then slotsResize pool target else some pool

/-- Offset 0 is seeded with the block of the empty string. -/
def poolInit (initialSlots : Nat) : StringPool where
  buffer := fun _ => 0
  len := 5
  cap := stringpoolInitialCap
  slots := fun _ => poolEmpty
  slotCount := initialSlots
  slotUsed := 0

def writeBlock (buffer : Memory) (offset : Nat) (str : Bytes) : Memory :=
  writeBytes (writeBytes (writeBytes buffer offset (u32Bytes str.length)) (offset + 4) str) (offset + 4 + str.length)
    [0]

/-- The total and the offset are cut to 32 bits. -/
def appendBlock (pool : StringPool) (str : Bytes) : Option (StringPool × Nat) :=
  let total := (str.length + 5) % 2 ^ 32
  let offset := pool.len % 2 ^ 32
  (poolReserve pool total).map fun pool =>
    ({ pool with buffer := writeBlock pool.buffer offset str, len := pool.len + total }, offset)

def insertAt (pool : StringPool) (slot : Nat) (str : Bytes) : Option (StringPool × Nat) :=
  (appendBlock pool str).map fun (pool, offset) =>
    ({ pool with slots := Function.update pool.slots slot offset, slotUsed := pool.slotUsed + 1 }, offset)

def poolIntern (pool : StringPool) (str : Bytes) : Option (StringPool × Nat) :=
  if str.length = 0 then some (pool, 0)
  else
    (if (pool.slotUsed + 1) * 10 > pool.slotCount * 7 then slotsResize pool (pool.slotCount * 2) else some pool).bind
      fun pool => (findSlot pool str).bind fun (slot, existing) =>
        if existing ≠ poolEmpty then some (pool, existing) else insertAt pool slot str

def poolLookup (pool : StringPool) (str : Bytes) : Option Nat :=
  if str.length = 0 then some 0
  else if pool.slotCount = 0 then some 0
  else (findSlot pool str).map fun (_, existing) => if existing = poolEmpty then 0 else existing

/-- The memory that the returned pointer addresses. -/
def poolGet (pool : StringPool) (id : Nat) : Memory := if id = 0 then fun _ => 0 else fun k => pool.buffer (id + 4 + k)

inductive Op where
  | intern (str : Bytes)
  | lookup (str : Bytes)
  | reserveSlots (expectedMore : Nat)
  deriving DecidableEq

/-- An operation and its answer (a reservation has none). -/
def step (pool : StringPool) : Op → Option (StringPool × Nat)
  | .intern str => poolIntern pool str
  | .lookup str => (poolLookup pool str).map fun id => (pool, id)
  | .reserveSlots n => (poolReserveSlots pool n).map fun pool => (pool, 0)

def run : StringPool → List Op → Option (StringPool × List (Op × Nat))
  | pool, [] => some (pool, [])
  | pool, op :: ops =>
      (step pool op).bind fun (pool, id) => (run pool ops).map fun (pool, answers) => (pool, (op, id) :: answers)

end Ore.StringPoolModel
