import Mathlib.Data.Nat.Log
import Ore.Loop
import Ore.Segments

namespace Ore.ChunkArena

open Segments

def sizeMax : Nat := 2 ^ 64 - 1
def headerSize : Nat := 24

/-- Sizes are counted in 64 bits. -/
def wrap (n : Nat) : Nat := n % 2 ^ 64

structure Chunk where
  addr : Nat
  used : Nat
  capacity : Nat
  deriving DecidableEq, Repr

/-- A pointer into the data of a chunk. -/
structure Ptr where
  chunk : Nat
  offset : Nat
  deriving DecidableEq, Repr

structure Mark where
  chunk : Option Nat
  used : Nat
  totalPrevCapacity : Nat
  deriving DecidableEq, Repr

/-- `chunks` is the chain from `first` on; its last chunk is `current`. -/
structure Arena where
  chunks : List Chunk
  defaultChunkCapacity : Nat
  totalPrevCapacity : Nat
  cachedChunk : Option Nat
  cachedBase : Nat
  generation : Nat
  deriving DecidableEq, Repr

def alignSize (size : Nat) : Nat := if size > sizeMax - 7 then 0 else (size + 7) / 8 * 8

/-- A request for nothing is one for eight bytes. -/
def requested (size : Nat) : Nat := if size ≠ 0 then size else 8

def allocSize (size : Nat) : Nat := alignSize (requested size)

/-- A failed malloc is `none`. -/
def chunkNew (capacity : Nat) (fresh : Option Nat) : Option Chunk :=
  if capacity > sizeMax - headerSize then none else fresh.map fun addr => ⟨addr, 0, capacity⟩

def capacityTurn (required capacity : Nat) : Nat ⊕ Nat :=
  if capacity < required then if capacity > sizeMax / 2 then .inr required else .inl (capacity * 2)
  else .inr capacity

namespace Arena

def init (defaultChunkCapacity : Nat) : Arena := ⟨[], defaultChunkCapacity, 0, none, 0, 1⟩

def current (a : Arena) : Option Chunk := a.chunks.getLast?

/-- The doubling takes fewer than 65 turns. -/
def nextChunkCapacity (a : Arena) (required : Nat) : Option Nat :=
  let capacity := (a.current.map (·.capacity)).getD a.defaultChunkCapacity
  let capacity := if capacity < a.defaultChunkCapacity then a.defaultChunkCapacity else capacity
  let capacity := if capacity = 0 then 8 else capacity
  Loop.run (capacityTurn required) 65 capacity

def totalUsed (a : Arena) : Nat :=
  match a.current with
  | none => 0
  | some c => wrap (a.totalPrevCapacity + c.used)

/-- Walks the chain and remembers where it found the offset. -/
def walk (a : Arena) (offset : Nat) : Option Ptr × Arena :=
  match walkFrom offset 0 a.chunks with
  | none => (none, a)
  | some (c, base) => (some ⟨c.addr, offset - base⟩, { a with cachedChunk := some c.addr, cachedBase := base })
where
  walkFrom (offset : Nat) : Nat → List Chunk → Option (Chunk × Nat)
    | _, [] => none
    | base, c :: l =>
      if base ≤ offset ∧ offset < wrap (base + c.used) then some (c, base) else walkFrom offset (wrap (base + c.used)) l

/-- A cached chunk that the arena has freed would be read: `none`. -/
def getPtr (a : Arena) (offset : Nat) : Option (Option Ptr × Arena) :=
  match a.cachedChunk with
  | none => some (a.walk offset)
  | some addr => (a.chunks.find? (·.addr = addr)).map fun c =>
      if a.cachedBase ≤ offset ∧ offset < wrap (a.cachedBase + c.used) then
        (some ⟨c.addr, offset - a.cachedBase⟩, a)
      else a.walk offset

def bump (a : Arena) (size : Nat) : Option Ptr × Arena :=
  match a.current with
  | none => (none, a)
  | some c =>
      (some ⟨c.addr, c.used⟩, { a with chunks := a.chunks.dropLast ++ [{ c with used := wrap (c.used + size) }] })

def defaultCap (a : Arena) : Nat := if a.defaultChunkCapacity ≠ 0 then a.defaultChunkCapacity else 4096

def growCapacity (a : Arena) (size : Nat) : Option Nat :=
  a.nextChunkCapacity (if size > a.defaultCap then size else a.defaultCap)

/-- Adds a chunk. The outer `none` is a loop that has not ended, the inner one a failed malloc. -/
def grow (a : Arena) (size : Nat) (fresh : Option Nat) : Option (Option Arena) :=
  (a.growCapacity size).map fun capacity => (chunkNew capacity fresh).map fun chunk =>
    { a with
      chunks := a.chunks ++ [chunk]
      totalPrevCapacity := (a.current.map fun c => wrap (a.totalPrevCapacity + c.used)).getD a.totalPrevCapacity
      defaultChunkCapacity := if a.defaultChunkCapacity = 0 then a.defaultCap else a.defaultChunkCapacity }

/-- `fresh` is what malloc returns when a chunk is needed. -/
def allocRaw (a : Arena) (size : Nat) (fresh : Option Nat) : Option (Option Ptr × Arena) :=
  let size := allocSize size
  if a.current.all fun c => size > c.capacity - c.used then
    (a.grow size fresh).map fun
      | none => (none, a)
      | some a => a.bump size
  else some (a.bump size)

def mark (a : Arena) : Mark :=
  match a.current with
  | none => ⟨none, 0, 0⟩
  | some c => ⟨some c.addr, c.used, a.totalPrevCapacity⟩

def cutAt (addr : Nat) : List Chunk → Option (List Chunk × Chunk)
  | [] => none
  | c :: l => if c.addr = addr then some ([], c) else (cutAt addr l).map fun (before, d) => (c :: before, d)

def rewind (a : Arena) (mark : Mark) : Option Arena :=
  mark.chunk.bind fun addr => (cutAt addr a.chunks).bind fun (before, c) =>
    if mark.used > c.capacity then none
    else some
      { a with
        chunks := before ++ [{ c with used := mark.used }]
        totalPrevCapacity := mark.totalPrevCapacity
        cachedChunk := none
        cachedBase := 0
        generation := (a.generation + 1) % 2 ^ 32 }

def resetTo (a : Arena) (mark : Mark) : Arena := (a.rewind mark).getD a

def reset (a : Arena) : Arena :=
  match a.chunks with
  | [] => a
  | c :: _ =>
    { a with
      chunks := [{ c with used := 0 }]
      totalPrevCapacity := 0
      cachedChunk := none
      cachedBase := 0
      generation := (a.generation + 1) % 2 ^ 32 }

end Arena

/-- An allocation with the arena's total use before it. -/
structure Allocation where
  offset : Nat
  size : Nat
  ptr : Ptr
  deriving DecidableEq, Repr

/-- `live` lists the allocations that were not rewound or reset since, the last one first,
and `kept` the marks whose chunk was not freed since. The arena has neither. -/
structure State where
  arena : Arena
  live : List Allocation
  kept : List Mark

inductive Op
  | alloc (size : Nat) (fresh : Option Nat)
  | mark
  | resetTo (mark : Mark)
  | reset
  | getPtr (offset : Nat)

namespace State

def init (defaultChunkCapacity : Nat) : State := ⟨.init defaultChunkCapacity, [], []⟩

def keep (kept : List Mark) (a : Arena) : List Mark :=
  kept.filter fun m => m.chunk.any fun addr => addr ∈ a.chunks.map (·.addr)

def below (a : Arena) (mark : Mark) (x : Allocation) : Bool :=
  x.ptr.chunk ∈ a.chunks.dropLast.map (·.addr) ∨ some x.ptr.chunk = mark.chunk ∧ x.ptr.offset + x.size ≤ mark.used

def step (s : State) : Op → Option State
  | .alloc size fresh => (s.arena.allocRaw size fresh).map fun
      | (none, a) => { s with arena := a }
      | (some p, a) => { s with arena := a, live := ⟨s.arena.totalUsed, requested size, p⟩ :: s.live }
  | .mark => some { s with kept := if s.arena.mark.chunk = none then s.kept else s.arena.mark :: s.kept }
  | .resetTo mark => match s.arena.rewind mark with
    | none => some { s with arena := s.arena.resetTo mark }
    | some a => some ⟨s.arena.resetTo mark, s.live.filter (below a mark), keep s.kept a⟩
  | .reset => some ⟨s.arena.reset, if s.arena.chunks = [] then s.live else [], keep s.kept s.arena.reset⟩
  | .getPtr offset => (s.arena.getPtr offset).map fun (_, a) => { s with arena := a }

/-- What malloc keeps to: a new chunk has an address that no chunk has, and all chunks
lie in memory. -/
def Allowed (s : State) : Op → Prop
  | .alloc size (some addr) => addr ∉ s.arena.chunks.map (·.addr) ∧
      ∀ capacity ∈ s.arena.growCapacity (allocSize size),
        total (fun c => headerSize + c.capacity) s.arena.chunks + (headerSize + capacity) < 2 ^ 64
  | _ => True

/-- The size can be aligned, and the mark's chunk was not freed since or its address is not in
use again. -/
def Fits (s : State) : Op → Prop
  | .alloc size _ => size ≤ sizeMax - 7
  | .resetTo mark => mark ∈ s.kept ∨ ∀ addr ∈ mark.chunk, addr ∉ s.arena.chunks.map (·.addr)
  | _ => True

end State

section Sizes

variable {size required capacity : Nat} {a : Arena}

theorem le_allocSize (h : size ≤ sizeMax - 7) : requested size ≤ allocSize size := by
  have hle : requested size ≤ sizeMax - 7 := by
    rw [requested]
    split_ifs
    · exact h
    · decide
  rw [allocSize, alignSize, if_neg (Nat.not_lt.mpr hle)]
  omega

theorem nextChunkCapacity_spec (a : Arena) (required : Nat) :
    ∃ capacity, a.nextChunkCapacity required = some capacity ∧ required ≤ capacity := by
  refine Loop.run_spec (capacityTurn required) (fun capacity => 0 < capacity) (required ≤ ·)
    (fun capacity => 64 - Nat.log 2 capacity) (fun capacity capacity' hpos hturn => ?_)
    (fun capacity r hpos hturn => ?_) 65 _ ?_ (by omega)
  · rw [capacityTurn] at hturn
    split_ifs at hturn with hless hbig
    obtain rfl := Sum.inl.inj hturn
    have hlog : Nat.log 2 (capacity * 2) = Nat.log 2 capacity + 1 := Nat.log_mul_base (by decide) hpos.ne'
    have hbound : Nat.log 2 capacity < 64 := by
      apply Nat.log_lt_of_lt_pow hpos.ne'
      have hlimit : sizeMax / 2 < 2 ^ 64 := by decide
      omega
    exact ⟨Nat.mul_pos hpos (by decide), by omega⟩
  · rw [capacityTurn] at hturn
    split_ifs at hturn with hless hbig
    · exact (Sum.inr.inj hturn).le
    · obtain rfl := Sum.inr.inj hturn
      exact Nat.not_lt.mp hless
  · have hpos : ∀ n : Nat, 0 < if n = 0 then 8 else n := by
      intro n
      split_ifs with hzero
      · decide
      · exact Nat.pos_of_ne_zero hzero
    exact hpos _

end Sizes

section Chains

variable {a a' : Arena} {l init : List Chunk} {c d : Chunk} {addr base offset size : Nat}

/-- What holds of an arena between calls. -/
structure Ok (a : Arena) : Prop where
  addrs : (a.chunks.map (·.addr)).Nodup
  bounded : ∀ c ∈ a.chunks, c.used ≤ c.capacity
  fits : total (fun c => headerSize + c.capacity) a.chunks < 2 ^ 64
  prev : a.totalPrevCapacity = total Chunk.used a.chunks.dropLast
  cache : ∀ addr ∈ a.cachedChunk, ∃ c, At Chunk.used a.chunks c a.cachedBase ∧ c.addr = addr

theorem Ok.total_lt (h : Ok a) : total Chunk.used a.chunks < 2 ^ 64 :=
  Nat.lt_of_le_of_lt (total_le fun c hc => Nat.le_trans (h.bounded c hc) (Nat.le_add_left _ _)) h.fits

theorem Ok.totalUsed (h : Ok a) : a.totalUsed = total Chunk.used a.chunks := by
  have hlt := h.total_lt
  rw [Arena.totalUsed, Arena.current]
  rcases List.eq_nil_or_concat a.chunks with hnil | ⟨init, c, hchunks⟩
  · rw [hnil]
    rfl
  · have hprev := h.prev
    rw [hchunks, List.concat_eq_append] at hlt hprev ⊢
    rw [List.dropLast_concat] at hprev
    rw [List.getLast?_concat, hprev]
    rw [total_append, total_cons, total_nil, Nat.add_zero] at hlt ⊢
    exact Nat.mod_eq_of_lt hlt

theorem find_addr (h : (l.map (·.addr)).Nodup) (hc : c ∈ l) : l.find? (·.addr = c.addr) = some c := by
  induction l with
  | nil => cases hc
  | cons d l ih =>
      rw [List.map_cons, List.nodup_cons] at h
      rcases List.mem_cons.mp hc with rfl | hc
      · simp
      · have hne : d.addr ≠ c.addr := fun heq => h.1 (heq ▸ List.mem_map_of_mem hc)
        rw [List.find?_cons_of_neg (by simpa using hne)]
        exact ih h.2 hc

theorem walkFrom_eq (h : base + total Chunk.used l < 2 ^ 64) :
    Arena.walk.walkFrom offset base l = locate Chunk.used offset base l := by
  induction l generalizing base with
  | nil => rfl
  | cons c l ih =>
      rw [total_cons] at h
      have hwrap : wrap (base + c.used) = base + c.used := Nat.mod_eq_of_lt (by omega)
      rw [Arena.walk.walkFrom, locate, hwrap, ih (by omega)]

/-- The walk finds the chunk that covers the offset, and the cache names a chunk of the chain. -/
theorem Ok.walk (h : Ok a) (offset : Nat) : Ok (a.walk offset).2 ∧ (a.walk offset).2.chunks = a.chunks ∧
    ∀ c base, At Chunk.used a.chunks c base → base ≤ offset → offset < base + c.used →
      (a.walk offset).1 = some ⟨c.addr, offset - base⟩ := by
  have hlt := h.total_lt
  have hwalk : Arena.walk.walkFrom offset 0 a.chunks = locate Chunk.used offset 0 a.chunks :=
    walkFrom_eq (by omega)
  rw [Arena.walk, hwalk]
  cases hfound : locate Chunk.used offset 0 a.chunks with
  | none =>
      refine ⟨h, rfl, fun c base hc hle hlt => ?_⟩
      rw [hc.locate hle hlt] at hfound
      cases hfound
  | some found =>
      obtain ⟨d, start⟩ := found
      refine ⟨⟨h.addrs, h.bounded, h.fits, h.prev, ?_⟩, rfl, fun c base hc hle hlt => ?_⟩
      · rintro addr ⟨⟩
        exact ⟨d, (at_of_locate hfound).1, rfl⟩
      · rw [hc.locate hle hlt] at hfound
        cases hfound
        rfl

/-- A lookup answers from the chunk that covers the offset, whatever the cache holds. -/
theorem Ok.getPtr (h : Ok a) (offset : Nat) : ∃ p a', a.getPtr offset = some (p, a') ∧ Ok a' ∧
    a'.chunks = a.chunks ∧ ∀ c base, At Chunk.used a.chunks c base → base ≤ offset → offset < base + c.used →
      p = some ⟨c.addr, offset - base⟩ := by
  obtain ⟨hok, hchunks, hfound⟩ := h.walk offset
  rw [Arena.getPtr]
  cases hcached : a.cachedChunk with
  | none => exact ⟨_, _, rfl, hok, hchunks, hfound⟩
  | some addr =>
      obtain ⟨d, hd, rfl⟩ := h.cache addr hcached
      have hend := Nat.lt_of_le_of_lt hd.end_le h.total_lt
      have hwrap : wrap (a.cachedBase + d.used) = a.cachedBase + d.used := Nat.mod_eq_of_lt hend
      simp only [find_addr h.addrs hd.mem, Option.map_some, hwrap]
      split_ifs with hcover
      · refine ⟨_, _, rfl, h, rfl, fun c base hc hle hlt => ?_⟩
        obtain ⟨rfl, rfl⟩ := hc.unique hd hle hlt hcover.1 hcover.2
        rfl
      · exact ⟨_, _, rfl, hok, hchunks, hfound⟩

/-- A chunk is added behind the chain, or malloc has failed. -/
theorem Ok.grow (h : Ok a) {fresh : Option Nat} (hfresh : ∀ addr ∈ fresh, addr ∉ a.chunks.map (·.addr) ∧
      ∀ capacity ∈ a.growCapacity size,
        total (fun c => headerSize + c.capacity) a.chunks + (headerSize + capacity) < 2 ^ 64) :
    ∃ o, a.grow size fresh = some o ∧ ∀ a' ∈ o, Ok a' ∧ ∃ c, a'.chunks = a.chunks ++ [c] ∧ size ≤ c.capacity - c.used ∧
      total Chunk.used a'.chunks = total Chunk.used a.chunks := by
  obtain ⟨capacity, hcapacity, hle⟩ :=
    nextChunkCapacity_spec a (if size > a.defaultCap then size else a.defaultCap)
  have hsize : size ≤ capacity := by
    refine Nat.le_trans ?_ hle
    split_ifs with hless
    · exact Nat.le_refl _
    · exact Nat.not_lt.mp hless
  have hgrow : a.growCapacity size = some capacity := hcapacity
  rw [Arena.grow, hgrow, Option.map_some]
  refine ⟨_, rfl, ?_⟩
  rintro a' ha'
  obtain ⟨c, hc, rfl⟩ := Option.map_eq_some_iff.mp ha'
  rw [chunkNew, Option.ite_none_left_eq_some] at hc
  obtain ⟨addr, haddr, rfl⟩ := Option.map_eq_some_iff.mp hc.2
  obtain ⟨hnew, hroom⟩ := hfresh addr haddr
  refine ⟨⟨?_, ?_, ?_, ?_, ?_⟩, _, rfl, hsize, by simp⟩
  · change ((a.chunks ++ [_]).map fun c : Chunk => c.addr).Nodup
    rw [List.map_append, List.map_singleton, List.nodup_append]
    refine ⟨h.addrs, by simp, fun x hx y hy heq => ?_⟩
    have hy : y = addr := List.mem_singleton.mp hy
    rw [heq, hy] at hx
    exact hnew hx
  · intro c hc
    rcases List.mem_append.mp hc with hc | hc
    · exact h.bounded c hc
    · rw [List.mem_singleton.mp hc]
      exact Nat.zero_le _
  · change total _ (a.chunks ++ [_]) < 2 ^ 64
    rw [total_append, total_cons, total_nil]
    exact hroom capacity hgrow
  · change (a.current.map fun c => wrap (a.totalPrevCapacity + c.used)).getD a.totalPrevCapacity =
      total Chunk.used (a.chunks ++ [_]).dropLast
    rw [List.dropLast_concat, ← h.totalUsed, Arena.totalUsed, Arena.current]
    cases hlast : a.chunks.getLast? with
    | none =>
        rw [List.getLast?_eq_none_iff] at hlast
        have hprev := h.prev
        rw [hlast] at hprev
        exact hprev
    | some c => rfl
  · intro addr' haddr'
    obtain ⟨d, hd, hdaddr⟩ := h.cache addr' haddr'
    exact ⟨d, hd.append _, hdaddr⟩

/-- The bytes lie behind everything in use, and the chunks before and the use of the last
one stay. -/
theorem Ok.bump (h : Ok a) (hchunks : a.chunks = init ++ [c]) (hsize : size ≤ c.capacity - c.used) :
    a.bump size = (some ⟨c.addr, c.used⟩, { a with chunks := init ++ [{ c with used := c.used + size }] }) ∧
      Ok { a with chunks := init ++ [{ c with used := c.used + size }] } := by
  have hbounded := h.bounded c (by simp [hchunks])
  have hfits := h.fits
  rw [hchunks, total_append, total_cons, total_nil] at hfits
  have hwrap : wrap (c.used + size) = c.used + size := Nat.mod_eq_of_lt (by omega)
  refine ⟨?_, ?_, fun d hd => ?_, ?_, ?_, fun addr haddr => ?_⟩
  · rw [Arena.bump, Arena.current, hchunks, List.getLast?_concat]
    simp only [List.dropLast_concat, hwrap]
  · have haddrs := h.addrs
    rw [hchunks] at haddrs
    simpa using haddrs
  · have hd : d ∈ init ++ [{ c with used := c.used + size }] := hd
    rcases List.mem_append.mp hd with hd | hd
    · exact h.bounded d (by simp [hchunks, hd])
    · rw [List.mem_singleton.mp hd]
      change c.used + size ≤ c.capacity
      omega
  · change total _ (init ++ [_]) < 2 ^ 64
    rw [total_append, total_cons, total_nil]
    exact hfits
  · have hprev := h.prev
    rw [hchunks, List.dropLast_concat] at hprev
    change a.totalPrevCapacity = total Chunk.used (init ++ [_]).dropLast
    rwa [List.dropLast_concat]
  · obtain ⟨d, hd, rfl⟩ := h.cache addr haddr
    rw [hchunks] at hd
    rcases at_concat_cases hd with hd | ⟨rfl, hbase⟩
    · exact ⟨d, hd.append _, rfl⟩
    · refine ⟨{ d with used := d.used + size }, ?_, rfl⟩
      change At Chunk.used (init ++ [_]) _ a.cachedBase
      rw [hbase]
      exact at_concat init _

end Chains

section Places

variable {l l' before after : List Chunk} {c d : Chunk} {x : Allocation} {m : Mark} {base : Nat}

/-- The bytes of an allocation lie in the used part of a chunk, at its offset. -/
def Placed (l : List Chunk) (x : Allocation) : Prop :=
  ∃ c base, At Chunk.used l c base ∧ c.addr = x.ptr.chunk ∧ x.offset = base + x.ptr.offset ∧
    x.ptr.offset + x.size ≤ c.used

def Marked (l : List Chunk) (m : Mark) : Prop :=
  ∃ c, At Chunk.used l c m.totalPrevCapacity ∧ m.chunk = some c.addr

/-- Chunks stay where they are and are filled further. -/
def Extends (l l' : List Chunk) : Prop :=
  ∀ d base, At Chunk.used l d base → ∃ d', At Chunk.used l' d' base ∧ d'.addr = d.addr ∧ d.used ≤ d'.used

theorem Extends.refl (l : List Chunk) : Extends l l := fun d _ h => ⟨d, h, rfl, Nat.le_refl _⟩

theorem Extends.append (l l' : List Chunk) : Extends l (l ++ l') := fun d _ h =>
  ⟨d, h.append l', rfl, Nat.le_refl _⟩

theorem Extends.fill (l : List Chunk) (haddr : d.addr = c.addr) (hused : c.used ≤ d.used) :
    Extends (l ++ [c]) (l ++ [d]) := by
  intro b base h
  rcases at_concat_cases h with h | ⟨rfl, rfl⟩
  · exact ⟨b, h.append _, rfl, Nat.le_refl _⟩
  · exact ⟨d, at_concat l d, haddr, hused⟩

theorem Extends.trans {l'' : List Chunk} (h : Extends l l') (h' : Extends l' l'') : Extends l l'' := by
  intro d base hd
  obtain ⟨d', hd', haddr, hused⟩ := h d base hd
  obtain ⟨d'', hd'', haddr', hused'⟩ := h' d' base hd'
  exact ⟨d'', hd'', haddr'.trans haddr, Nat.le_trans hused hused'⟩

theorem Placed.extend (hx : Placed l x) (h : Extends l l') : Placed l' x := by
  obtain ⟨c, base, hc, haddr, hoffset, hend⟩ := hx
  obtain ⟨d, hd, hsame, hused⟩ := h c base hc
  exact ⟨d, base, hd, hsame.trans haddr, hoffset, Nat.le_trans hend hused⟩

theorem Marked.extend (hm : Marked l m) (h : Extends l l') : Marked l' m := by
  obtain ⟨c, hc, haddr⟩ := hm
  obtain ⟨d, hd, hsame, -⟩ := h c _ hc
  exact ⟨d, hd, by rw [haddr, hsame]⟩

theorem Placed.end_le (hx : Placed l x) : x.offset + x.size ≤ total Chunk.used l := by
  obtain ⟨c, base, hc, -, hoffset, hend⟩ := hx
  have := hc.end_le
  omega

theorem at_cut (haddrs : ((before ++ c :: after).map (·.addr)).Nodup)
    (h : At Chunk.used (before ++ c :: after) d base) (hd : d.addr ∈ (before ++ [c]).map (·.addr)) :
    At Chunk.used before d base ∨ d = c ∧ base = total Chunk.used before := by
  rw [List.append_cons] at h haddrs
  rcases at_append_cases h with h | ⟨base', -, h⟩
  · exact at_concat_cases h
  · rw [List.map_append, List.nodup_append] at haddrs
    exact absurd rfl (haddrs.2.2 _ hd _ (List.mem_map_of_mem h.mem))

theorem at_cut_last (before : List Chunk) (haddrs : ((before ++ c :: after).map (·.addr)).Nodup)
    (h : At Chunk.used (before ++ c :: after) d base) (hd : d.addr = c.addr) :
    d = c ∧ base = total Chunk.used before := by
  rcases at_cut haddrs h (by simp [hd]) with hbefore | hlast
  · rw [List.map_append, List.nodup_append] at haddrs
    exact absurd hd (haddrs.2.2 _ (List.mem_map_of_mem hbefore.mem) _ (by simp))
  · exact hlast

theorem at_cut_before (haddrs : ((before ++ c :: after).map (·.addr)).Nodup)
    (h : At Chunk.used (before ++ c :: after) d base) (hd : d.addr ∈ before.map (·.addr)) :
    At Chunk.used before d base := by
  rcases at_cut haddrs h (by simpa using .inl (by simpa using hd)) with hbefore | ⟨rfl, -⟩
  · exact hbefore
  · rw [List.map_append, List.nodup_append] at haddrs
    exact absurd rfl (haddrs.2.2 _ hd _ (by simp))

theorem cutAt_some {addr : Nat} (h : Arena.cutAt addr l = some (before, c)) :
    ∃ after, l = before ++ c :: after ∧ c.addr = addr := by
  induction l generalizing before with
  | nil => cases h
  | cons d l ih =>
      rw [Arena.cutAt] at h
      split_ifs at h with haddr
      · cases h
        exact ⟨l, rfl, haddr⟩
      · obtain ⟨⟨rest, e⟩, hrest, heq⟩ := Option.map_eq_some_iff.mp h
        obtain ⟨rfl, rfl⟩ := Prod.mk.inj heq
        obtain ⟨after, rfl, haddr⟩ := ih hrest
        exact ⟨after, rfl, haddr⟩

end Places

section Steps

variable {a a' : Arena} {s s' : State} {m : Mark} {size : Nat} {fresh : Option Nat}

theorem Ok.allocRaw (h : Ok a) (hsize : size ≤ sizeMax - 7)
    (hfresh : ∀ addr ∈ fresh, addr ∉ a.chunks.map (·.addr) ∧ ∀ capacity ∈ a.growCapacity (allocSize size),
      total (fun c => headerSize + c.capacity) a.chunks + (headerSize + capacity) < 2 ^ 64) :
    ∃ r a', a.allocRaw size fresh = some (r, a') ∧ Ok a' ∧ Extends a.chunks a'.chunks ∧
      ∀ p ∈ r, Placed a'.chunks ⟨a.totalUsed, requested size, p⟩ := by
  have hbytes := le_allocSize hsize
  have hroom : ∀ (b : Arena) init c, Ok b → b.chunks = init ++ [c] → allocSize size ≤ c.capacity - c.used →
      Extends a.chunks b.chunks → total Chunk.used b.chunks = total Chunk.used a.chunks →
      ∃ r a', b.bump (allocSize size) = (r, a') ∧ Ok a' ∧ Extends a.chunks a'.chunks ∧
        ∀ p ∈ r, Placed a'.chunks ⟨a.totalUsed, requested size, p⟩ := by
    intro b init c hb hchunks hfree hextends htotal
    obtain ⟨hbump, hok⟩ := hb.bump hchunks hfree
    refine ⟨_, _, hbump, hok, ?_, ?_⟩
    · rw [hchunks] at hextends
      exact hextends.trans (.fill init rfl (Nat.le_add_right _ _))
    · rintro p ⟨⟩
      refine ⟨_, _, at_concat init _, rfl, ?_, ?_⟩
      · change a.totalUsed = _
        rw [h.totalUsed, ← htotal, hchunks, total_append, total_cons, total_nil, Nat.add_zero]
      · exact Nat.add_le_add_left hbytes _
  rw [Arena.allocRaw]
  split_ifs with hfull
  · obtain ⟨o, hgrow, hgrown⟩ := h.grow hfresh
    rw [hgrow, Option.map_some]
    cases o with
    | none => exact ⟨none, a, rfl, h, .refl a.chunks, nofun⟩
    | some b =>
        obtain ⟨hb, c, hchunks, hfree, htotal⟩ := hgrown b rfl
        obtain ⟨r, a', hbump, hrest⟩ := hroom b a.chunks c hb hchunks hfree
          (hchunks ▸ Extends.append a.chunks [c]) htotal
        exact ⟨r, a', congrArg some hbump, hrest⟩
  · obtain ⟨c, hlast, hfree⟩ : ∃ c, a.chunks.getLast? = some c ∧ allocSize size ≤ c.capacity - c.used := by
      rw [Arena.current] at hfull
      cases hlast : a.chunks.getLast? with
      | none => simp [hlast] at hfull
      | some c =>
          refine ⟨c, rfl, ?_⟩
          simpa [hlast] using hfull
    obtain ⟨init, hchunks⟩ := List.getLast?_eq_some_iff.mp hlast
    obtain ⟨r, a', hbump, hrest⟩ := hroom a init c h hchunks hfree (.refl a.chunks) rfl
    exact ⟨r, a', congrArg some hbump, hrest⟩

/-- A rewind cuts the chain behind the mark's chunk, which is filled up to the mark. -/
theorem rewind_some (h : a.rewind m = some a') : ∃ before c after, a.chunks = before ++ c :: after ∧
    m.chunk = some c.addr ∧ m.used ≤ c.capacity ∧ a'.chunks = before ++ [{ c with used := m.used }] ∧
    a'.totalPrevCapacity = m.totalPrevCapacity ∧ a'.cachedChunk = none := by
  obtain ⟨addr, haddr, hbind⟩ := Option.bind_eq_some_iff.mp h
  obtain ⟨⟨before, c⟩, hcut, hresult⟩ := Option.bind_eq_some_iff.mp hbind
  rw [Option.ite_none_left_eq_some] at hresult
  obtain ⟨hused, hresult⟩ := hresult
  obtain rfl := Option.some.inj hresult
  obtain ⟨after, hchunks, rfl⟩ := cutAt_some hcut
  exact ⟨before, c, after, hchunks, haddr, Nat.not_lt.mp hused, rfl, rfl, rfl⟩

theorem Ok.rewind (h : Ok a) (hm : Marked a.chunks m) (hrewind : a.rewind m = some a') : Ok a' := by
  obtain ⟨before, c, after, hchunks, hchunk, hused, hcut, hprev, hcache⟩ := rewind_some hrewind
  have haddrs := h.addrs
  have hfits := h.fits
  obtain ⟨d, hd, haddr⟩ := hm
  rw [hchunks] at haddrs hd hfits
  have hsame : d.addr = c.addr := Option.some.inj (haddr.symm.trans hchunk)
  refine ⟨?_, fun e he => ?_, ?_, ?_, ?_⟩
  · rw [List.append_cons, List.map_append] at haddrs
    rw [hcut]
    simpa using (List.nodup_append.mp haddrs).1
  · rw [hcut] at he
    rcases List.mem_append.mp he with he | he
    · exact h.bounded e (by simp [hchunks, he])
    · rw [List.mem_singleton.mp he]
      exact hused
  · rw [total_append, total_cons] at hfits
    rw [hcut, total_append, total_cons, total_nil]
    change _ + (headerSize + c.capacity + 0) < _
    omega
  · rw [hprev, hcut, List.dropLast_concat]
    exact (at_cut_last _ haddrs hd hsame).2
  · rw [hcache]
    nofun

theorem Placed.rewind {x : Allocation} (h : Ok a) (hx : Placed a.chunks x) (hrewind : a.rewind m = some a')
    (hbelow : State.below a' m x = true) : Placed a'.chunks x := by
  obtain ⟨before, c, after, hchunks, hchunk, -, hcut, -, -⟩ := rewind_some hrewind
  have haddrs := h.addrs
  obtain ⟨d, base, hd, haddr, hoffset, hend⟩ := hx
  rw [hchunks] at haddrs hd
  rw [State.below, hcut, List.dropLast_concat] at hbelow
  rw [hcut]
  rcases of_decide_eq_true hbelow with hbefore | ⟨hsame, hused⟩
  · rw [← haddr] at hbefore
    exact ⟨d, base, (at_cut_before haddrs hd hbefore).append _, haddr, hoffset, hend⟩
  · rw [hchunk] at hsame
    have hsame := Option.some.inj hsame
    obtain ⟨rfl, rfl⟩ := at_cut_last _ haddrs hd (haddr.trans hsame)
    exact ⟨_, _, at_concat before _, haddr, hoffset, hused⟩

theorem Marked.rewind {k : Mark} (h : Ok a) (hk : Marked a.chunks k) (hrewind : a.rewind m = some a')
    (hkeep : k.chunk.any (fun addr => addr ∈ a'.chunks.map (·.addr)) = true) : Marked a'.chunks k := by
  obtain ⟨before, c, after, hchunks, -, -, hcut, -, -⟩ := rewind_some hrewind
  have haddrs := h.addrs
  obtain ⟨d, hd, haddr⟩ := hk
  rw [hchunks] at haddrs hd
  rw [haddr, hcut] at hkeep
  have hkeep : d.addr ∈ (before ++ [c]).map (·.addr) := by simpa using hkeep
  rw [hcut]
  rcases at_cut haddrs hd hkeep with hbefore | ⟨rfl, hbase⟩
  · exact ⟨d, hbefore.append _, haddr⟩
  · refine ⟨{ d with used := m.used }, ?_, haddr⟩
    rw [hbase]
    exact at_concat before _

/-- What holds after every step. -/
structure Holds (s : State) : Prop where
  ok : Ok s.arena
  live : ∀ x ∈ s.live, Placed s.arena.chunks x
  apart : s.live.Pairwise fun x y => y.offset + y.size ≤ x.offset
  kept : ∀ m ∈ s.kept, Marked s.arena.chunks m

theorem holds_init (defaultChunkCapacity : Nat) : Holds (.init defaultChunkCapacity) := by
  refine ⟨⟨.nil, nofun, ?_, rfl, nofun⟩, nofun, .nil, nofun⟩
  change total _ ([] : List Chunk) < 2 ^ 64
  rw [total_nil]
  decide

theorem Holds.alloc (h : Holds s) (hallowed : s.Allowed (.alloc size fresh)) (hsize : size ≤ sizeMax - 7) :
    ∃ s', s.step (.alloc size fresh) = some s' ∧ Holds s' := by
  have hfresh : ∀ addr ∈ fresh, addr ∉ s.arena.chunks.map (·.addr) ∧
      ∀ capacity ∈ s.arena.growCapacity (allocSize size),
        total (fun c => headerSize + c.capacity) s.arena.chunks + (headerSize + capacity) < 2 ^ 64 := by
    rintro addr rfl
    exact hallowed
  obtain ⟨r, a', halloc, hok, hextends, hplaced⟩ := h.ok.allocRaw hsize hfresh
  have hlive : ∀ x ∈ s.live, Placed a'.chunks x := fun x hx => (h.live x hx).extend hextends
  have hkept : ∀ m ∈ s.kept, Marked a'.chunks m := fun m hm => (h.kept m hm).extend hextends
  rw [State.step, halloc, Option.map_some]
  cases r with
  | none => exact ⟨_, rfl, hok, hlive, h.apart, hkept⟩
  | some p =>
      refine ⟨_, rfl, hok, fun x hx => ?_, List.pairwise_cons.mpr ⟨fun y hy => ?_, h.apart⟩, hkept⟩
      · rcases List.mem_cons.mp hx with rfl | hx
        · exact hplaced p rfl
        · exact hlive x hx
      · change y.offset + y.size ≤ s.arena.totalUsed
        rw [h.ok.totalUsed]
        exact (h.live y hy).end_le

theorem Holds.mark (h : Holds s) : ∃ s', s.step .mark = some s' ∧ Holds s' := by
  refine ⟨_, rfl, h.ok, h.live, h.apart, fun m hm => ?_⟩
  split_ifs at hm with hnone
  · exact h.kept m hm
  · rcases List.mem_cons.mp hm with rfl | hm
    · rw [Arena.mark] at hnone ⊢
      cases hlast : s.arena.current with
      | none => simp [hlast] at hnone
      | some c =>
          obtain ⟨init, hchunks⟩ := List.getLast?_eq_some_iff.mp hlast
          have hprev := h.ok.prev
          rw [hchunks, List.dropLast_concat] at hprev
          refine ⟨c, ?_, rfl⟩
          change At Chunk.used s.arena.chunks c s.arena.totalPrevCapacity
          rw [hprev, hchunks]
          exact at_concat init c
    · exact h.kept m hm

theorem cutAt_none {addr : Nat} {l : List Chunk} (h : addr ∉ l.map (·.addr)) : Arena.cutAt addr l = none := by
  induction l with
  | nil => rfl
  | cons d l ih =>
      rw [List.map_cons, List.mem_cons, not_or] at h
      rw [Arena.cutAt, if_neg (Ne.symm h.1), ih h.2, Option.map_none]

theorem Holds.resetTo (h : Holds s) (hfits : s.Fits (.resetTo m)) :
    ∃ s', s.step (.resetTo m) = some s' ∧ Holds s' := by
  rw [State.step, Arena.resetTo]
  cases hrewind : s.arena.rewind m with
  | none => exact ⟨_, rfl, h⟩
  | some a =>
      have hm : m ∈ s.kept := by
        rcases hfits with hm | hgone
        · exact hm
        · obtain ⟨addr, haddr, hcut⟩ := Option.bind_eq_some_iff.mp hrewind
          rw [cutAt_none (hgone addr haddr)] at hcut
          cases hcut
      refine ⟨_, rfl, h.ok.rewind (h.kept m hm) hrewind, fun x hx => ?_, h.apart.filter _, fun k hk => ?_⟩
      · obtain ⟨hx, hbelow⟩ := List.mem_filter.mp hx
        exact (h.live x hx).rewind h.ok hrewind hbelow
      · obtain ⟨hk, hkeep⟩ := List.mem_filter.mp hk
        exact (h.kept k hk).rewind h.ok hrewind hkeep

theorem Holds.reset (h : Holds s) : ∃ s', s.step .reset = some s' ∧ Holds s' := by
  refine ⟨_, rfl, ?_⟩
  rw [Arena.reset]
  cases hchunks : s.arena.chunks with
  | nil =>
      refine ⟨h.ok, h.live, h.apart, fun m hm => h.kept m (List.mem_of_mem_filter hm)⟩
  | cons c after =>
      have haddrs := h.ok.addrs
      have hfits := h.ok.fits
      rw [hchunks] at haddrs hfits
      rw [total_cons] at hfits
      refine ⟨⟨by simp, fun d hd => ?_, ?_, rfl, nofun⟩, nofun, .nil, fun k hk => ?_⟩
      · rw [List.mem_singleton.mp hd]
        exact Nat.zero_le _
      · change total _ [_] < 2 ^ 64
        rw [total_cons, total_nil]
        change headerSize + c.capacity + 0 < _
        omega
      · obtain ⟨hk, hkeep⟩ := List.mem_filter.mp hk
        obtain ⟨d, hd, haddr⟩ := h.kept k hk
        rw [hchunks] at hd
        rw [haddr] at hkeep
        have hsame : d.addr = c.addr := by simpa using hkeep
        obtain ⟨rfl, hbase⟩ := at_cut_last [] haddrs hd hsame
        refine ⟨{ d with used := 0 }, ?_, haddr⟩
        rw [hbase]
        exact at_concat [] _

theorem Holds.getPtr (h : Holds s) (offset : Nat) : ∃ s', s.step (.getPtr offset) = some s' ∧ Holds s' := by
  obtain ⟨p, a', hget, hok, hchunks, -⟩ := h.ok.getPtr offset
  rw [State.step, hget, Option.map_some]
  exact ⟨_, rfl, hok, hchunks ▸ h.live, h.apart, hchunks ▸ h.kept⟩

theorem Holds.step (h : Holds s) {op : Op} (hallowed : s.Allowed op) (hfits : s.Fits op) :
    ∃ s', s.step op = some s' ∧ Holds s' := by
  cases op with
  | alloc size fresh => exact h.alloc hallowed hfits
  | mark => exact h.mark
  | resetTo m => exact h.resetTo hfits
  | reset => exact h.reset
  | getPtr offset => exact h.getPtr offset

end Steps

section Runs

inductive Run (Cond : State → Op → Prop) : State → Prop
  | init (defaultChunkCapacity : Nat) : Run Cond (.init defaultChunkCapacity)
  | step {s s' : State} (op : Op) (h : Run Cond s) (hallowed : s.Allowed op) (hcond : Cond s op)
      (hstep : s.step op = some s') : Run Cond s'

theorem Run.holds {s : State} (h : Run State.Fits s) : Holds s := by
  induction h with
  | init defaultChunkCapacity => exact holds_init defaultChunkCapacity
  | step op _ hallowed hfits hstep ih =>
      obtain ⟨s', hstep', hs'⟩ := ih.step hallowed hfits
      obtain rfl := Option.some.inj (hstep.symm.trans hstep')
      exact hs'

/-- In every run of sizes that can be aligned and rewinds to marks that are not stale, every
byte of an allocation that was not rewound or reset is found at its offset, and no two
allocations share an offset. No step reads a freed chunk. -/
theorem offsets_resolve {s : State} (h : Run State.Fits s) :
    (∀ x ∈ s.live, ∀ i < x.size, ∃ a,
      s.arena.getPtr (x.offset + i) = some (some ⟨x.ptr.chunk, x.ptr.offset + i⟩, a)) ∧
    (s.live.Pairwise fun x y => y.offset + y.size ≤ x.offset) ∧
    ∀ op, s.Allowed op → s.Fits op → ∃ s', s.step op = some s' := by
  have hs := h.holds
  refine ⟨fun x hx i hi => ?_, hs.apart, fun op hallowed hfits => ?_⟩
  · obtain ⟨c, base, hc, haddr, hoffset, hend⟩ := hs.live x hx
    obtain ⟨p, a, hget, -, -, hfound⟩ := hs.ok.getPtr (x.offset + i)
    have hp := hfound c base hc (by omega) (by omega)
    have hlocal : x.offset + i - base = x.ptr.offset + i := by omega
    rw [hlocal, haddr] at hp
    exact ⟨a, hp ▸ hget⟩
  · obtain ⟨s', hstep, -⟩ := hs.step hallowed hfits
    exact ⟨s', hstep⟩

theorem Run.weaken {Cond : State → Op → Prop} {s : State} (h : Run Cond s) : Run (fun _ _ => True) s := by
  induction h with
  | init defaultChunkCapacity => exact .init defaultChunkCapacity
  | step op _ hallowed _ hstep ih => exact ih.step op hallowed trivial hstep

/-- An arena with one allocation of eight bytes. -/
def one : State := ⟨⟨[⟨1000, 8, 16⟩], 16, 0, none, 0, 1⟩, [⟨0, 8, ⟨1000, 0⟩⟩], []⟩

theorem one_run : Run State.Fits one := by
  refine .step (.alloc 8 (some 1000)) (.init 16) ⟨by decide, ?_⟩ (by decide : 8 ≤ sizeMax - 7) rfl
  rintro _ ⟨⟩
  decide

/-- A mark in the chunk at 2000, the chunk freed by a rewind before it, and a new chunk at
its address. -/
def reused : State :=
  ⟨⟨[⟨1000, 8, 16⟩, ⟨2000, 16, 16⟩], 16, 8, none, 0, 2⟩, [⟨8, 16, ⟨2000, 0⟩⟩, ⟨0, 8, ⟨1000, 0⟩⟩], [⟨some 1000, 8, 0⟩]⟩

theorem reused_run : Run State.Fits reused := by
  have h₁ : Run State.Fits { one with kept := [⟨some 1000, 8, 0⟩] } := .step .mark one_run trivial trivial rfl
  have h₂ : Run State.Fits ⟨⟨[⟨1000, 16, 16⟩], 16, 0, none, 0, 1⟩, [⟨8, 8, ⟨1000, 8⟩⟩, ⟨0, 8, ⟨1000, 0⟩⟩],
      [⟨some 1000, 8, 0⟩]⟩ :=
    .step (.alloc 8 none) h₁ trivial (by decide : 8 ≤ sizeMax - 7) rfl
  have h₃ : Run State.Fits ⟨⟨[⟨1000, 16, 16⟩, ⟨2000, 8, 16⟩], 16, 16, none, 0, 1⟩,
      [⟨16, 8, ⟨2000, 0⟩⟩, ⟨8, 8, ⟨1000, 8⟩⟩, ⟨0, 8, ⟨1000, 0⟩⟩], [⟨some 1000, 8, 0⟩]⟩ := by
    refine .step (.alloc 8 (some 2000)) h₂ ⟨by decide, ?_⟩ (by decide : 8 ≤ sizeMax - 7) rfl
    rintro _ ⟨⟩
    decide
  -- the lookup leaves the second chunk in the cache, the rewind to the first mark frees it
  have h₄ := h₃.step (.getPtr 17) trivial trivial rfl
  have h₅ := h₄.step .mark trivial trivial rfl
  have h₆ : Run State.Fits ⟨⟨[⟨1000, 8, 16⟩], 16, 0, none, 0, 2⟩, [⟨0, 8, ⟨1000, 0⟩⟩], [⟨some 1000, 8, 0⟩]⟩ :=
    h₅.step (.resetTo ⟨some 1000, 8, 0⟩) trivial (.inl (by decide)) rfl
  refine h₆.step (.alloc 16 (some 2000)) ⟨by decide, ?_⟩ (by decide : 16 ≤ sizeMax - 7) rfl
  rintro _ ⟨⟩
  decide

theorem offsets_resolve_reused : ∃ a, reused.arena.getPtr 20 = some (some ⟨2000, 12⟩, a) :=
  (offsets_resolve reused_run).1 ⟨8, 16, ⟨2000, 0⟩⟩ (by decide) 12 (by decide)

/-- A request of SIZE_MAX bytes is answered with a pointer, and nothing is taken. -/
def overflowed : State := ⟨⟨[⟨1000, 8, 16⟩], 16, 0, none, 0, 1⟩, [⟨8, sizeMax, ⟨1000, 8⟩⟩, ⟨0, 8, ⟨1000, 0⟩⟩], []⟩

theorem overflowed_run : Run (fun _ _ => True) overflowed :=
  .step (.alloc sizeMax none) one_run.weaken trivial trivial rfl

/-- A rewind to the stale mark, and one more allocation. -/
def stale : State :=
  ⟨⟨[⟨1000, 8, 16⟩, ⟨2000, 16, 16⟩], 16, 16, none, 0, 3⟩, [⟨24, 8, ⟨2000, 8⟩⟩, ⟨0, 8, ⟨1000, 0⟩⟩], [⟨some 1000, 8, 0⟩]⟩

theorem stale_run : Run (fun _ _ => True) stale := by
  have h : Run (fun _ _ => True) ⟨⟨[⟨1000, 8, 16⟩, ⟨2000, 8, 16⟩], 16, 16, none, 0, 3⟩, [⟨0, 8, ⟨1000, 0⟩⟩],
      [⟨some 1000, 8, 0⟩]⟩ :=
    reused_run.weaken.step (.resetTo ⟨some 2000, 8, 16⟩) trivial trivial rfl
  exact h.step (.alloc 8 none) trivial trivial rfl

/-- Neither of the last allocations is found at its offset. -/
theorem offsets_lost :
    (Run (fun _ _ => True) overflowed ∧ ⟨8, sizeMax, ⟨1000, 8⟩⟩ ∈ overflowed.live ∧
      (overflowed.arena.getPtr 8).map (·.1) = some none) ∧
    Run (fun _ _ => True) stale ∧ ⟨24, 8, ⟨2000, 8⟩⟩ ∈ stale.live ∧ (stale.arena.getPtr 24).map (·.1) = some none :=
  ⟨⟨overflowed_run, by decide, by decide⟩, stale_run, by decide, by decide⟩

end Runs

end Ore.ChunkArena
