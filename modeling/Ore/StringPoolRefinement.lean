import Ore.StringPoolNames

namespace Ore.StringPoolRefinement

open Probing StringPoolModel StringPoolNames
open HashMapModel (maskNext)
open HashMapRefinement (maskNext_eq)
open WorkspaceModel (Bytes)

def view (buffer : Memory) (slots : Nat → Nat) : Table Bytes Nat :=
  fun i => if slots i = poolEmpty then none else some (textAt buffer (slots i), slots i)

/-- The table finds exactly the names, each with its id. -/
structure Indexed (buffer : Memory) (slots : Nat → Nat) (n : Nat) (names : List Bytes) : Prop where
  count : ∃ k, 4 ≤ k ∧ n = 2 ^ k
  packed : Packed (home n) n (view buffer slots)
  content : ∀ s id, Holds n (view buffer slots) s id ↔ s ∈ names ∧ id = idOf 5 names s

structure Stored (pool : StringPool) (names : List Bytes) : Prop where
  blocks : Blocks pool.buffer 5 names pool.len
  nodup : names.Nodup
  nonempty : [] ∉ names
  indexed : Indexed pool.buffer pool.slots pool.slotCount names
  used : pool.slotUsed = names.length
  load : pool.slotUsed * 10 ≤ pool.slotCount * 7
  room : pool.len ≤ pool.cap

variable {names : List Bytes} {s t : Bytes} {n i id : Nat} {buffer buffer' : Memory} {slots : Nat → Nat}
    {pool : StringPool}

theorem home_lt (k : Nat) (s : Bytes) : home (2 ^ k) s < 2 ^ k := by
  rw [home, Nat.and_two_pow_sub_one_eq_mod]
  exact Nat.mod_lt _ (Nat.two_pow_pos k)

theorem view_none : view buffer slots i = none ↔ slots i = poolEmpty := by
  unfold view
  split <;> simp_all

theorem view_some (h : view buffer slots i = some (s, id)) : slots i = id ∧ textAt buffer id = s ∧ id ≠ poolEmpty := by
  unfold view at h
  split at h
  · simp at h
  · rename_i hne
    simp only [Option.some.injEq, Prod.mk.injEq] at h
    exact ⟨h.2, h.2 ▸ h.1, h.2 ▸ hne⟩

theorem view_update (h : id ≠ poolEmpty) :
    view buffer (Function.update slots i id) = Function.update (view buffer slots) i (some (textAt buffer id, id)) := by
  funext x
  by_cases hx : x = i
  · subst hx
    simp [view, h]
  · simp [view, Function.update_of_ne hx]

theorem match_iff (hs : s.length < 2 ^ 32) :
    (readU32 buffer id = s.length % 2 ^ 32 ∧ readBytes buffer (id + 4) s.length = s) ↔ textAt buffer id = s := by
  rw [Nat.mod_eq_of_lt hs]
  constructor
  · rintro ⟨hlen, hbytes⟩
    rw [textAt, hlen, hbytes]
  · intro htext
    have hlen : readU32 buffer id = s.length := by rw [← htext, textAt, length_readBytes]
    exact ⟨hlen, by rwa [textAt, hlen] at htext⟩

theorem findSlot_eq_probe (pool : StringPool) (hs : s.length < 2 ^ 32) :
    findSlot pool s = (probe pool.slotCount (maskNext pool.slotCount) (fun k => decide (k = s))
      (view pool.buffer pool.slots)
      (home pool.slotCount s)).map fun i => (i, pool.slots i) := by
  refine Loop.run_map (fun i => (i, pool.slots i)) (fun i => ?_) _ _
  unfold findStep probeStep
  by_cases hempty : pool.slots i = poolEmpty
  · simp [view_none.mpr hempty, hempty]
  · have hview : view pool.buffer pool.slots i = some (textAt pool.buffer (pool.slots i), pool.slots i) := if_neg hempty
    rw [hview]
    simp only [hempty, if_false, match_iff hs, decide_eq_true_eq]
    split <;> rfl

theorem freeSlot_eq_probe (buffer : Memory) (slots : Nat → Nat) (n i : Nat) :
    freeSlot n slots i = probe n (maskNext n) (fun _ => false) (view buffer slots) i := by
  unfold freeSlot probe
  congr 1
  funext j
  unfold probeStep
  by_cases hempty : slots j = poolEmpty
  · simp [view_none.mpr hempty, hempty]
  · have hview : view buffer slots j = some (textAt buffer (slots j), slots j) := if_neg hempty
    simp [hview, hempty]

namespace Indexed

theorem exists_empty (h : Indexed buffer slots n names) (hlt : names.length < n) : ∃ e < n,
    view buffer slots e = none := by
  classical
  refine h.packed.exists_empty names.toFinset (fun s id hheld => ?_) (lt_of_le_of_lt (List.toFinset_card_le names) hlt)
  rw [List.mem_toFinset]
  exact ((h.content s id).mp hheld).1

theorem congr {b : Nat} (h : Indexed buffer slots n names) (hblocks : Blocks buffer' 5 names b) :
    Indexed buffer' slots n names := by
  have heq : ∀ x < n, view buffer' slots x = view buffer slots x := by
    intro x hx
    cases hview : view buffer slots x with
    | none => rw [view_none] at hview ⊢; exact hview
    | some entry =>
        obtain ⟨s, id⟩ := entry
        obtain ⟨hslot, htext, hne⟩ := view_some hview
        obtain ⟨hmem, hid⟩ := (h.content s id).mp ⟨x, hx, hview⟩
        have htext' : textAt buffer' id = s := by rw [hid]; exact (hblocks.block hmem).1.text
        rw [view, hslot, if_neg hne, htext']
  refine ⟨h.count, h.packed.congr_slots heq, fun s id => ?_⟩
  rw [holds_congr heq, h.content]

/-- A new name is stored in the slot where its probe stopped. -/
theorem store (h : Indexed buffer slots n names) (hs : s ∉ names) (hi : i < n) (hempty : slots i = poolEmpty)
    (hpath : ∀ y < n, gap n (home n s) y < gap n (home n s) i → Occupied (view buffer slots) y)
    (hne : id ≠ poolEmpty) (htext : textAt buffer id = s) (hid : idOf 5 (names ++ [s]) s = id) :
    Indexed buffer (Function.update slots i id) n (names ++ [s]) := by
  have hnone : view buffer slots i = none := view_none.mpr hempty
  have habsent (v : Nat) : ¬Holds n (view buffer slots) s v := fun hheld => hs ((h.content s v).mp hheld).1
  have hview : view buffer (Function.update slots i id) = _ := view_update hne
  rw [htext] at hview
  refine ⟨h.count, ?_, fun k v => ?_⟩
  · rw [hview]
    exact h.packed.store s id i hnone habsent hpath
  · rw [hview, holds_update_iff hi s id (fun x v hx _ htx => habsent v ⟨x, hx, htx⟩), List.mem_append,
      List.mem_singleton]
    split
    · rename_i heq
      subst heq
      simp [hid]
    · rename_i hkne
      have hheld : (∃ x < n, x ≠ i ∧ view buffer slots x = some (k, v)) ↔ Holds n (view buffer slots) k v := by
        constructor
        · rintro ⟨x, hx, -, hxv⟩
          exact ⟨x, hx, hxv⟩
        · rintro ⟨x, hx, hxv⟩
          refine ⟨x, hx, ?_, hxv⟩
          rintro rfl
          rw [hnone] at hxv
          simp at hxv
      rw [hheld, h.content]
      constructor
      · rintro ⟨hmem, hv⟩
        exact ⟨.inl hmem, by rw [hv, idOf_append hmem]⟩
      · rintro ⟨hmem, hv⟩
        have hmem := hmem.resolve_right hkne
        exact ⟨hmem, by rw [hv, idOf_append hmem]⟩

/-- What the rehash has copied after `x` slots of the old table. -/
theorem rehash_prefix (h : Indexed pool.buffer pool.slots pool.slotCount names) {k : Nat} (hlt : names.length < 2 ^ k)
    (x : Nat) (hx : x ≤ pool.slotCount) :
    ∃ slots, (List.range x).foldlM (rehashSlot pool (2 ^ k)) (fun _ => poolEmpty) = some slots ∧
      Packed (home (2 ^ k)) (2 ^ k) (view pool.buffer slots) ∧
      ∀ s id, Holds (2 ^ k) (view pool.buffer slots) s id ↔ ∃ y < x, view pool.buffer pool.slots y = some (s, id) := by
  classical
  induction x with
  | zero =>
      have hnone : view pool.buffer (fun _ => poolEmpty) = fun _ => none := by
        funext y
        exact view_none.mpr rfl
      refine ⟨fun _ => poolEmpty, rfl, hnone ▸ packed_empty _ _, fun s id => ?_⟩
      simp [hnone, Holds]
  | succ x ih =>
      obtain ⟨slots, hfold, hpacked, hheld⟩ := ih (by omega)
      rw [List.range_succ, List.foldlM_append, hfold]
      cases hview : view pool.buffer pool.slots x with
      | none =>
          refine ⟨slots, by simp [rehashSlot, view_none.mp hview], hpacked, fun s id => ?_⟩
          rw [hheld]
          constructor
          · rintro ⟨y, hy, hyv⟩
            exact ⟨y, by omega, hyv⟩
          · rintro ⟨y, hy, hyv⟩
            have hne : y ≠ x := by
              rintro rfl
              rw [hview] at hyv
              simp at hyv
            exact ⟨y, by omega, hyv⟩
      | some entry =>
          obtain ⟨s, id⟩ := entry
          obtain ⟨hslot, htext, hne⟩ := view_some hview
          have hfresh (v : Nat) : ¬Holds (2 ^ k) (view pool.buffer slots) s v := by
            rw [hheld]
            rintro ⟨y, hy, hyv⟩
            have := h.packed.unique y x s v id (by omega) (by omega) hyv hview
            omega
          obtain ⟨e, he, hempty⟩ := hpacked.exists_empty names.toFinset
            (fun s id hs => by
              obtain ⟨y, hy, hyv⟩ := (hheld s id).mp hs
              rw [List.mem_toFinset]
              exact ((h.content s id).mp ⟨y, by omega, hyv⟩).1)
            (lt_of_le_of_lt (List.toFinset_card_le names) hlt)
          obtain ⟨j, hprobe, hj, hnone, hpath⟩ := probe_free (2 ^ k) _ (home (2 ^ k) s) e (home_lt k s) he hempty
          have hupdate : view pool.buffer (Function.update slots j id) = _ := view_update hne
          rw [htext] at hupdate
          refine ⟨Function.update slots j id, ?_, ?_, fun s' v => ?_⟩
          · simp [rehashSlot, hslot, hne, htext, freeSlot_eq_probe pool.buffer, maskNext_eq, hprobe]
          · rw [hupdate]
            exact hpacked.store s id j hnone hfresh hpath
          · rw [hupdate, holds_update_iff hj s id (fun y v hy _ hyv => hfresh v ⟨y, hy, hyv⟩)]
            split
            · rename_i heq
              subst heq
              constructor
              · rintro rfl
                exact ⟨x, by omega, hview⟩
              · rintro ⟨y, hy, hyv⟩
                have := h.packed.unique y x s' v id (by omega) (by omega) hyv hview
                subst this
                rw [hview] at hyv
                simpa using hyv.symm
            · rename_i hsne
              constructor
              · rintro ⟨y, hy, -, hyv⟩
                obtain ⟨z, hz, hzv⟩ := (hheld s' v).mp ⟨y, hy, hyv⟩
                exact ⟨z, by omega, hzv⟩
              · rintro ⟨z, hz, hzv⟩
                have hzx : z ≠ x := by
                  rintro rfl
                  rw [hview] at hzv
                  simp only [Option.some.injEq, Prod.mk.injEq] at hzv
                  exact hsne hzv.1.symm
                obtain ⟨y, hy, hyv⟩ := (hheld s' v).mpr ⟨z, by omega, hzv⟩
                refine ⟨y, hy, ?_, hyv⟩
                rintro rfl
                rw [hnone] at hyv
                simp at hyv

/-- Rehashing into a table with room keeps what is found. -/
theorem resize (h : Indexed pool.buffer pool.slots pool.slotCount names) {k : Nat} (hk : 4 ≤ k)
    (hlt : names.length < 2 ^ k) :
    ∃ slots, slotsResize pool (2 ^ k) = some { pool with slots := slots, slotCount := 2 ^ k } ∧
      Indexed pool.buffer slots (2 ^ k) names := by
  obtain ⟨slots, hfold, hpacked, hheld⟩ := h.rehash_prefix hlt pool.slotCount (Nat.le_refl _)
  have hassert : 16 ≤ 2 ^ k ∧ 2 ^ k &&& (2 ^ k - 1) = 0 :=
    ⟨HashMapRefinement.two_pow_ge hk, by rw [Nat.and_two_pow_sub_one_eq_mod, Nat.mod_self]⟩
  refine ⟨slots, by rw [slotsResize, if_pos hassert, hfold, Option.map_some], ⟨k, hk, rfl⟩, hpacked, fun s id => ?_⟩
  rw [hheld, ← h.content]
  rfl

/-- The probe finds a name, or the slot where a new one can be stored. -/
theorem findSlot_spec (h : Indexed pool.buffer pool.slots pool.slotCount names) (hlt : names.length < pool.slotCount)
    (hs : s.length < 2 ^ 32) :
    ∃ i < pool.slotCount, (s ∈ names ∧ findSlot pool s = some (i, idOf 5 names s) ∧ idOf 5 names s ≠ poolEmpty) ∨
      (s ∉ names ∧ findSlot pool s = some (i, poolEmpty) ∧ pool.slots i = poolEmpty ∧
        ∀ y < pool.slotCount, gap pool.slotCount (home pool.slotCount s) y < gap pool.slotCount
          (home pool.slotCount s) i →
          Occupied (view pool.buffer pool.slots) y) := by
  obtain ⟨e, he, hempty⟩ := h.exists_empty hlt
  obtain ⟨k, hk, hcount⟩ := h.count
  have hhome : home pool.slotCount s < pool.slotCount := by
    rw [hcount]
    exact home_lt k s
  have hnext : maskNext pool.slotCount = next pool.slotCount := by rw [hcount, maskNext_eq]
  obtain ⟨i, hprobe, hi, hcases⟩ := h.packed.probe_key s hhome e he hempty
  have hfind : findSlot pool s = some (i, pool.slots i) := by
    rw [findSlot_eq_probe pool hs, hnext]
    exact congrArg (Option.map fun i => (i, pool.slots i)) hprobe
  refine ⟨i, hi, ?_⟩
  rcases hcases with ⟨id, hview⟩ | ⟨hnone, habsent, hpath⟩
  · obtain ⟨hslot, -, hne⟩ := view_some hview
    obtain ⟨hmem, hid⟩ := (h.content s id).mp ⟨i, hi, hview⟩
    exact .inl ⟨hmem, by rw [hfind, hslot, hid], hid ▸ hne⟩
  · have hslot := view_none.mp hnone
    refine .inr ⟨fun hmem => ?_, by rw [hfind, hslot], hslot, hpath⟩
    exact habsent _ ((h.content s _).mpr ⟨hmem, rfl⟩)

end Indexed

theorem Stored.length_lt (h : Stored pool names) : names.length < pool.slotCount := by
  obtain ⟨k, hk, hcount⟩ := h.indexed.count
  have := HashMapRefinement.two_pow_ge hk
  have := h.used
  have := h.load
  omega

theorem Stored.resize (h : Stored pool names) {k : Nat} (hk : 4 ≤ k) (hload : pool.slotUsed * 10 ≤ 2 ^ k * 7) :
    ∃ pool', slotsResize pool (2 ^ k) = some pool' ∧ Stored pool' names ∧ pool'.slotUsed = pool.slotUsed ∧
      pool'.slotCount = 2 ^ k ∧ pool'.len = pool.len := by
  have hlt : names.length < 2 ^ k := by
    have := HashMapRefinement.two_pow_ge hk
    have := h.used
    omega
  obtain ⟨slots, hresize, hindexed⟩ := h.indexed.resize hk hlt
  exact ⟨_, hresize, ⟨h.blocks, h.nodup, h.nonempty, hindexed, h.used, hload, h.room⟩, rfl, rfl, rfl⟩

theorem poolReserveSlots_spec (h : Stored pool names) (expectedMore : Nat) :
    ∃ pool', poolReserveSlots pool expectedMore = some pool' ∧ Stored pool' names := by
  have hloop : ∃ target, Loop.run (fun target => if target * 7 < (pool.slotUsed + expectedMore) * 10 then .inl
    (target * 2)
      else .inr target) ((pool.slotUsed + expectedMore) * 10 + 1) 16 = some target ∧
      (∃ k, 4 ≤ k ∧ target = 2 ^ k) ∧ (pool.slotUsed + expectedMore) * 10 ≤ target * 7 := by
    refine Loop.run_spec _ (fun target => ∃ k, 4 ≤ k ∧ target = 2 ^ k)
      (fun target => (∃ k, 4 ≤ k ∧ target = 2 ^ k) ∧ (pool.slotUsed + expectedMore) * 10 ≤ target * 7)
      (fun target => (pool.slotUsed + expectedMore) * 10 - target * 7) ?_ ?_ _ _ ⟨4, Nat.le_refl _, rfl⟩ (by omega)
    · rintro target target' ⟨k, hk, rfl⟩ hturn
      split at hturn
      · obtain rfl := Sum.inl.inj hturn
        have := Nat.two_pow_pos k
        exact ⟨⟨k + 1, by omega, by rw [Nat.pow_succ]⟩, by omega⟩
      · simp at hturn
    · rintro target r hinv hturn
      split at hturn
      · simp at hturn
      · obtain rfl := Sum.inr.inj hturn
        exact ⟨hinv, by omega⟩
  obtain ⟨target, hrun, ⟨k, hk, rfl⟩, hload⟩ := hloop
  simp only [poolReserveSlots, hrun, Option.bind_some]
  split
  · obtain ⟨pool', hresize, hstored, -⟩ := h.resize hk (by omega)
    exact ⟨pool', hresize, hstored⟩
  · exact ⟨pool, rfl, h⟩

theorem poolReserve_spec (pool : StringPool) (need : Nat) :
    ∃ cap, poolReserve pool need = some { pool with cap := cap } ∧ pool.len + need ≤ cap := by
  unfold poolReserve
  split
  · exact ⟨pool.cap, rfl, by assumption⟩
  · have hloop : ∃ nc, Loop.run (fun nc => if nc < pool.len + need then .inl (nc * 2) else .inr nc)
      (pool.len + need + 1)
        (if pool.cap ≠ 0 then pool.cap else stringpoolInitialCap) = some nc ∧ pool.len + need ≤ nc := by
      refine Loop.run_spec _ (fun nc => 0 < nc) (fun nc => pool.len + need ≤ nc) (fun nc => pool.len + need - nc) ?_
        ?_ _ _ ?_ ?_
      · intro nc nc' hpos hturn
        split at hturn
        · obtain rfl := Sum.inl.inj hturn
          exact ⟨by omega, by omega⟩
        · simp at hturn
      · intro nc r hpos hturn
        split at hturn
        · simp at hturn
        · obtain rfl := Sum.inr.inj hturn
          omega
      · split
        · omega
        · decide
      · omega
    obtain ⟨nc, hrun, hle⟩ := hloop
    exact ⟨nc, by rw [hrun, Option.map_some], hle⟩

/-- Wherever the cut offset points, the block is written there. -/
theorem insertAt_writes (pool : StringPool) (i : Nat) (s : Bytes) :
    ∃ pool', insertAt pool i s = some (pool', pool.len % 2 ^ 32) ∧
      pool'.buffer = writeBlock pool.buffer (pool.len % 2 ^ 32) s := by
  obtain ⟨cap, hreserve, -⟩ := poolReserve_spec pool ((s.length + 5) % 2 ^ 32)
  simp only [insertAt, appendBlock, hreserve, Option.map_some]
  exact ⟨_, rfl, rfl⟩

/-- Writing the block of a new name behind the others. -/
theorem appendBlock_spec (h : Blocks pool.buffer 5 names pool.len) (hs : s.length + 5 < 2 ^ 32)
    (hlen : pool.len < poolEmpty) :
    ∃ pool', appendBlock pool s = some (pool', pool.len) ∧ Blocks pool'.buffer 5 (names ++ [s]) pool'.len ∧
      Blocks pool'.buffer 5 names pool.len ∧ pool'.slots = pool.slots ∧ pool'.slotCount = pool.slotCount ∧
      pool'.slotUsed = pool.slotUsed ∧ pool'.len ≤ pool'.cap := by
  have hoffset : pool.len % 2 ^ 32 = pool.len := Nat.mod_eq_of_lt (Nat.lt_of_lt_of_le hlen (by decide))
  obtain ⟨cap, hreserve, hcap⟩ := poolReserve_spec pool ((s.length + 5) % 2 ^ 32)
  rw [Nat.mod_eq_of_lt hs] at hcap
  have hblock := Block.written pool.buffer pool.len (s := s) (by omega)
  have hkept : Blocks (writeBlock pool.buffer pool.len s) 5 names pool.len := h.congr fun i hi => writeBlock_before hi
  refine ⟨{ pool with buffer := writeBlock pool.buffer pool.len s, len := pool.len + (s.length + 5), cap := cap }, ?_,
    hkept.append hblock hlen, hkept, rfl, rfl, rfl, hcap⟩
  rw [appendBlock, hreserve, Option.map_some, hoffset, Nat.mod_eq_of_lt hs]

/-- What an operation may be asked: a string that fits its length word, and,
when it is new, a pool whose end is still below the mark of an empty slot. -/
def Fits (pool : StringPool) : Op → Prop
  | .intern s => s.length + 5 < 2 ^ 32 ∧ (pool.len < poolEmpty ∨ poolLookup pool s ≠ some 0)
  | .lookup s => s.length < 2 ^ 32
  | .reserveSlots _ => True

theorem poolLookup_spec (h : Stored pool names) (hs : s.length < 2 ^ 32) :
    poolLookup pool s = some (idOf 5 names s) := by
  unfold poolLookup
  split
  · rename_i hempty
    rw [List.length_eq_zero_iff.mp hempty, idOf_of_not_mem h.nonempty]
  · have hlt := h.length_lt
    rw [if_neg (by omega)]
    obtain ⟨i, -, ⟨hmem, hfind, hne⟩ | ⟨hmem, hfind, -⟩⟩ := h.indexed.findSlot_spec hlt hs
    · simp [hfind, hne]
    · simp [hfind, idOf_of_not_mem hmem]

theorem insertAt_spec (h : Stored pool names) (hlen : pool.len < poolEmpty) (hs : s.length + 5 < 2 ^ 32) (hne : s ≠ [])
    (hmem : s ∉ names) (hi : i < pool.slotCount) (hempty : pool.slots i = poolEmpty)
    (hpath : ∀ y < pool.slotCount, gap pool.slotCount (home pool.slotCount s) y < gap pool.slotCount
      (home pool.slotCount s) i →
      Occupied (view pool.buffer pool.slots) y)
    (hload : (pool.slotUsed + 1) * 10 ≤ pool.slotCount * 7) :
    ∃ pool', insertAt pool i s = some (pool', idOf 5 (names ++ [s]) s) ∧ Stored pool' (names ++ [s]) := by
  obtain ⟨pool', happend, hblocks, hkept, hslots, hcount, hused, hroom⟩ := appendBlock_spec h.blocks hs hlen
  have hid := h.blocks.idOf_new hmem
  have htext : textAt pool'.buffer pool.len = s := by
    have hblock := (hblocks.block (s := s) (by simp)).1
    rw [hid] at hblock
    exact hblock.text
  have hold : Indexed pool'.buffer pool.slots pool.slotCount names := h.indexed.congr hkept
  have hpath' : ∀ y < pool.slotCount, gap pool.slotCount (home pool.slotCount s) y < gap pool.slotCount
    (home pool.slotCount s) i →
      Occupied (view pool'.buffer pool.slots) y := by
    intro y hy hlt
    have hocc := hpath y hy hlt
    rw [Occupied, Option.isSome_iff_ne_none, ne_eq, view_none] at hocc ⊢
    exact hocc
  refine ⟨{ pool' with slots := Function.update pool'.slots i pool.len, slotUsed := pool'.slotUsed + 1 }, ?_, ?_⟩
  · rw [insertAt, happend, Option.map_some, hid]
  refine ⟨hblocks, ?_, ?_, ?_, ?_, ?_, hroom⟩
  · exact List.nodup_append.mpr ⟨h.nodup, List.nodup_singleton s, by
      rintro a ha b hb rfl
      exact hmem (List.mem_singleton.mp hb ▸ ha)⟩
  · simp [h.nonempty, Ne.symm hne]
  · rw [hslots, hcount]
    exact hold.store hmem hi hempty hpath' (Nat.ne_of_lt hlen) htext hid
  · rw [hused, h.used, List.length_append, List.length_singleton]
  · rw [hused, hcount]
    exact hload

theorem grow_spec (h : Stored pool names) :
    ∃ pool', (if (pool.slotUsed + 1) * 10 > pool.slotCount * 7 then slotsResize pool (pool.slotCount * 2) else some
      pool) =
      some pool' ∧ Stored pool' names ∧ (pool'.slotUsed + 1) * 10 ≤ pool'.slotCount * 7 ∧ pool'.len = pool.len := by
  obtain ⟨k, hk, hcount⟩ := h.indexed.count
  have hload := h.load
  have h16 := HashMapRefinement.two_pow_ge hk
  split
  · obtain ⟨pool', hresize, hstored, hused, hcount', hlen⟩ := h.resize (k := k + 1) (by omega)
      (by rw [Nat.pow_succ]; omega)
    rw [hcount, ← Nat.pow_succ]
    exact ⟨pool', hresize, hstored, by rw [hused, hcount', Nat.pow_succ]; omega, hlen⟩
  · exact ⟨pool, rfl, h, by omega, rfl⟩

theorem poolIntern_grown {pool' : StringPool} (hlength : s.length ≠ 0)
    (hgrow : (if (pool.slotUsed + 1) * 10 > pool.slotCount * 7 then slotsResize pool (pool.slotCount * 2)
      else some pool) = some pool') :
    poolIntern pool s = (findSlot pool' s).bind fun (slot, existing) =>
      if existing ≠ poolEmpty then some (pool', existing) else insertAt pool' slot s := by
  rw [poolIntern, if_neg hlength, hgrow, Option.bind_some]

/-- After the growth a name is found, or goes to the slot where its probe
stopped. -/
theorem poolIntern_cases (h : Stored pool names) (hs : s.length < 2 ^ 32) (hne : s ≠ []) :
    ∃ pool' i, Stored pool' names ∧ pool'.len = pool.len ∧ (pool'.slotUsed + 1) * 10 ≤ pool'.slotCount * 7 ∧
      i < pool'.slotCount ∧ ((s ∈ names ∧ poolIntern pool s = some (pool', idOf 5 names s)) ∨
        (s ∉ names ∧ poolIntern pool s = insertAt pool' i s ∧ pool'.slots i = poolEmpty ∧
          ∀ y < pool'.slotCount, gap pool'.slotCount (home pool'.slotCount s) y < gap pool'.slotCount
            (home pool'.slotCount s) i →
            Occupied (view pool'.buffer pool'.slots) y)) := by
  obtain ⟨pool', hgrow, hstored, hload, hlen⟩ := grow_spec h
  have hlength : s.length ≠ 0 := fun hzero => hne (List.length_eq_zero_iff.mp hzero)
  have hintern := poolIntern_grown hlength hgrow
  obtain ⟨i, hi, ⟨hmem, hfind, hid⟩ | ⟨hmem, hfind, hempty, hpath⟩⟩ := hstored.indexed.findSlot_spec hstored.length_lt
    hs
  · exact ⟨pool', i, hstored, hlen, hload, hi, .inl ⟨hmem, by rw [hintern, hfind, Option.bind_some]; exact if_pos hid⟩⟩
  · refine ⟨pool', i, hstored, hlen, hload, hi, .inr ⟨hmem, ?_, hempty, hpath⟩⟩
    rw [hintern, hfind, Option.bind_some]
    exact if_neg (not_not_intro rfl)

theorem poolIntern_spec (h : Stored pool names) (hfits : Fits pool (.intern s)) :
    ∃ pool', poolIntern pool s = some (pool', idOf 5 (intern names s) s) ∧ Stored pool' (intern names s) := by
  obtain ⟨hs, hroom⟩ := hfits
  by_cases hne : s = []
  · rw [hne, StringPoolNames.intern, if_pos (.inl rfl), idOf_of_not_mem h.nonempty]
    exact ⟨pool, rfl, h⟩
  · obtain ⟨pool', i, hstored, hlen, hload, hi, ⟨hmem, hintern⟩ | ⟨hmem, hintern, hempty, hpath⟩⟩ :=
      poolIntern_cases h (Nat.lt_of_le_of_lt (Nat.le_add_right _ 5) hs) hne
    · rw [hintern, StringPoolNames.intern, if_pos (.inr hmem)]
      exact ⟨pool', rfl, hstored⟩
    · rw [hintern, StringPoolNames.intern, if_neg (by simp [hne, hmem])]
      have hbelow : pool'.len < poolEmpty := by
        rw [hlen]
        refine hroom.resolve_right fun hfound => hfound ?_
        rw [poolLookup_spec h (by omega), idOf_of_not_mem hmem]
      exact insertAt_spec hstored hbelow hs hne hmem hi hempty hpath hload

theorem poolInit_stored {k : Nat} (hk : 4 ≤ k) : Stored (poolInit (2 ^ k)) [] where
  blocks := rfl
  nodup := List.nodup_nil
  nonempty := List.not_mem_nil
  indexed := by
    have hnone : view (poolInit (2 ^ k)).buffer (poolInit (2 ^ k)).slots = fun _ => none := by
      funext i
      exact view_none.mpr rfl
    refine ⟨⟨k, hk, rfl⟩, hnone ▸ packed_empty _ _, fun s id => ?_⟩
    simp [hnone, Holds]
  used := rfl
  load := Nat.zero_le _
  room := by show 5 ≤ stringpoolInitialCap; decide

theorem step_spec (h : Stored pool names) (op : Op) (hfits : Fits pool op) :
    ∃ pool', step pool op = some (pool', (answer names op).2) ∧ Stored pool' (answer names op).1 := by
  cases op with
  | intern s => exact poolIntern_spec h hfits
  | lookup s => exact ⟨pool, by rw [step, poolLookup_spec h hfits, Option.map_some]; rfl, h⟩
  | reserveSlots n =>
      obtain ⟨pool', hreserve, hstored⟩ := poolReserveSlots_spec h n
      exact ⟨pool', by rw [step, hreserve, Option.map_some]; rfl, hstored⟩

/-- Every operation of the run may be asked where it stands. -/
def FitsAlong : StringPool → List Op → Prop
  | _, [] => True
  | pool, op :: ops => Fits pool op ∧ ∀ pool' id, step pool op = some (pool', id) → FitsAlong pool' ops

theorem run_spec (h : Stored pool names) (ops : List Op) (hfits : FitsAlong pool ops) :
    ∃ pool', run pool ops = some (pool', (answers names ops).2) ∧ Stored pool' (answers names ops).1 := by
  induction ops generalizing pool names with
  | nil => exact ⟨pool, rfl, h⟩
  | cons op ops ih =>
      obtain ⟨pool1, hstep, hstored⟩ := step_spec h op hfits.1
      obtain ⟨pool2, hrun, hstored'⟩ := ih hstored (hfits.2 _ _ hstep)
      refine ⟨pool2, ?_, hstored'⟩
      rw [run, hstep, Option.bind_some]
      dsimp only
      rw [hrun]
      rfl

def extent (names : List Bytes) : Nat := (names.map fun s => s.length + 5).sum

theorem blocks_end {a b : Nat} (h : Blocks buffer a names b) : b = a + extent names := by
  induction names generalizing a with
  | nil => exact Eq.symm h
  | cons x xs ih =>
      have hb := ih h.2
      simp only [extent, List.map_cons, List.sum_cons] at hb ⊢
      omega

theorem extent_intern (names : List Bytes) (s : Bytes) : extent (intern names s) ≤ extent names + s.length + 5 := by
  unfold StringPoolNames.intern
  split
  · omega
  · simp [extent]
    omega

/-- The bytes an operation brings along. -/
def weight : Op → Nat
  | .intern s => s.length + 5
  | .lookup s => s.length
  | .reserveSlots _ => 0

/-- Every operation may be asked as long as all bytes together stay below the
mark of an empty slot. -/
theorem fitsAlong_of_weight (h : Stored pool names) (ops : List Op)
    (hweight : 5 + extent names + (ops.map weight).sum < poolEmpty) : FitsAlong pool ops := by
  have h32 : poolEmpty < 2 ^ 32 := by decide
  induction ops generalizing pool names with
  | nil => trivial
  | cons op ops ih =>
      rw [List.map_cons, List.sum_cons] at hweight
      have hlen := blocks_end h.blocks
      have hfits : Fits pool op := by
        cases op with
        | intern s =>
            dsimp only [weight] at hweight
            exact ⟨by omega, .inl (by omega)⟩
        | lookup s =>
            dsimp only [weight] at hweight
            show s.length < 2 ^ 32
            omega
        | reserveSlots n => trivial
      refine ⟨hfits, fun pool' id hstep => ?_⟩
      obtain ⟨pool1, hstep', hstored⟩ := step_spec h op hfits
      rw [hstep', Option.some.injEq, Prod.mk.injEq] at hstep
      obtain ⟨rfl, -⟩ := hstep
      refine ih hstored ?_
      cases op with
      | intern s =>
          have := extent_intern names s
          dsimp only [weight, answer] at hweight ⊢
          omega
      | lookup s => exact Nat.lt_of_le_of_lt (by dsimp only [answer]; omega) hweight
      | reserveSlots n => exact Nat.lt_of_le_of_lt (by dsimp only [answer]; omega) hweight

end Ore.StringPoolRefinement
