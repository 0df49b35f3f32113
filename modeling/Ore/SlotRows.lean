import Ore.EngineModel
import Mathlib.Data.List.Nodup

namespace Ore.SlotRows

open EngineModel

/-- The kinds whose slots are found through a routing map. -/
inductive RoutedKind
  | topLevelEntry
  | defIdentity
  | resolveRef
  | inferInstance
  deriving DecidableEq, Repr

structure Hot (F : Type) where
  state : QueryState
  durability : Durability
  fingerprint : Option F
  verifiedRev : Nat
  deps : List (Dep F)
  provisional : Bool

structure Cold where
  computedRev : Nat
  routingKey : UInt64

/-- What the parallel columns of a table hold at one row. The extra column holds
the names of TOP_LEVEL_ENTRY and the diagnostics of INFER_INSTANCE. -/
structure Cells (R K F : Type) where
  result : R
  extra : K
  hot : Hot F
  cold : Cold

variable {R K F : Type}

def Hot.zero : Hot F := ⟨.empty, .low, none, 0, [], false⟩

def Cells.zero [Inhabited R] [Inhabited K] : Cells R K F := ⟨default, default, .zero, ⟨0, 0⟩⟩

def Cells.stamp (c : Cells R K F) (key : UInt64) : Cells R K F := { c with cold := { c.cold with routingKey := key } }

/-- The columns, the rows to reuse, last first, and the routing map. -/
structure Table (R K F : Type) where
  results : List R
  extras : List K
  hot : List (Hot F)
  cold : List Cold
  freeRows : List Nat
  route : UInt64 → Option Nat

namespace Table

/-- Only the sentinel row. -/
def initial [Inhabited R] [Inhabited K] : Table R K F where
  results := [default]
  extras := [default]
  hot := [.zero]
  cold := [⟨0, 0⟩]
  freeRows := []
  route := fun _ => none

/-- An absent key reads as row zero. -/
def routeGet (t : Table R K F) (key : UInt64) : Nat := (t.route key).getD 0

def row (t : Table R K F) (i : Nat) : Option (Cells R K F) :=
  match t.results[i]?, t.extras[i]?, t.hot[i]?, t.cold[i]? with
  | some result, some extra, some hot, some cold => some ⟨result, extra, hot, cold⟩
  | _, _, _, _ => none

def fill (t : Table R K F) (i : Nat) (c : Cells R K F) : Table R K F :=
  { t with
    results := t.results.set i c.result, extras := t.extras.set i c.extra, hot := t.hot.set i c.hot
    cold := t.cold.set i c.cold }

def push (t : Table R K F) (c : Cells R K F) : Table R K F :=
  { t with
    results := t.results ++ [c.result], extras := t.extras ++ [c.extra], hot := t.hot ++ [c.hot]
    cold := t.cold ++ [c.cold] }

section Alloc

variable [Inhabited R] [Inhabited K]

/-- Pop a reclaimed row and zero its columns, or grow by one. -/
def allocOrReuseRow (t : Table R K F) : Nat × Table R K F :=
  match t.freeRows.getLast? with
  | some i => (i, { t with freeRows := t.freeRows.dropLast }.fill i .zero)
  | none => (t.hot.length, t.push .zero)

def slotAlloc (t : Table R K F) (key : UInt64) : Table R K F :=
  if t.routeGet key ≠ 0 then t
  else
    let (i, t) := t.allocOrReuseRow
    { t with
      cold := t.cold.modify i fun cold => { cold with routingKey := key }
      route := Function.update t.route key (some i) }

end Alloc

def routeSlot (t : Table R K F) (key : UInt64) : Option Nat :=
  let i := t.routeGet key
  if i = 0 ∨ t.hot.length ≤ i then none else some i

def compute (t : Table R K F) (key : UInt64) (c : Cells R K F) : Table R K F :=
  match t.routeSlot key with
  | none => t
  | some i =>
      match t.row i with
      | none => t
      | some old =>
          t.fill i (c.stamp (if old.hot.state = .empty then key else old.cold.routingKey))

/-- The verified revision and the routing key stay. -/
def reclaimSlot (c : Cells R K F) : Cells R K F :=
  { c with
    hot := { c.hot with state := .empty, fingerprint := none, durability := .low, deps := [] }
    cold := { c.cold with computedRev := 0 } }

def isOrphan (threshold : Nat) (c : Cells R K F) : Bool := c.hot.state ≠ .empty && c.hot.verifiedRev < threshold

/-- The walk over the rows collects the keys to remove. -/
def reclaimRows (free : Cells R K F → Cells R K F) (threshold : Nat) :
    List Nat → Table R K F → List UInt64 → Table R K F × List UInt64
  | [], t, orphans => (t, orphans)
  | i :: rows, t, orphans =>
      match t.row i with
      | none => reclaimRows free threshold rows t orphans
      | some c =>
          if isOrphan threshold c then
            let t : Table R K F := { t.fill i (reclaimSlot (free c)) with freeRows := t.freeRows ++ [i] }
            reclaimRows free threshold rows t (orphans ++ [c.cold.routingKey])
          else reclaimRows free threshold rows t orphans

def unroute : List UInt64 → Table R K F → Table R K F
  | [], t => t
  | key :: keys, t => unroute keys { t with route := Function.update t.route key none }

def reclaimHashmapKind (free : Cells R K F → Cells R K F) (t : Table R K F) (threshold : Nat) : Table R K F :=
  let (t, orphans) := reclaimRows free threshold (List.range' 1 (t.hot.length - 1)) t []
  unroute orphans t

def view (t : Table R K F) (key : UInt64) : Option (Cells R K F) :=
  let i := t.routeGet key
  if i = 0 then none else t.row i

end Table

/-- The columns have the same rows. -/
structure Parallel (t : Table R K F) : Prop where
  results : t.results.length = t.hot.length
  extras : t.extras.length = t.hot.length
  cold : t.cold.length = t.hot.length

/-- Rows and keys match: every row but the sentinel is routed by one key, the one
stamped in it, or waits EMPTY on the free list. -/
structure Rows (t : Table R K F) : Prop extends Parallel t where
  sentinel : 0 < t.hot.length
  routed : ∀ key i, t.route key = some i → 0 < i ∧ ∃ c, t.row i = some c ∧ c.cold.routingKey = key
  free : ∀ i ∈ t.freeRows, 0 < i ∧ (∃ c, t.row i = some c ∧ c.hot.state = .empty) ∧ ∀ key, t.route key ≠ some i
  nodup : t.freeRows.Nodup
  kept : ∀ i, 0 < i → i < t.hot.length → (∃ key, t.route key = some i) ∨ i ∈ t.freeRows

section Columns

variable {t : Table R K F} {i : Nat} {c : Cells R K F}

theorem row_eq_some : t.row i = some c ↔
    t.results[i]? = some c.result ∧ t.extras[i]? = some c.extra ∧ t.hot[i]? = some c.hot ∧
      t.cold[i]? = some c.cold := by
  simp only [Table.row]
  split
  · rename_i hresult hextra hhot hcold
    rw [hresult, hextra, hhot, hcold]
    cases c
    simp
  · rename_i hmissing
    simp only [reduceCtorEq, false_iff]
    rintro ⟨hresult, hextra, hhot, hcold⟩
    exact hmissing _ _ _ _ hresult hextra hhot hcold

theorem row_lt (h : t.row i = some c) : i < t.hot.length :=
  (List.getElem?_eq_some_iff.mp (row_eq_some.mp h).2.2.1).1

theorem Parallel.row_some (h : Parallel t) (hi : i < t.hot.length) : ∃ c, t.row i = some c := by
  have hresults : i < t.results.length := h.results ▸ hi
  have hextras : i < t.extras.length := h.extras ▸ hi
  have hcold : i < t.cold.length := h.cold ▸ hi
  apply Exists.intro ⟨t.results[i], t.extras[i], t.hot[i], t.cold[i]⟩
  rw [row_eq_some]
  simp

theorem Parallel.row_none (h : Parallel t) : t.row i = none ↔ t.hot.length ≤ i := by
  constructor
  · intro hnone
    by_contra hlt
    obtain ⟨c, hc⟩ := h.row_some (Nat.not_le.mp hlt)
    rw [hnone] at hc
    simp at hc
  · intro hle
    by_contra hne
    obtain ⟨c, hc⟩ := Option.ne_none_iff_exists'.mp hne
    have hlt := row_lt hc
    omega

theorem Parallel.row_fill (h : Parallel t) (hi : i < t.hot.length) (j : Nat) :
    (t.fill i c).row j = if j = i then some c else t.row j := by
  have hresults : i < t.results.length := h.results ▸ hi
  have hextras : i < t.extras.length := h.extras ▸ hi
  have hcold : i < t.cold.length := h.cold ▸ hi
  by_cases hj : j = i
  · subst hj
    rw [if_pos rfl, row_eq_some]
    simp [Table.fill, *]
  · rw [if_neg hj]
    simp only [Table.row, Table.fill, List.getElem?_set_ne (Ne.symm hj)]

theorem Parallel.fill (h : Parallel t) : Parallel (t.fill i c) := by
  constructor <;> simp only [Table.fill, List.length_set]
  · exact h.results
  · exact h.extras
  · exact h.cold

theorem Parallel.row_push (h : Parallel t) (j : Nat) :
    (t.push c).row j = if j = t.hot.length then some c else t.row j := by
  rcases Nat.lt_trichotomy j t.hot.length with hlt | rfl | hgt
  · rw [if_neg (Nat.ne_of_lt hlt)]
    simp only [Table.row, Table.push]
    rw [List.getElem?_append_left (h.results ▸ hlt), List.getElem?_append_left (h.extras ▸ hlt),
      List.getElem?_append_left hlt, List.getElem?_append_left (h.cold ▸ hlt)]
  · rw [if_pos rfl, row_eq_some]
    simp only [Table.push]
    refine ⟨?_, ?_, ?_, ?_⟩
    · rw [← h.results, List.getElem?_concat_length]
    · rw [← h.extras, List.getElem?_concat_length]
    · rw [List.getElem?_concat_length]
    · rw [← h.cold, List.getElem?_concat_length]
  · rw [if_neg (Nat.ne_of_gt hgt), h.row_none.mpr (Nat.le_of_lt hgt)]
    have hout : (t.push c).hot[j]? = none := by
      rw [List.getElem?_eq_none_iff]
      simp only [Table.push, List.length_append, List.length_singleton]
      omega
    by_contra hne
    obtain ⟨c', hc'⟩ := Option.ne_none_iff_exists'.mp hne
    rw [(row_eq_some.mp hc').2.2.1] at hout
    simp at hout

theorem Parallel.push (h : Parallel t) : Parallel (t.push c) := by
  constructor <;> simp only [Table.push, List.length_append, List.length_singleton, Nat.add_right_cancel_iff]
  · exact h.results
  · exact h.extras
  · exact h.cold

theorem Rows.routeGet (h : Rows t) {key : UInt64} : t.routeGet key = 0 ↔ t.route key = none := by
  simp only [Table.routeGet]
  cases hroute : t.route key with
  | none => simp
  | some i =>
      have hi := (h.routed key i hroute).1
      simp only [Option.getD_some, reduceCtorEq, iff_false]
      omega

theorem Rows.view_eq (h : Rows t) (key : UInt64) : t.view key = (t.route key).bind t.row := by
  rcases Option.eq_none_or_eq_some (t.route key) with hroute | ⟨i, hroute⟩
  · simp [Table.view, Table.routeGet, hroute]
  · have hi := (h.routed key i hroute).1
    simp [Table.view, Table.routeGet, hroute, Nat.ne_of_gt hi]

theorem route_of_routeSlot {key : UInt64} (h : t.routeSlot key = some i) : t.route key = some i := by
  simp only [Table.routeSlot, Table.routeGet] at h
  cases hroute : t.route key with
  | none => simp [hroute] at h
  | some j =>
      simp only [hroute, Option.getD_some, Option.ite_none_left_eq_some, Option.some.injEq] at h
      rw [h.2]

theorem Rows.injective (h : Rows t) {key key' : UInt64} (hroute : t.route key = some i)
    (hroute' : t.route key' = some i) :
    key = key' := by
  obtain ⟨-, c, hc, hkey⟩ := h.routed key i hroute
  obtain ⟨-, c', hc', hkey'⟩ := h.routed key' i hroute'
  rw [hc] at hc'
  rw [← hkey, ← hkey', Option.some.inj hc']

theorem row_stamp (key : UInt64) (route : UInt64 → Option Nat) (j : Nat) :
    { t with cold := t.cold.modify i fun cold => { cold with routingKey := key }, route := route }.row j =
      if j = i then (t.row j).map fun c => { c with cold := { c.cold with routingKey := key } } else t.row j := by
  by_cases hj : j = i
  · subst hj
    rw [if_pos rfl]
    simp only [Table.row, List.getElem?_modify_eq]
    cases t.results[j]? <;> cases t.extras[j]? <;> cases t.hot[j]? <;> cases t.cold[j]? <;> rfl
  · rw [if_neg hj]
    simp only [Table.row, List.getElem?_modify, Ne.symm hj, if_false, Option.map_eq_map, Option.map_id']

end Columns

section Alloc

variable [Inhabited R] [Inhabited K] {t : Table R K F}

/-- A zero row with the routing key of its owner. -/
def fresh (key : UInt64) : Cells R K F := { Cells.zero with cold := ⟨0, key⟩ }

structure Taken (t : Table R K F) (i : Nat) (t' : Table R K F) : Prop extends Parallel t' where
  pos : 0 < i
  unrouted : ∀ key, t.route key ≠ some i
  lt : i < t'.hot.length
  row : ∀ j, t'.row j = if j = i then some .zero else t.row j
  free : ∀ j, j ∈ t'.freeRows ↔ j ∈ t.freeRows ∧ j ≠ i
  nodup : t'.freeRows.Nodup
  route : t'.route = t.route
  back : ∀ j, j < t'.hot.length → j = i ∨ j < t.hot.length

theorem Rows.allocOrReuseRow (h : Rows t) : Taken t t.allocOrReuseRow.1 t.allocOrReuseRow.2 := by
  simp only [Table.allocOrReuseRow]
  cases hlast : t.freeRows.getLast? with
  | some i =>
      obtain ⟨front, hfront⟩ := List.getLast?_eq_some_iff.mp hlast
      have hmem : i ∈ t.freeRows := by simp [hfront]
      obtain ⟨hpos, ⟨c, hc, -⟩, hunrouted⟩ := h.free i hmem
      have hnodup : front.Nodup ∧ i ∉ front := by
        have hn := h.nodup
        rw [hfront, List.nodup_append] at hn
        exact ⟨hn.1, fun hi => hn.2.2 i hi i (List.mem_singleton_self i) rfl⟩
      have hparallel : Parallel { t with freeRows := t.freeRows.dropLast } := ⟨h.results, h.extras, h.cold⟩
      constructor
      · exact hparallel.fill
      · exact hpos
      · exact hunrouted
      · simp only [Table.fill, List.length_set]
        exact row_lt hc
      · exact hparallel.row_fill (row_lt hc)
      · intro j
        simp only [Table.fill, hfront, List.dropLast_concat, List.mem_append, List.mem_singleton]
        constructor
        · exact fun hj => ⟨.inl hj, fun heq => hnodup.2 (heq ▸ hj)⟩
        · exact fun hj => hj.1.resolve_right hj.2
      · simp only [Table.fill, hfront, List.dropLast_concat]
        exact hnodup.1
      · rfl
      · intro j hj
        simp only [Table.fill, List.length_set] at hj
        exact .inr hj
  | none =>
      have hnil : t.freeRows = [] := List.getLast?_eq_none_iff.mp hlast
      constructor
      · exact h.toParallel.push
      · exact h.sentinel
      · intro key hroute
        obtain ⟨-, c, hc, -⟩ := h.routed key _ hroute
        exact Nat.lt_irrefl _ (row_lt hc)
      · simp [Table.push]
      · exact h.toParallel.row_push
      · simp [Table.push, hnil]
      · simp [Table.push, hnil]
      · rfl
      · intro j hj
        simp only [Table.push, List.length_append, List.length_singleton] at hj
        rcases Nat.lt_succ_iff_lt_or_eq.mp hj with hlt | heq
        · exact .inr hlt
        · exact .inl heq

theorem Rows.slotAlloc (h : Rows t) (key : UInt64) :
    Rows (t.slotAlloc key) ∧
      (t.slotAlloc key).view = if t.route key = none then Function.update t.view key
        (some (fresh key)) else t.view := by
  simp only [Table.slotAlloc]
  by_cases hnone : t.route key = none
  · rw [if_neg (not_not.mpr (h.routeGet.mpr hnone)), if_pos hnone]
    have htaken := h.allocOrReuseRow
    obtain ⟨i, t', halloc⟩ : ∃ i t', t.allocOrReuseRow = (i, t') := ⟨_, _, rfl⟩
    rw [halloc] at htaken ⊢
    simp only at htaken ⊢
    have hrow (j : Nat) : { t' with
        cold := t'.cold.modify i fun cold => { cold with routingKey := key }
        route := Function.update t'.route key (some i) }.row j = if j = i then some (fresh key) else t.row j := by
      rw [row_stamp, htaken.row]
      by_cases hj : j = i
      · simp [hj, fresh, Cells.zero]
      · simp [hj]
    have hroute (key' : UInt64) (j : Nat) : Function.update t'.route key (some i) key' = some j ↔
        key' = key ∧ j = i ∨ key' ≠ key ∧ t.route key' = some j := by
      rw [htaken.route]
      by_cases hkey : key' = key
      · subst hkey
        simp [eq_comm]
      · simp [hkey]
    have hother (key' : UInt64) (j : Nat) (hj : t.route key' = some j) : j ≠ i :=
      fun heq => htaken.unrouted key' (heq ▸ hj)
    have hrows : Rows { t' with
        cold := t'.cold.modify i fun cold => { cold with routingKey := key }
        route := Function.update t'.route key (some i) } := by
      constructor
      · exact ⟨htaken.results, htaken.extras, by rw [List.length_modify]; exact htaken.cold⟩
      · exact Nat.lt_of_le_of_lt (Nat.zero_le i) htaken.lt
      · intro key' j hj
        rw [hrow]
        rcases (hroute key' j).mp hj with ⟨rfl, rfl⟩ | ⟨-, hj⟩
        · exact ⟨htaken.pos, _, if_pos rfl, rfl⟩
        · rw [if_neg (hother key' j hj)]
          exact h.routed key' j hj
      · intro j hj
        obtain ⟨hmem, hne⟩ := (htaken.free j).mp hj
        obtain ⟨hpos, hempty, hunrouted⟩ := h.free j hmem
        refine ⟨hpos, ?_, fun key' hkey' => ?_⟩
        · rw [hrow, if_neg hne]
          exact hempty
        · rcases (hroute key' j).mp hkey' with ⟨-, heq⟩ | ⟨-, hold⟩
          · exact hne heq
          · exact hunrouted key' hold
      · exact htaken.nodup
      · intro j hpos hlt
        simp only [hroute]
        rcases htaken.back j hlt with rfl | hlt'
        · exact .inl ⟨key, .inl ⟨rfl, rfl⟩⟩
        · rcases h.kept j hpos hlt' with ⟨key', hkey'⟩ | hmem
          · refine .inl ⟨key', .inr ⟨fun heq => ?_, hkey'⟩⟩
            rw [heq, hnone] at hkey'
            simp at hkey'
          · by_cases hj : j = i
            · exact .inl ⟨key, .inl ⟨rfl, hj⟩⟩
            · exact .inr ((htaken.free j).mpr ⟨hmem, hj⟩)
    refine ⟨hrows, ?_⟩
    funext key'
    rw [hrows.view_eq]
    by_cases hkey : key' = key
    · subst hkey
      simp only [Function.update_self, Option.bind_some, hrow, if_true]
    · rw [Function.update_of_ne hkey, h.view_eq]
      have hsame : Function.update t'.route key (some i) key' = t.route key' := by
        rw [Function.update_of_ne hkey, htaken.route]
      simp only [hsame]
      cases hold : t.route key' with
      | none => rfl
      | some j => exact (hrow j).trans (if_neg (hother key' j hold))
  · rw [if_pos (fun hzero => hnone (h.routeGet.mp hzero)), if_neg hnone]
    exact ⟨h, rfl⟩

theorem initial_rows : Rows (Table.initial : Table R K F) := by
  constructor
  · exact ⟨rfl, rfl, rfl⟩
  · exact Nat.one_pos
  · intro key i hroute
    simp [Table.initial] at hroute
  · intro i hi
    simp [Table.initial] at hi
  · exact List.nodup_nil
  · intro i hpos hlt
    have hlt' : i < 1 := hlt
    omega

end Alloc

section Reclaim

variable {t : Table R K F} {i : Nat} {key : UInt64}

theorem Rows.compute_eq (h : Rows t) (c : Cells R K F) (hroute : t.route key = some i) :
    t.compute key c = t.fill i (c.stamp key) := by
  obtain ⟨hpos, old, hold, hkey⟩ := h.routed key i hroute
  have hlt := row_lt hold
  have hfound : t.routeSlot key = some i := by
    simp only [Table.routeSlot, Table.routeGet, hroute, Option.getD_some]
    rw [if_neg (by omega)]
  simp only [Table.compute, hfound, hold, hkey, ite_self]

theorem Rows.compute (h : Rows t) (key : UInt64) (c : Cells R K F) :
    Rows (t.compute key c) ∧
      (t.compute key c).view =
        if t.route key = none then t.view else Function.update t.view key (some (c.stamp key)) := by
  rcases Option.eq_none_or_eq_some (t.route key) with hroute | ⟨i, hroute⟩
  · have hsame : t.compute key c = t := by simp [Table.compute, Table.routeSlot, Table.routeGet, hroute]
    rw [hsame, if_pos hroute]
    exact ⟨h, rfl⟩
  · obtain ⟨hpos, old, hold, hkey⟩ := h.routed key i hroute
    rw [h.compute_eq c hroute, if_neg (by simp [hroute])]
    have hrow := h.toParallel.row_fill (c := c.stamp key) (row_lt hold)
    have hrows : Rows (t.fill i (c.stamp key)) := by
      constructor
      · exact h.toParallel.fill
      · simp only [Table.fill, List.length_set]
        exact h.sentinel
      · intro key' j hj
        obtain ⟨hpos', c', hc', hkey'⟩ := h.routed key' j hj
        refine ⟨hpos', ?_⟩
        rw [hrow]
        by_cases hji : j = i
        · exact ⟨_, if_pos hji, h.injective hroute (hji ▸ hj)⟩
        · exact ⟨c', by rw [if_neg hji, hc'], hkey'⟩
      · intro j hj
        obtain ⟨hpos', hempty, hunrouted⟩ := h.free j hj
        have hji : j ≠ i := fun heq => hunrouted key (heq ▸ hroute)
        refine ⟨hpos', ?_, hunrouted⟩
        rw [hrow, if_neg hji]
        exact hempty
      · exact h.nodup
      · intro j hpos' hlt'
        simp only [Table.fill, List.length_set] at hlt'
        exact h.kept j hpos' hlt'
    refine ⟨hrows, ?_⟩
    funext key'
    have hsame : (t.fill i (c.stamp key)).route = t.route := rfl
    rw [hrows.view_eq, hsame]
    by_cases hkey' : key' = key
    · rw [hkey', Function.update_self, hroute, Option.bind_some, hrow, if_pos rfl]
    · rw [Function.update_of_ne hkey', h.view_eq]
      cases hold' : t.route key' with
      | none => rfl
      | some j =>
          have hji : j ≠ i := fun heq => hkey' (h.injective hold' (heq ▸ hroute))
          simp only [Option.bind_some, hrow, if_neg hji]

variable (free : Cells R K F → Cells R K F) (threshold : Nat)

def orphanRow (t : Table R K F) (i : Nat) : Bool := (t.row i).any (Table.isOrphan threshold)

def reclaimedRow (t : Table R K F) (i : Nat) : Option (Cells R K F) :=
  (t.row i).map fun c => if Table.isOrphan threshold c then Table.reclaimSlot (free c) else c

def rowKey (t : Table R K F) (i : Nat) : UInt64 := ((t.row i).map (·.cold.routingKey)).getD 0

structure Walked (t : Table R K F) (rows : List Nat) (t' : Table R K F) : Prop extends Parallel t' where
  length : t'.hot.length = t.hot.length
  route : t'.route = t.route
  freeRows : t'.freeRows = t.freeRows ++ rows.filter (orphanRow threshold t)
  row : ∀ j, t'.row j = if j ∈ rows then reclaimedRow free threshold t j else t.row j

theorem reclaimRows_walked (rows : List Nat) (hnodup : rows.Nodup) (t : Table R K F) (h : Parallel t)
    (orphans : List UInt64) :
    Walked free threshold t rows (Table.reclaimRows free threshold rows t orphans).1 ∧
      (Table.reclaimRows free threshold rows t orphans).2 =
        orphans ++ (rows.filter (orphanRow threshold t)).map (rowKey t) := by
  induction rows generalizing t orphans with
  | nil =>
      simp only [Table.reclaimRows, List.filter_nil, List.map_nil, List.append_nil, and_true]
      exact ⟨h, rfl, rfl, by simp, by simp⟩
  | cons i rows ih =>
      obtain ⟨hi, hrows⟩ := List.nodup_cons.mp hnodup
      rw [Table.reclaimRows]
      cases hrow : t.row i with
      | none =>
          obtain ⟨hwalked, horphans⟩ := ih hrows t h orphans
          have hnot : orphanRow threshold t i = false := by simp [orphanRow, hrow]
          simp only
          rw [List.filter_cons_of_neg (by simp [hnot])]
          refine ⟨⟨hwalked.toParallel, hwalked.length, hwalked.route, ?_, fun j => ?_⟩, horphans⟩
          · rw [List.filter_cons_of_neg (by simp [hnot])]
            exact hwalked.freeRows
          · rw [hwalked.row]
            by_cases hj : j = i
            · simp [hj, hi, reclaimedRow, hrow]
            · simp [hj]
      | some c =>
          simp only
          by_cases horphan : Table.isOrphan threshold c = true
          · have hyes : orphanRow threshold t i = true := by simp [orphanRow, hrow, horphan]
            rw [if_pos horphan, List.filter_cons_of_pos hyes]
            have hfill := h.row_fill (c := Table.reclaimSlot (free c)) (row_lt hrow)
            have hsame (j : Nat) (hj : j ∈ rows) : { t.fill i (Table.reclaimSlot (free c)) with
                freeRows := t.freeRows ++ [i] }.row j = t.row j := by
              refine (hfill j).trans (if_neg ?_)
              rintro rfl
              exact hi hj
            have hfilter : rows.filter (orphanRow threshold { t.fill i (Table.reclaimSlot (free c)) with
                freeRows := t.freeRows ++ [i] }) = rows.filter (orphanRow threshold t) := by
              apply List.filter_congr
              intro j hj
              simp only [orphanRow, hsame j hj]
            have hkeys : (rows.filter (orphanRow threshold t)).map (rowKey { t.fill i (Table.reclaimSlot (free c)) with
                freeRows := t.freeRows ++ [i] }) = (rows.filter (orphanRow threshold t)).map (rowKey t) := by
              apply List.map_congr_left
              intro j hj
              simp only [rowKey, hsame j (List.mem_of_mem_filter hj)]
            have hparallel : Parallel { t.fill i (Table.reclaimSlot (free c)) with freeRows := t.freeRows ++ [i] } :=
              ⟨h.fill.results, h.fill.extras, h.fill.cold⟩
            obtain ⟨hwalked, horphans⟩ := ih hrows _ hparallel (orphans ++ [c.cold.routingKey])
            rw [hfilter, hkeys] at horphans
            have hfree := hwalked.freeRows
            rw [hfilter] at hfree
            refine ⟨⟨hwalked.toParallel, ?_, hwalked.route, ?_, fun j => ?_⟩, ?_⟩
            · rw [hwalked.length]
              simp [Table.fill]
            · rw [hfree, List.filter_cons_of_pos hyes]
              simp
            · rw [hwalked.row]
              by_cases hj : j ∈ rows
              · simp only [hj, if_true, List.mem_cons, or_true, reclaimedRow, hsame j hj]
              · by_cases hji : j = i
                · subst hji
                  simp only [hj, if_false, List.mem_cons, or_false, if_true]
                  refine (hfill j).trans ?_
                  simp [reclaimedRow, hrow, horphan]
                · simp only [hj, if_false, List.mem_cons, hji, or_self]
                  exact (hfill j).trans (if_neg hji)
            · rw [horphans]
              simp [rowKey, hrow]
          · have hnot : orphanRow threshold t i = false := by simp [orphanRow, hrow, horphan]
            obtain ⟨hwalked, horphans⟩ := ih hrows t h orphans
            rw [if_neg horphan, List.filter_cons_of_neg (by simp [hnot])]
            refine ⟨⟨hwalked.toParallel, hwalked.length, hwalked.route, ?_, fun j => ?_⟩, horphans⟩
            · rw [List.filter_cons_of_neg (by simp [hnot])]
              exact hwalked.freeRows
            · rw [hwalked.row]
              by_cases hj : j = i
              · simp [hj, hi, reclaimedRow, hrow, horphan]
              · simp [hj]

theorem unroute_columns (keys : List UInt64) (t : Table R K F) :
    Table.unroute keys t = { t with route := fun key => if key ∈ keys then none else t.route key } := by
  induction keys generalizing t with
  | nil => simp [Table.unroute]
  | cons key keys ih =>
      rw [Table.unroute, ih]
      congr 1
      funext key'
      by_cases hkey : key' = key
      · simp [hkey]
      · simp [hkey]

theorem Rows.orphan_keys (h : Rows t) (hroute : t.route key = some i) :
    key ∈ ((List.range' 1 (t.hot.length - 1)).filter (orphanRow threshold t)).map (rowKey t) ↔
      orphanRow threshold t i = true := by
  obtain ⟨hpos, c, hc, hkey⟩ := h.routed key i hroute
  have hlt := row_lt hc
  simp only [List.mem_map, List.mem_filter, List.mem_range'_1]
  constructor
  · rintro ⟨j, ⟨hj, horphan⟩, hjkey⟩
    obtain ⟨c', hc'⟩ := h.toParallel.row_some (i := j) (by omega)
    rcases h.kept j (by omega) (by omega) with ⟨key', hroute'⟩ | hfree
    · obtain ⟨-, c'', hc'', hkey'⟩ := h.routed key' j hroute'
      rw [rowKey, hc''] at hjkey
      simp only [Option.map_some, Option.getD_some, hkey'] at hjkey
      rw [hjkey, hroute] at hroute'
      exact Option.some.inj hroute' ▸ horphan
    · obtain ⟨-, ⟨c'', hc'', hempty⟩, -⟩ := h.free j hfree
      simp [orphanRow, hc'', Table.isOrphan, hempty] at horphan
  · intro horphan
    exact ⟨i, ⟨by omega, horphan⟩, by simp [rowKey, hc, hkey]⟩

/-- What a reclaim pass does: the orphans lose their keys, and their rows can be
reused. -/
structure Reclaimed (t u : Table R K F) : Prop extends Parallel u where
  length : u.hot.length = t.hot.length
  freeRows : u.freeRows = t.freeRows ++ (List.range' 1 (t.hot.length - 1)).filter (orphanRow threshold t)
  row : ∀ j, u.row j =
    if j ∈ List.range' 1 (t.hot.length - 1) then reclaimedRow free threshold t j else t.row j
  route : ∀ key j, u.route key = some j ↔ t.route key = some j ∧ orphanRow threshold t j = false

theorem Rows.reclaimed (h : Rows t) : Reclaimed free threshold t (t.reclaimHashmapKind free threshold) := by
  have hnodup : (List.range' 1 (t.hot.length - 1)).Nodup := List.nodup_range'
  obtain ⟨hwalked, horphans⟩ := reclaimRows_walked free threshold _ hnodup t h.toParallel []
  simp only [Table.reclaimHashmapKind]
  rw [horphans, List.nil_append, unroute_columns]
  constructor
  · exact ⟨hwalked.results, hwalked.extras, hwalked.cold⟩
  · exact hwalked.length
  · exact hwalked.freeRows
  · exact hwalked.row
  · intro key j
    simp only [hwalked.route]
    cases hold : t.route key with
    | none => simp
    | some j' =>
        have hiff := h.orphan_keys threshold hold
        by_cases hmem : orphanRow threshold t j' = true
        · rw [if_pos (hiff.mpr hmem)]
          simp only [reduceCtorEq, Option.some.injEq, false_iff, not_and]
          rintro rfl
          simp [hmem]
        · rw [if_neg (fun hin => hmem (hiff.mp hin))]
          simp only [Option.some.injEq, iff_self_and]
          rintro rfl
          simpa using hmem

variable {free threshold} {u : Table R K F}

theorem Reclaimed.kept_row (hu : Reclaimed free threshold t u) (hi : orphanRow threshold t i = false) :
    u.row i = t.row i := by
  rw [hu.row]
  split
  · simp only [orphanRow] at hi
    cases hc : t.row i with
    | none => simp [reclaimedRow, hc]
    | some c =>
        simp only [hc, Option.any_some] at hi
        simp [reclaimedRow, hc, hi]
  · rfl

theorem Rows.free_not_orphan (h : Rows t) (hi : i ∈ t.freeRows) : orphanRow threshold t i = false := by
  obtain ⟨-, ⟨c, hc, hempty⟩, -⟩ := h.free i hi
  simp [orphanRow, hc, Table.isOrphan, hempty]

theorem Reclaimed.rows (hu : Reclaimed free threshold t u) (h : Rows t) : Rows u := by
  constructor
  · exact hu.toParallel
  · rw [hu.length]
    exact h.sentinel
  · intro key j hj
    obtain ⟨hold, hnot⟩ := (hu.route key j).mp hj
    rw [hu.kept_row hnot]
    exact h.routed key j hold
  · intro j hj
    rw [hu.freeRows, List.mem_append, List.mem_filter] at hj
    rcases hj with hold | ⟨hrange, horphan⟩
    · obtain ⟨hpos, hempty, hunrouted⟩ := h.free j hold
      rw [hu.kept_row (h.free_not_orphan hold)]
      exact ⟨hpos, hempty, fun key hkey => hunrouted key ((hu.route key j).mp hkey).1⟩
    · have hbounds := List.mem_range'_1.mp hrange
      obtain ⟨c, hc⟩ := h.toParallel.row_some (i := j) (by omega)
      have horphan' : Table.isOrphan threshold c = true := by simpa [orphanRow, hc] using horphan
      refine ⟨by omega, ⟨Table.reclaimSlot (free c), ?_, rfl⟩, fun key hkey => ?_⟩
      · rw [hu.row, if_pos hrange, reclaimedRow, hc, Option.map_some, if_pos horphan']
      · rw [((hu.route key j).mp hkey).2] at horphan
        simp at horphan
  · rw [hu.freeRows, List.nodup_append]
    refine ⟨h.nodup, List.Nodup.filter _ List.nodup_range', ?_⟩
    rintro j hj _ hj' rfl
    have horphan := (List.mem_filter.mp hj').2
    rw [h.free_not_orphan hj] at horphan
    simp at horphan
  · intro j hpos hlt
    rw [hu.length] at hlt
    rw [hu.freeRows, List.mem_append, List.mem_filter, List.mem_range'_1]
    by_cases horphan : orphanRow threshold t j = true
    · exact .inr (.inr ⟨by omega, horphan⟩)
    · rcases h.kept j hpos hlt with ⟨key, hkey⟩ | hmem
      · exact .inl ⟨key, (hu.route key j).mpr ⟨hkey, by simpa using horphan⟩⟩
      · exact .inr (.inl hmem)

theorem Reclaimed.view_eq (hu : Reclaimed free threshold t u) (h : Rows t) (key : UInt64) :
    u.view key = (t.view key).filter fun c => !Table.isOrphan threshold c := by
  rw [(hu.rows h).view_eq, h.view_eq]
  cases hroute : u.route key with
  | some j =>
      obtain ⟨hold, hnot⟩ := (hu.route key j).mp hroute
      obtain ⟨-, c, hc, -⟩ := h.routed key j hold
      rw [hold, Option.bind_some, Option.bind_some, hu.kept_row hnot, hc]
      have hnot' : Table.isOrphan threshold c = false := by simpa [orphanRow, hc] using hnot
      simp [Option.filter, hnot']
  | none =>
      cases hold : t.route key with
      | none => rfl
      | some j =>
          obtain ⟨-, c, hc, -⟩ := h.routed key j hold
          have horphan : orphanRow threshold t j ≠ false := by
            intro hnot
            rw [(hu.route key j).mpr ⟨hold, hnot⟩] at hroute
            simp at hroute
          have horphan' : Table.isOrphan threshold c = true := by simpa [orphanRow, hc] using horphan
          simp [Option.filter, hc, horphan']

theorem Rows.view_none (h : Rows t) : t.view key = none ↔ t.route key = none := by
  rw [h.view_eq]
  cases hroute : t.route key with
  | none => simp
  | some i =>
      obtain ⟨-, c, hc, -⟩ := h.routed key i hroute
      simp [hc]

end Reclaim

abbrev Routed (Result Extra : RoutedKind → Type) (F : Type) := ∀ kind, Table (Result kind) (Extra kind) F

inductive Op (Result Extra : RoutedKind → Type) (F : Type)
  | slotAlloc (kind : RoutedKind) (key : UInt64)
  | compute (kind : RoutedKind) (key : UInt64) (c : Cells (Result kind) (Extra kind) F)
  | reclaimOrphans (threshold : Nat)

/-- The store the tables stand for: each key of each kind has cells of its own,
and no rows are in sight. -/
abbrev Store (Result Extra : RoutedKind → Type) (F : Type) :=
  ∀ kind, UInt64 → Option (Cells (Result kind) (Extra kind) F)

section Runs

variable {Result Extra : RoutedKind → Type}

/-- Only an instance owns heap data: its node types and its diagnostics. -/
def freeHeaps (freeTypes : Result .inferInstance → Result .inferInstance)
    (freeDiags : Extra .inferInstance → Extra .inferInstance) :
    ∀ kind, Cells (Result kind) (Extra kind) F → Cells (Result kind) (Extra kind) F
  | .topLevelEntry, c => c
  | .defIdentity, c => c
  | .resolveRef, c => c
  | .inferInstance, c => { c with result := freeTypes c.result, extra := freeDiags c.extra }

variable (freeTypes : Result .inferInstance → Result .inferInstance)
  (freeDiags : Extra .inferInstance → Extra .inferInstance)
  [∀ kind, Inhabited (Result kind)] [∀ kind, Inhabited (Extra kind)]

def step (db : Routed Result Extra F) : Op Result Extra F → Routed Result Extra F
  | .slotAlloc kind key => Function.update db kind ((db kind).slotAlloc key)
  | .compute kind key c => Function.update db kind ((db kind).compute key c)
  | .reclaimOrphans threshold => fun kind => (db kind).reclaimHashmapKind (freeHeaps freeTypes freeDiags kind) threshold

def run (ops : List (Op Result Extra F)) (db : Routed Result Extra F) : Routed Result Extra F :=
  ops.foldl (step freeTypes freeDiags) db

def initial : Routed Result Extra F := fun _ => .initial

def storeStep (store : Store Result Extra F) : Op Result Extra F → Store Result Extra F
  | .slotAlloc kind key =>
      Function.update store kind
        (if (store kind key).isNone then Function.update (store kind) key (some (fresh key)) else store kind)
  | .compute kind key c =>
      Function.update store kind
        (if (store kind key).isNone then store kind else Function.update (store kind) key (some (c.stamp key)))
  | .reclaimOrphans threshold => fun kind key => (store kind key).filter fun c => !Table.isOrphan threshold c

def storeRun (ops : List (Op Result Extra F)) (store : Store Result Extra F) : Store Result Extra F :=
  ops.foldl storeStep store

variable {db : Routed Result Extra F}

omit [∀ kind, Inhabited (Result kind)] [∀ kind, Inhabited (Extra kind)] in
theorem update_rows {kind : RoutedKind} {t : Table (Result kind) (Extra kind) F} (h : ∀ kind, Rows (db kind))
    (ht : Rows t) : (∀ kind', Rows (Function.update db kind t kind')) ∧
      (fun kind' => (Function.update db kind t kind').view) =
        Function.update (fun kind' => (db kind').view) kind t.view := by
  constructor
  · intro kind'
    by_cases hkind : kind' = kind
    · subst hkind
      rw [Function.update_self]
      exact ht
    · rw [Function.update_of_ne hkind]
      exact h kind'
  · funext kind'
    by_cases hkind : kind' = kind
    · subst hkind
      rw [Function.update_self, Function.update_self]
    · rw [Function.update_of_ne hkind, Function.update_of_ne hkind]

theorem step_rows (h : ∀ kind, Rows (db kind)) (op : Op Result Extra F) :
    (∀ kind, Rows (step freeTypes freeDiags db op kind)) ∧
      (fun kind => (step freeTypes freeDiags db op kind).view) = storeStep (fun kind => (db kind).view) op := by
  cases op with
  | slotAlloc kind key =>
      obtain ⟨hrows, hview⟩ := (h kind).slotAlloc key
      simp only [step, storeStep, Option.isNone_iff_eq_none, (h kind).view_none, ← hview]
      exact update_rows h hrows
  | compute kind key c =>
      obtain ⟨hrows, hview⟩ := (h kind).compute key c
      simp only [step, storeStep, Option.isNone_iff_eq_none, (h kind).view_none, ← hview]
      exact update_rows h hrows
  | reclaimOrphans threshold =>
      have hreclaimed (kind : RoutedKind) := (h kind).reclaimed (freeHeaps freeTypes freeDiags kind) threshold
      constructor
      · exact fun kind => (hreclaimed kind).rows (h kind)
      · funext kind key
        exact (hreclaimed kind).view_eq (h kind) key

theorem run_rows (ops : List (Op Result Extra F)) (h : ∀ kind, Rows (db kind)) :
    (∀ kind, Rows (run freeTypes freeDiags ops db kind)) ∧
      (fun kind => (run freeTypes freeDiags ops db kind).view) = storeRun ops fun kind => (db kind).view := by
  induction ops generalizing db with
  | nil => exact ⟨h, rfl⟩
  | cons op ops ih =>
      obtain ⟨hrows, hview⟩ := step_rows freeTypes freeDiags h op
      obtain ⟨hrows', hview'⟩ := ih hrows
      refine ⟨hrows', ?_⟩
      rw [hview] at hview'
      exact hview'

/-- A fresh row waits for the first computation of its key. -/
theorem storeRun_fresh {kind : RoutedKind} {key : UInt64} (ops : List (Op Result Extra F))
    (hidle : ∀ op ∈ ops, ∀ c, op ≠ .compute kind key c) (store : Store Result Extra F)
    (hfresh : store kind key = some (fresh key)) : storeRun ops store kind key = some (fresh key) := by
  induction ops generalizing store with
  | nil => exact hfresh
  | cons op ops ih =>
      apply ih (fun op' hop' => hidle op' (List.mem_cons_of_mem _ hop'))
      cases op with
      | slotAlloc kind' key' =>
          simp only [storeStep]
          by_cases hkind : kind = kind'
          · subst hkind
            rw [Function.update_self]
            by_cases hkey : key = key'
            · subst hkey
              simp [hfresh]
            · split
              · rw [Function.update_of_ne hkey]
                exact hfresh
              · exact hfresh
          · rw [Function.update_of_ne hkind]
            exact hfresh
      | compute kind' key' c =>
          simp only [storeStep]
          by_cases hkind : kind = kind'
          · subst hkind
            have hkey : key ≠ key' := by
              rintro rfl
              exact hidle _ (List.mem_cons_self ..) c rfl
            rw [Function.update_self]
            split
            · exact hfresh
            · rw [Function.update_of_ne hkey]
              exact hfresh
          · rw [Function.update_of_ne hkind]
            exact hfresh
      | reclaimOrphans threshold =>
          simp only [storeStep, hfresh]
          rfl

theorem initial_matched (kind : RoutedKind) : Rows ((initial : Routed Result Extra F) kind) := initial_rows

/-- After any run of allocations, computations and reclaims, rows are neither
shared nor lost: each is routed by the key stamped in it and by no other, or
waits once on the free list. What a key reads is what the store holds for it, so
nobody reads the result of another key, and a key without a row gets one that is
zero until its first computation. -/
theorem rows_exclusive (ops : List (Op Result Extra F)) (kind : RoutedKind) :
    Rows (run freeTypes freeDiags ops initial kind) ∧
      (∀ key key' i, (run freeTypes freeDiags ops initial kind).route key = some i →
        (run freeTypes freeDiags ops initial kind).route key' = some i → key = key') ∧
      (∀ key, (run freeTypes freeDiags ops initial kind).view key = storeRun ops (fun _ _ => none) kind key) ∧
      ∀ before after key, ops = before ++ .slotAlloc kind key :: after →
        (run freeTypes freeDiags before initial kind).route key = none →
        (∀ op ∈ after, ∀ c, op ≠ .compute kind key c) →
          (run freeTypes freeDiags ops initial kind).view key = some (fresh key) := by
  have hempty : (fun kind => ((initial : Routed Result Extra F) kind).view) = fun _ _ => none := by
    funext kind key
    rfl
  obtain ⟨hrows, hview⟩ := run_rows freeTypes freeDiags ops initial_matched
  rw [hempty] at hview
  have hstore (key : UInt64) : (run freeTypes freeDiags ops initial kind).view key =
      storeRun ops (fun _ _ => none) kind key := congrFun (congrFun hview kind) key
  refine ⟨hrows kind, fun key key' i => (hrows kind).injective, hstore, ?_⟩
  rintro before after key rfl hunrouted hidle
  obtain ⟨hrows', hview'⟩ := run_rows freeTypes freeDiags before initial_matched
  rw [hempty] at hview'
  have hnone : storeRun before (fun _ _ => none) kind key = none := by
    rw [← hview']
    exact (hrows' kind).view_none.mpr hunrouted
  rw [hstore, storeRun, List.foldl_append, List.foldl_cons]
  apply storeRun_fresh after hidle
  simp only [storeStep, Function.update_self]
  rw [storeRun] at hnone
  rw [if_pos (Option.isNone_iff_eq_none.mpr hnone), Function.update_self]

end Runs

end Ore.SlotRows
