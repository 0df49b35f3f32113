import Mathlib.Data.List.Dedup
import Mathlib.Data.List.Induction
import Ore.EngineFacts

namespace Ore.DepDedup

open EngineModel
open EngineFacts (names)

variable {F : Type} {frame : Frame F} {child q : Query} {fp : Option F} {dur : Durability} {d : Dep F} {k r n : Nat}
  {ds : List Durability}

/-- The index names the row of the child, as far as it can tell. -/
def Hit (frame : Frame F) (child : Query) : Prop :=
  frame.depIndex (depIndexKey child) ≠ 0 ∧
    frame.deps[frame.depIndex (depIndexKey child)]?.map (·.query) = some child

instance (frame : Frame F) (child : Query) : Decidable (Hit frame child) := inferInstanceAs (Decidable (_ ∧ _))

def recordDep (frame : Frame F) (child : Query) (fp : Option F) (dur : Durability) : Frame F :=
  let ikey := depIndexKey child
  let row := frame.depIndex ikey
  let frame :=
    if Hit frame child then { frame with deps := frame.deps.set row ⟨child, fp, dur⟩ }
    else
      { frame with
        deps := frame.deps ++ [⟨child, fp, dur⟩]
        depIndex :=
          if row = 0 then Function.update frame.depIndex ikey (frame.deps.length % 2 ^ 32) else frame.depIndex }
  { frame with
    minInputDur := if frame.durSet = false ∨ dur < frame.minInputDur then dur else frame.minInputDur
    durSet := true }

theorem recordDep_eq (h : frame.deps.length < 2 ^ 32) :
    recordDep frame child fp dur = EngineModel.recordDep frame child fp dur := by
  rw [recordDep, Nat.mod_eq_of_lt h]
  rfl

/-- What happens to the list of a frame: a child is recorded, a new frame inherits the
list of the last computation, or the list is cleared before a recompute. -/
inductive Op (F : Type)
  | record (dep : Dep F)
  | push
  | clear

structure Tracked (F : Type) where
  frame : Frame F
  recorded : List (Dep F)
  answered : List Durability

namespace Tracked

def start (q : Query) : Tracked F := ⟨⟨q, [], fun _ => 0, .high, false, []⟩, [], []⟩

def step (t : Tracked F) : Op F → Tracked F
  | .record dep => ⟨recordDep t.frame dep.query dep.fp dep.dur, t.recorded ++ [dep], t.answered ++ [dep.dur]⟩
  | .push => ⟨{ t.frame with minInputDur := .high, durSet := false }, t.recorded, []⟩
  | .clear => ⟨{ t.frame with deps := [], depIndex := fun _ => 0 }, [], t.answered⟩

def run (q : Query) (ops : List (Op F)) : Tracked F := ops.foldl step (start q)

def Alone (t : Tracked F) (q : Query) : Prop :=
  ∀ d ∈ t.recorded, depIndexKey d.query = depIndexKey q → d.query = q

end Tracked

def firsts (l : List Query) : List Query := l.reverse.dedup.reverse

/-- The list holds every recorded query in first-recorded order, each with what was
recorded last, and once where its truncated key is its own. The durability is the least. -/
structure Faithful (t : Tracked F) : Prop where
  order : firsts (names t.frame) = firsts (t.recorded.map (·.query))
  once : ∀ d ∈ t.recorded, t.Alone d.query → (names t.frame).count d.query = 1
  last : ∀ q, (t.frame.deps.filter (·.query = q)).getLast? = (t.recorded.filter (·.query = q)).getLast?
  least : t.answered ≠ [] → t.frame.minInputDur ∈ t.answered ∧ ∀ d ∈ t.answered, t.frame.minInputDur ≤ d

section Lists

theorem firsts_concat {l : List Query} : firsts (l ++ [q]) = if q ∈ l then firsts l else firsts l ++ [q] := by
  rw [firsts, List.reverse_append, List.reverse_singleton, List.singleton_append]
  split_ifs with h
  · rw [List.dedup_cons_of_mem (List.mem_reverse.mpr h), firsts]
  · rw [List.dedup_cons_of_notMem fun hmem => h (List.mem_reverse.mp hmem), List.reverse_cons, firsts]

theorem mem_firsts {l : List Query} : q ∈ firsts l ↔ q ∈ l := by
  rw [firsts, List.mem_reverse, List.mem_dedup, List.mem_reverse]

/-- The last row of a query is overwritten: its last entry is the new one. -/
theorem filter_set {l : List (Dep F)} (hrow : (l.map (·.query))[r]? = some d.query)
    (hlast : ∀ n, (l.map (·.query))[n]? = some d.query → n ≤ r) :
    ((l.set r d).filter (·.query = q)).getLast? = ((l ++ [d]).filter (·.query = q)).getLast? := by
  obtain ⟨hlt, hget⟩ := List.getElem?_eq_some_iff.mp hrow
  rw [List.length_map] at hlt
  rw [List.getElem_map] at hget
  obtain ⟨before, after, hsplit, hlength, hset⟩ := @List.exists_of_set _ _ d _ hlt
  have hafter : ∀ e ∈ after, e.query ≠ d.query := by
    intro e he heq
    obtain ⟨i, hi, rfl⟩ := List.getElem_of_mem he
    have hbound := hlast (before.length + (i + 1)) (by
      rw [hsplit, List.map_append, List.map_cons, List.getElem?_append_right (by simp)]
      simp [hi, heq])
    omega
  by_cases hq : d.query = q
  · subst hq
    have hnone : after.filter (·.query = d.query) = [] := by
      rw [List.filter_eq_nil_iff]
      intro e he
      simpa using hafter e he
    have hnew : [d].filter (·.query = d.query) = [d] := by simp
    rw [hset, List.append_cons, List.filter_append, List.filter_append, List.filter_append, hnone, hnew,
      List.append_nil, List.getLast?_concat, List.getLast?_concat]
  · have hold : l[r].query ≠ q := fun heq => hq (hget.symm.trans heq)
    rw [hset, hsplit]
    simp [List.filter_append, hq, hold]

end Lists

section Steps

variable {t : Tracked F} {ops : List (Op F)}

theorem hit_iff : Hit frame child ↔ frame.depIndex (depIndexKey child) ≠ 0 ∧
    (names frame)[frame.depIndex (depIndexKey child)]? = some child := by
  rw [Hit, names, List.getElem?_map]

theorem recordDep_hit (h : Hit frame child) :
    (recordDep frame child fp dur).deps = frame.deps.set (frame.depIndex (depIndexKey child)) ⟨child, fp, dur⟩ ∧
      (recordDep frame child fp dur).depIndex = frame.depIndex := by
  simp [recordDep, h]

theorem recordDep_miss (h : ¬ Hit frame child) :
    (recordDep frame child fp dur).deps = frame.deps ++ [⟨child, fp, dur⟩] ∧
      (recordDep frame child fp dur).depIndex =
        if frame.depIndex (depIndexKey child) = 0 then
          Function.update frame.depIndex (depIndexKey child) (frame.deps.length % 2 ^ 32)
        else frame.depIndex := by
  simp [recordDep, h]

theorem recordDep_minInputDur : (recordDep frame child fp dur).minInputDur =
    if frame.durSet = false ∨ dur < frame.minInputDur then dur else frame.minInputDur := by
  by_cases h : Hit frame child
  · simp [recordDep, h]
  · simp [recordDep, h]

theorem names_hit (h : Hit frame child) : names (recordDep frame child fp dur) = names frame := by
  obtain ⟨-, hname⟩ := hit_iff.mp h
  obtain ⟨hlt, hget⟩ := List.getElem?_eq_some_iff.mp hname
  have hsame := List.set_getElem_self hlt
  rw [hget] at hsame
  rw [names, (recordDep_hit h).1, List.map_set]
  exact hsame

theorem names_miss (h : ¬ Hit frame child) : names (recordDep frame child fp dur) = names frame ++ [child] := by
  rw [names, (recordDep_miss h).1, List.map_append]
  rfl

/-- What the index says about the rows. A row that is a multiple of 2^32 reads as absent,
and behind 2^32 rows the index may name a row of another key. -/
structure Indexed (rows : List Query) (index : Nat → Nat) : Prop where
  small : ∀ k, index k < 2 ^ 32
  absent : ∀ r q, rows[r]? = some q → index (depIndexKey q) = 0 → r % 2 ^ 32 = 0
  newest : ∀ r q, index (depIndexKey q) ≠ 0 → rows[index (depIndexKey q)]? = some q → rows[r]? = some q →
    r ≤ index (depIndexKey q)
  placed : ∀ k, index k ≠ 0 → (∃ q, rows[index k]? = some q ∧ depIndexKey q = k) ∨
    2 ^ 32 ≤ rows.length ∧ ∀ r q, rows[r]? = some q → depIndexKey q = k → r < 2 ^ 32 → r = 0

theorem Indexed.nil : Indexed [] fun _ => 0 := by
  refine ⟨fun _ => by decide, fun _ _ h => ?_, fun _ _ h => absurd rfl h, fun _ h => absurd rfl h⟩
  cases h

theorem getElem?_concat_cases {rows : List Query} (h : (rows ++ [child])[r]? = some q) :
    rows[r]? = some q ∨ r = rows.length ∧ q = child := by
  rcases Nat.lt_trichotomy r rows.length with hlt | rfl | hgt
  · rw [List.getElem?_append_left hlt] at h
    exact .inl h
  · rw [List.getElem?_concat_length] at h
    exact .inr ⟨rfl, (Option.some.inj h).symm⟩
  · rw [List.getElem?_eq_none (by simp; omega)] at h
    cases h

theorem row_le {rows : List Query} (h : (rows ++ [child])[r]? = some q) : r ≤ rows.length := by
  have hlt := (List.getElem?_eq_some_iff.mp h).1
  rw [List.length_append, List.length_singleton] at hlt
  exact Nat.le_of_lt_succ hlt

theorem Indexed.placed_concat {rows : List Query} {index : Nat → Nat} (h : Indexed rows index) (child : Query)
    (hk : index k ≠ 0) : (∃ q, (rows ++ [child])[index k]? = some q ∧ depIndexKey q = k) ∨
      2 ^ 32 ≤ (rows ++ [child]).length ∧
        ∀ r q, (rows ++ [child])[r]? = some q → depIndexKey q = k → r < 2 ^ 32 → r = 0 := by
  rcases h.placed k hk with ⟨q, hrow, hq⟩ | ⟨hlong, hfar⟩
  · refine .inl ⟨q, ?_, hq⟩
    rwa [List.getElem?_append_left (List.getElem?_eq_some_iff.mp hrow).1]
  · refine .inr ⟨by rw [List.length_append]; omega, fun r q hr hq hlt => ?_⟩
    rcases getElem?_concat_cases hr with hold | ⟨rfl, rfl⟩
    · exact hfar r q hold hq hlt
    · omega

theorem Indexed.concat_absent {rows : List Query} {index : Nat → Nat} (h : Indexed rows index)
    (hzero : index (depIndexKey child) = 0) :
    Indexed (rows ++ [child]) (Function.update index (depIndexKey child) (rows.length % 2 ^ 32)) := by
  refine ⟨fun k => ?_, fun r q hr hq => ?_, fun r q hq hrow hr => ?_, fun k hk => ?_⟩
  · by_cases hk : k = depIndexKey child
    · subst hk
      rw [Function.update_self]
      exact Nat.mod_lt _ (by decide)
    · rw [Function.update_of_ne hk]
      exact h.small k
  · by_cases hkey : depIndexKey q = depIndexKey child
    · rw [hkey, Function.update_self] at hq
      rcases getElem?_concat_cases hr with hold | ⟨rfl, -⟩
      · exact h.absent r q hold (by rw [hkey, hzero])
      · exact hq
    · rw [Function.update_of_ne hkey] at hq
      rcases getElem?_concat_cases hr with hold | ⟨-, rfl⟩
      · exact h.absent r q hold hq
      · exact absurd rfl hkey
  · by_cases hkey : depIndexKey q = depIndexKey child
    · rw [hkey, Function.update_self] at hq hrow ⊢
      have hbound := row_le hr
      rcases getElem?_concat_cases hrow with hold | ⟨hsame, -⟩
      · have habsent := h.absent _ q hold (by rw [hkey, hzero])
        rw [Nat.mod_mod] at habsent
        exact absurd habsent hq
      · omega
    · rw [Function.update_of_ne hkey] at hq hrow ⊢
      rcases getElem?_concat_cases hrow with hold | ⟨-, rfl⟩
      · rcases getElem?_concat_cases hr with hold' | ⟨-, rfl⟩
        · exact h.newest r q hq hold hold'
        · exact absurd rfl hkey
      · exact absurd rfl hkey
  · by_cases hkey : k = depIndexKey child
    · subst hkey
      rw [Function.update_self] at hk ⊢
      by_cases hlong : rows.length < 2 ^ 32
      · left
        refine ⟨child, ?_, rfl⟩
        rw [Nat.mod_eq_of_lt hlong, List.getElem?_concat_length]
      · right
        refine ⟨by rw [List.length_append]; omega, fun r q hr hq hlt => ?_⟩
        rcases getElem?_concat_cases hr with hold | ⟨rfl, -⟩
        · have habsent := h.absent r q hold (by rw [hq, hzero])
          omega
        · exact absurd hlt hlong
    · rw [Function.update_of_ne hkey] at hk ⊢
      exact h.placed_concat child hk

theorem Indexed.concat_taken {rows : List Query} {index : Nat → Nat} (h : Indexed rows index)
    (htaken : index (depIndexKey child) ≠ 0) (hother : rows[index (depIndexKey child)]? ≠ some child) :
    Indexed (rows ++ [child]) index := by
  refine ⟨h.small, fun r q hr hq => ?_, fun r q hq hrow hr => ?_, fun k hk => h.placed_concat child hk⟩
  · rcases getElem?_concat_cases hr with hold | ⟨-, rfl⟩
    · exact h.absent r q hold hq
    · exact absurd hq htaken
  · rcases getElem?_concat_cases hrow with hold | ⟨hsame, -⟩
    · rcases getElem?_concat_cases hr with hold' | ⟨-, rfl⟩
      · exact h.newest r q hq hold hold'
      · exact absurd hold hother
    · exact hsame ▸ row_le hr

theorem Indexed.recordDep (h : Indexed (names frame) frame.depIndex) (child : Query) (fp : Option F)
    (dur : Durability) :
    Indexed (names (recordDep frame child fp dur)) (DepDedup.recordDep frame child fp dur).depIndex := by
  by_cases hhit : Hit frame child
  · rw [names_hit hhit, (recordDep_hit hhit).2]
    exact h
  · have hlength : (names frame).length = frame.deps.length := List.length_map _
    rw [names_miss hhit, (recordDep_miss hhit).2, ← hlength]
    split_ifs with hzero
    · exact h.concat_absent hzero
    · exact h.concat_taken hzero fun hrow => hhit (hit_iff.mpr ⟨hzero, hrow⟩)

/-- What holds in every run, whatever is recorded. -/
structure Kept (t : Tracked F) : Prop where
  indexed : Indexed (names t.frame) t.frame.depIndex
  order : firsts (names t.frame) = firsts (t.recorded.map (·.query))
  last : ∀ q, (t.frame.deps.filter (·.query = q)).getLast? = (t.recorded.filter (·.query = q)).getLast?
  unset : t.frame.durSet = true ↔ t.answered ≠ []
  least : t.answered ≠ [] → t.frame.minInputDur ∈ t.answered ∧ ∀ d ∈ t.answered, t.frame.minInputDur ≤ d

theorem Kept.mem_names (h : Kept t) (q : Query) : q ∈ names t.frame ↔ q ∈ t.recorded.map (·.query) := by
  rw [← mem_firsts, h.order, mem_firsts]

theorem last_concat {l l' : List (Dep F)} (h : (l.filter (·.query = q)).getLast? = (l'.filter (·.query = q)).getLast?)
    (d : Dep F) : ((l ++ [d]).filter (·.query = q)).getLast? = ((l' ++ [d]).filter (·.query = q)).getLast? := by
  by_cases hq : d.query = q
  · simp [List.filter_append, hq]
  · simpa [List.filter_append, hq] using h

theorem least_concat (hset : frame.durSet = true ↔ ds ≠ [])
    (h : ds ≠ [] → frame.minInputDur ∈ ds ∧ ∀ d ∈ ds, frame.minInputDur ≤ d) (dur : Durability) :
    let least := if frame.durSet = false ∨ dur < frame.minInputDur then dur else frame.minInputDur
    least ∈ ds ++ [dur] ∧ ∀ d ∈ ds ++ [dur], least ≤ d := by
  intro least
  by_cases hempty : ds = []
  · have hleast : least = dur := if_pos (.inl (Bool.not_eq_true _ ▸ mt hset.mp (not_not.mpr hempty)))
    rw [hleast, hempty]
    simp [Durability.le_refl]
  · obtain ⟨hmem, hle⟩ := h hempty
    have hdone := hset.mpr hempty
    by_cases hless : dur < frame.minInputDur
    · have hleast : least = dur := if_pos (.inr hless)
      rw [hleast]
      refine ⟨List.mem_append_right _ (List.mem_singleton_self dur), fun d hd => ?_⟩
      rcases List.mem_append.mp hd with hd | hd
      · exact Durability.le_trans (Durability.le_of_lt hless) (hle d hd)
      · obtain rfl := List.mem_singleton.mp hd
        exact Durability.le_refl d
    · have hleast : least = frame.minInputDur := if_neg (by simp [hdone, hless])
      rw [hleast]
      refine ⟨List.mem_append_left _ hmem, fun d hd => ?_⟩
      rcases List.mem_append.mp hd with hd | hd
      · exact hle d hd
      · obtain rfl := List.mem_singleton.mp hd
        exact Durability.le_of_not_lt hless

theorem Kept.record (h : Kept t) (d : Dep F) : Kept (t.step (.record d)) := by
  refine ⟨h.indexed.recordDep d.query d.fp d.dur, ?_, fun q => ?_, by simp [Tracked.step, DepDedup.recordDep],
    fun _ => ?_⟩
  · change firsts (names (DepDedup.recordDep t.frame d.query d.fp d.dur)) =
      firsts ((t.recorded ++ [d]).map (·.query))
    have hmem := h.mem_names d.query
    rw [List.map_append, List.map_singleton, firsts_concat, ← h.order]
    by_cases hhit : Hit t.frame d.query
    · rw [names_hit hhit, if_pos (hmem.mp (List.mem_of_getElem? (hit_iff.mp hhit).2))]
    · rw [names_miss hhit, firsts_concat]
      simp only [hmem]
  · change ((DepDedup.recordDep t.frame d.query d.fp d.dur).deps.filter (·.query = q)).getLast? =
      ((t.recorded ++ [d]).filter (·.query = q)).getLast?
    by_cases hhit : Hit t.frame d.query
    · obtain ⟨hindex, hrow⟩ := hit_iff.mp hhit
      rw [(recordDep_hit hhit).1]
      change ((t.frame.deps.set _ d).filter (·.query = q)).getLast? = _
      rw [filter_set hrow fun n hn => h.indexed.newest n _ hindex hrow hn]
      exact last_concat (h.last q) d
    · rw [(recordDep_miss hhit).1]
      exact last_concat (h.last q) d
  · change (DepDedup.recordDep t.frame d.query d.fp d.dur).minInputDur ∈ t.answered ++ [d.dur] ∧
      ∀ e ∈ t.answered ++ [d.dur], (DepDedup.recordDep t.frame d.query d.fp d.dur).minInputDur ≤ e
    rw [recordDep_minInputDur]
    exact least_concat h.unset h.least d.dur

theorem Kept.step (h : Kept t) (op : Op F) : Kept (t.step op) := by
  cases op with
  | record d => exact h.record d
  | push => exact ⟨h.indexed, h.order, h.last, by simp [Tracked.step], fun hne => absurd rfl hne⟩
  | clear => exact ⟨.nil, rfl, fun _ => rfl, h.unset, h.least⟩

theorem run_concat (q : Query) (ops : List (Op F)) (op : Op F) :
    Tracked.run q (ops ++ [op]) = (Tracked.run q ops).step op := by
  rw [Tracked.run, List.foldl_concat, Tracked.run]

theorem kept_run (q : Query) (ops : List (Op F)) : Kept (Tracked.run q ops) := by
  induction ops using List.reverseRecOn with
  | nil => exact ⟨.nil, rfl, fun _ => rfl, by simp [Tracked.run, Tracked.start], fun hne => absurd rfl hne⟩
  | append_singleton ops op ih =>
      rw [run_concat]
      exact ih.step op

end Steps

section Rows

variable {t : Tracked F} {ops : List (Op F)}

/-- The rows of a query can be found: none is the first one or behind 2^32 rows, unless
another recorded query has the same truncated key. -/
def Findable (t : Tracked F) (q : Query) : Prop :=
  (∀ r, (names t.frame)[r]? = some q → 0 < r ∧ r < 2 ^ 32) ∨ ¬ t.Alone q

def Once (t : Tracked F) : Prop := ∀ d ∈ t.recorded, t.Alone d.query → (names t.frame).count d.query = 1

theorem Kept.faithful (h : Kept t) (honce : Once t) : Faithful t := ⟨h.order, honce, h.last, h.least⟩

/-- A query that has its truncated key to itself is found where it stands. -/
theorem Kept.hit (h : Kept t) (halone : t.Alone q) (hrow : (names t.frame)[r]? = some q) (hpos : 0 < r)
    (hlt : r < 2 ^ 32) : Hit t.frame q := by
  have hindex : t.frame.depIndex (depIndexKey q) ≠ 0 := by
    intro hzero
    have habsent := h.indexed.absent r q hrow hzero
    rw [Nat.mod_eq_of_lt hlt] at habsent
    omega
  rcases h.indexed.placed _ hindex with ⟨p, hp, hkey⟩ | ⟨-, hfar⟩
  · obtain ⟨d, hd, rfl⟩ := List.mem_map.mp ((h.mem_names p).mp (List.mem_of_getElem? hp))
    rw [halone d hd hkey] at hp
    exact hit_iff.mpr ⟨hindex, hp⟩
  · have hzero := hfar r q hrow rfl hlt
    omega

theorem Kept.once_record (h : Kept t) (honce : Once t) (hfind : Findable t d.query) :
    Once (t.step (.record d)) := by
  intro e he halone
  have hbefore : t.Alone e.query := fun x hx => halone x (List.mem_append_left _ hx)
  change (names (DepDedup.recordDep t.frame d.query d.fp d.dur)).count e.query = 1
  by_cases hhit : Hit t.frame d.query
  · rw [names_hit hhit]
    rcases List.mem_append.mp he with he | he
    · exact honce e he hbefore
    · obtain rfl := List.mem_singleton.mp he
      obtain ⟨x, hx, hxe⟩ := List.mem_map.mp ((h.mem_names e.query).mp (List.mem_of_getElem? (hit_iff.mp hhit).2))
      rw [← hxe]
      exact honce x hx (hxe ▸ hbefore)
  · rw [names_miss hhit, List.count_append]
    by_cases heq : e.query = d.query
    · have hnew : d.query ∉ names t.frame := by
        intro hmem
        obtain ⟨r, hr⟩ := List.getElem?_of_mem hmem
        rcases hfind with hrows | hshared
        · exact hhit (h.hit (heq ▸ hbefore) hr (hrows r hr).1 (hrows r hr).2)
        · exact hshared (heq ▸ hbefore)
      rw [heq, List.count_eq_zero_of_not_mem hnew, List.count_singleton_self]
    · rcases List.mem_append.mp he with he | he
      · rw [honce e he hbefore, List.count_eq_zero_of_not_mem (by simpa using heq)]
      · exact absurd (congrArg Dep.query (List.mem_singleton.mp he)) heq

theorem two_le_count {rows : List Query} (hfirst : rows[0]? = some q) (hrow : rows[r]? = some q) (hpos : 0 < r) :
    2 ≤ rows.count q := by
  cases rows with
  | nil => cases hfirst
  | cons p rows =>
      obtain rfl := Option.some.inj hfirst
      obtain ⟨r, rfl⟩ := Nat.exists_eq_add_of_lt hpos
      rw [Nat.zero_add, List.getElem?_cons_succ] at hrow
      have hcount := List.count_pos_iff.mpr (List.mem_of_getElem? hrow)
      rw [List.count_cons_self]
      omega

/-- A query that cannot be found where it stands gets a second row. -/
theorem Kept.not_once (h : Kept t) (honce : Once t) (hlost : ¬ Findable t d.query) :
    ¬ Once (t.step (.record d)) := by
  rw [Findable, not_or, not_not] at hlost
  obtain ⟨hrows, halone⟩ := hlost
  push Not at hrows
  obtain ⟨r, hr, hbad⟩ := hrows
  obtain ⟨x, hx, hxd⟩ := List.mem_map.mp ((h.mem_names d.query).mp (List.mem_of_getElem? hr))
  have hsingle := honce x hx (hxd ▸ halone)
  rw [hxd] at hsingle
  have hmiss : ¬ Hit t.frame d.query := by
    intro hhit
    obtain ⟨hindex, hrow⟩ := hit_iff.mp hhit
    have hle := h.indexed.newest r d.query hindex hrow hr
    have hsmall := h.indexed.small (depIndexKey d.query)
    obtain rfl : r = 0 := by
      by_contra hne
      have := hbad (Nat.pos_of_ne_zero hne)
      omega
    have htwice := two_le_count hr hrow (Nat.pos_of_ne_zero hindex)
    omega
  intro htwice
  have hagain := htwice d (List.mem_append_right _ (List.mem_singleton_self d)) fun e he hkey => by
    rcases List.mem_append.mp he with he | he
    · exact halone e he hkey
    · exact congrArg Dep.query (List.mem_singleton.mp he)
  change (names (DepDedup.recordDep t.frame d.query d.fp d.dur)).count d.query = 1 at hagain
  rw [names_miss hmiss, List.count_append, hsingle, List.count_singleton_self] at hagain
  omega

/-- In every run the list is right in every state exactly when no child is recorded while
its only row is the first one or behind 2^32 rows. -/
theorem faithful_iff (q : Query) (ops : List (Op F)) :
    (∀ before, before <+: ops → Faithful (Tracked.run q before)) ↔
      ∀ before d, before ++ [.record d] <+: ops → Findable (Tracked.run q before) d.query := by
  constructor
  · intro h before d hprefix
    by_contra hlost
    have hbefore := h before ((List.prefix_append before _).trans hprefix)
    have hafter := h (before ++ [.record d]) hprefix
    rw [run_concat] at hafter
    exact (kept_run q before).not_once hbefore.once hlost hafter.once
  · intro h before hprefix
    apply (kept_run q before).faithful
    induction before using List.reverseRecOn with
    | nil => exact nofun
    | append_singleton before op ih =>
        have honce := ih ((List.prefix_append before _).trans hprefix)
        rw [run_concat]
        cases op with
        | record d => exact (kept_run q before).once_record honce (h before d hprefix)
        | push => exact honce
        | clear => exact nofun

/-- The only child of a query is recorded again with a new fingerprint: it has two rows,
and the first is stale. -/
theorem first_duplicated :
    let ops : List (Op Nat) := [.record ⟨⟨.sourceText, 0⟩, some 1, .low⟩, .record ⟨⟨.sourceText, 0⟩, some 2, .low⟩]
    (Tracked.run ⟨.fileAst, 0⟩ ops).frame.deps.map (fun d => (d.query.key, d.fp)) = [(0, some 1), (0, some 2)] ∧
      ¬ Faithful (Tracked.run ⟨.fileAst, 0⟩ ops) := by
  refine ⟨rfl, fun h => ?_⟩
  have honce := h.once ⟨⟨.sourceText, 0⟩, some 1, .low⟩ List.mem_cons_self
    (by simp [Tracked.Alone, Tracked.run, Tracked.step, Tracked.start])
  revert honce
  decide

end Rows

end Ore.DepDedup
