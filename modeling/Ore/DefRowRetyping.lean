import Ore.DefRowInvariant

namespace Ore.DefRowRetyping

open DefRows DefRowInvariant HeapLedger
open NamespaceItems (DefKind)

variable {s s' s'' : Db} {k k' n : DefKind} {q q' : SlotColumn} {c : ResultColumn} {i i' d d' rev threshold : Nat}
  {b : Body} {p : Place} {w : Write} {op : Op} {qs : List SlotColumn} {outcome : Outcome}

section Retyping

theorem reclaimOneTypeSlot_forced (hs : Sound s) (hi : i < s.counts k (.hot q)) :
    Db.reclaimOneTypeSlot q k i d uint64Max s =
      if (s.hot k q i).state = .empty then s else (s.freeTypeSlotResultHeap q k i d).reclaimSlot k q i := by
  have hrev := hs.revs k q i
  have hlimit : revLimit < uint64Max := by decide
  rw [Db.reclaimOneTypeSlot, if_neg (Nat.not_le.mpr hi)]
  split
  · rfl
  · rw [if_neg (by omega)]

theorem forced_held (hs : Sound s) (hqs : ∀ q ∈ qs, q ∈ typeSlots k) (hnodup : qs.Nodup)
    (hi : ∀ q ∈ qs, i < s.counts k (.hot q)) (p : Place) :
    (qs.foldl (fun s q => Db.reclaimOneTypeSlot q k i d uint64Max s) s).heaps.held p =
      if ∃ q ∈ qs, (s.hot k q i).state ≠ .empty ∧ p ∈ slotPlaces k q i d then none else s.heaps.held p := by
  induction qs generalizing s with
  | nil => simp
  | cons q qs ih =>
      have hq := hqs q (List.mem_cons_self ..)
      obtain ⟨hfirst, hnodup⟩ := List.nodup_cons.mp hnodup
      have hlocal : Local k i d s (Db.reclaimOneTypeSlot q k i d uint64Max s) := reclaimOneTypeSlot_local hq
      have hi' : ∀ q' ∈ qs, i < (Db.reclaimOneTypeSlot q k i d uint64Max s).counts k (.hot q') := by
        intro q' hq'
        rw [hlocal.counts]
        exact hi q' (List.mem_cons_of_mem _ hq')
      rw [List.foldl_cons,
        ih (reclaimOneTypeSlot_sound hs hq) (fun q' hq' => hqs q' (List.mem_cons_of_mem _ hq')) hnodup
        hi']
      rw [reclaimOneTypeSlot_forced hs (hi q (List.mem_cons_self ..))]
      by_cases hempty : (s.hot k q i).state = .empty
      · simp [hempty]
      · have hrest : ∀ q' ∈ qs, ((s.freeTypeSlotResultHeap q k i d).reclaimSlot k q i).hot k q' i = s.hot k q' i := by
          intro q' hq'
          rw [reclaimSlot_hot, if_neg]
          rintro ⟨-, rfl, -⟩
          exact hfirst hq'
        have hlater : (∃ q' ∈ qs, (((s.freeTypeSlotResultHeap q k i d).reclaimSlot k q i).hot k q' i).state ≠ .empty ∧
            p ∈ slotPlaces k q' i d) ↔ ∃ q' ∈ qs, (s.hot k q' i).state ≠ .empty ∧ p ∈ slotPlaces k q' i d := by
          apply exists_congr
          intro q'
          apply and_congr_right
          intro hq'
          rw [hrest q' hq']
        simp only [if_neg hempty, hlater, reclaimSlot_held, List.mem_cons, exists_eq_or_imp]
        by_cases hhere : p ∈ slotPlaces k q i d
        · simp [hhere, hempty]
        · simp [hhere]

theorem forced_empty (hs : Sound s) (hqs : ∀ q ∈ qs, q ∈ typeSlots k) (hi : ∀ q ∈ qs, i < s.counts k (.hot q))
    (hq' : q' ∈ qs ∨ (s.hot k q' i).state = .empty) :
    ((qs.foldl (fun s q => Db.reclaimOneTypeSlot q k i d uint64Max s) s).hot k q' i).state = .empty := by
  induction qs generalizing s with
  | nil => exact hq'.resolve_left (by simp)
  | cons q qs ih =>
      have hq := hqs q (List.mem_cons_self ..)
      have hlocal : Local k i d s (Db.reclaimOneTypeSlot q k i d uint64Max s) := reclaimOneTypeSlot_local hq
      rw [List.foldl_cons]
      apply ih (reclaimOneTypeSlot_sound hs hq) (fun q' hq' => hqs q' (List.mem_cons_of_mem _ hq'))
      · intro q' hq'
        rw [hlocal.counts]
        exact hi q' (List.mem_cons_of_mem _ hq')
      · rw [reclaimOneTypeSlot_forced hs (hi q (List.mem_cons_self ..))]
        rcases hq' with hmem | hempty
        · rcases List.mem_cons.mp hmem with rfl | hmem
          · right
            split
            · assumption
            · simp [reclaimSlot_hot]
          · exact .inl hmem
        · right
          split
          · exact hempty
          · rw [reclaimSlot_hot]
            split
            · rfl
            · exact hempty

theorem retyped_bare (hs : Sound s) (hi : ∀ q ∈ typeSlots k, i < s.counts k (.hot q)) :
    Bare (s.engineReclaimRetypedSlots k i d) k i ↔ Drained s k i := by
  have hheld (p : Place) := forced_held (d := d) hs (fun _ => id) (typeSlots_nodup k) hi p
  have hsound : Sound (s.engineReclaimRetypedSlots k i d) := reclaimDefTypeSlots_sound hs
  rw [← Db.reclaimDefTypeSlots, ← Db.engineReclaimRetypedSlots] at hheld
  have hmem {q q' : SlotColumn} {c : ResultColumn} (hc : c ∈ heapColumns k q) :
      Place.result k c i ∈ slotPlaces k q' i d ↔ q' = q := by
    have hplaces : Place.result k c i ∈ slotPlaces k q' i d ↔ c ∈ heapColumns k q' := by
      rw [slotPlaces, resultHeaps]
      split <;> simp
    rw [hplaces]
    constructor
    · exact fun hc' => (mem_heapColumns hc').symm.trans (mem_heapColumns hc)
    · rintro rfl
      exact hc
  constructor
  · intro hbare q hq hempty c hc
    have hnone := hbare.results c
    rw [hheld, if_neg] at hnone
    · exact hnone
    · rintro ⟨q', -, hbusy, hplace⟩
      rw [(hmem hc).mp hplace] at hbusy
      exact hbusy hempty
  · intro hdrained
    have hempty (q : SlotColumn) : ((s.engineReclaimRetypedSlots k i d).hot k q i).state = .empty := by
      apply forced_empty hs (fun _ => id) hi
      by_cases hq : q ∈ typeSlots k
      · exact .inl hq
      · exact .inr (hs.routed k q i hq)
    refine ⟨hempty, fun q => hsound.settled k q i (hempty q), ?_⟩
    intro c
    by_contra hsome
    obtain ⟨q, hq, hc⟩ := hsound.cells k c i hsome
    rw [hheld] at hsome
    by_cases hbusy : (s.hot k q i).state = .empty
    · rw [hdrained q hq hbusy c hc, ite_self] at hsome
      exact hsome rfl
    · rw [if_pos ⟨q, hq, hbusy, (hmem hc).mpr rfl⟩] at hsome
      exact hsome rfl

end Retyping

section Growth

theorem lt_of_kind (h : s.kind d ≠ .none) : d < s.kinds.length := by
  by_contra hle
  apply h
  rw [Db.kind, List.getElem?_eq_none (Nat.not_lt.mp hle), Option.getD_none]

theorem owned_of_kind (h : s.kind d ≠ .none) : Owned s (s.kind d) (s.row d) := ⟨h, d, rfl, rfl⟩

theorem next_free (hs : Inv s) {c : Column} (hc : c ∈ columns n) : ¬ Owned s n (s.counts n c) := by
  rintro ⟨hnew, d, rfl, hrow⟩
  exact Nat.lt_irrefl _ (hrow ▸ (hs.rowed d hnew).2 c hc)

/-- Zeroing the next row frees nothing and loses nothing. -/
theorem pushRow_heaps (hs : Inv s) : (s.pushRow n).heaps = s.heaps := by
  apply wipe_eq
  intro p hp
  cases p with
  | result k c i =>
      simp only [Place.cell, Option.any_some, decide_eq_true_eq] at hp
      obtain ⟨rfl, hc, rfl⟩ := hp
      exact (hs.reclaimed k _ (next_free hs hc)).results c
  | deps k q i =>
      simp only [Place.cell, Option.any_some, decide_eq_true_eq] at hp
      obtain ⟨rfl, hc, rfl⟩ := hp
      exact ((hs.reclaimed k _ (next_free hs hc)).deps q).1
  | depIndex k q i =>
      simp only [Place.cell, Option.any_some, decide_eq_true_eq] at hp
      obtain ⟨rfl, hc, rfl⟩ := hp
      exact ((hs.reclaimed k _ (next_free hs hc)).deps q).2
  | typeOfDeclDiags d | declAstIdMap d => simp [Place.cell] at hp

theorem pushRow_counts (s : Db) (k : DefKind) (c : Column) :
    (s.pushRow n).counts k c = if k = n ∧ c ∈ columns n then s.counts k c + 1 else s.counts k c := rfl

theorem pushRow_hot (s : Db) : (s.pushRow n).hot k q i = if s.IsNext n k (.hot q) i then .zero else s.hot k q i := rfl

theorem pushRow_kind (s : Db) (d : Nat) : (s.pushRow n).kind d = s.kind d := rfl

theorem pushRow_row (s : Db) (d : Nat) : (s.pushRow n).row d = s.row d := rfl

theorem pushRow_inv (hs : Inv s) (hnew : n ≠ .none) (hcount : s.counts n (countSource n) < 2 ^ 32) :
    Inv (s.pushRow n) := by
  have hheaps := pushRow_heaps (n := n) hs
  have hle (k : DefKind) (c : Column) : s.counts k c ≤ (s.pushRow n).counts k c := by
    rw [pushRow_counts]
    split <;> omega
  refine { addressed := hs.addressed, rowed := ?_, alone := hs.alone, level := ?_, reclaimed := ?_, balanced := ?_,
           settled := ?_, routed := ?_, revs := ?_, cells := ?_, sentinel := hs.sentinel, names := hs.names,
           kindRow := hs.kindRow, diags := hs.diags, maps := hs.maps, counted := ?_, kept := ?_ }
  · intro d hd
    obtain ⟨hpos, hrows⟩ := hs.rowed d hd
    exact ⟨hpos, fun c hc => Nat.lt_of_lt_of_le (hrows c hc) (hle _ c)⟩
  · intro k c hc c' hc'
    rw [pushRow_counts, pushRow_counts, hs.level k c hc c' hc']
    by_cases hk : k = n
    · subst hk
      simp [hc, hc']
    · simp [hk]
  · intro k i hfree
    have hbare := hs.reclaimed k i hfree
    constructor
    · intro q
      rw [pushRow_hot]
      split
      · rfl
      · exact hbare.empty q
    · rw [hheaps]
      exact hbare.deps
    · rw [hheaps]
      exact hbare.results
  · rw [hheaps]
    exact hs.balanced
  · intro k q i hempty
    rw [hheaps]
    by_cases hnext : s.IsNext n k (.hot q) i
    · obtain ⟨rfl, hc, rfl⟩ := hnext
      exact (hs.reclaimed k _ (next_free hs hc)).deps q
    · rw [pushRow_hot, if_neg hnext] at hempty
      exact hs.settled k q i hempty
  · intro k q i hq
    rw [pushRow_hot]
    split
    · rfl
    · exact hs.routed k q i hq
  · intro k q i
    rw [pushRow_hot]
    split
    · exact Nat.two_pow_pos 31
    · exact hs.revs k q i
  · rw [hheaps]
    exact hs.cells
  · intro k c hc
    obtain ⟨hpos, hcap⟩ := hs.counted k c hc
    rw [pushRow_counts]
    split
    · rename_i hk
      obtain ⟨rfl, -⟩ := hk
      rw [hs.level k c hc _ (countSource_mem hnew)]
      omega
    · exact ⟨hpos, hcap⟩
  · rw [hheaps]
    exact hs.kept

end Growth

section Repointing

def repoint (s : Db) (d : Nat) (k : DefKind) (i : Nat) : Db :=
  { s with kinds := s.kinds.set d k, kindRow := s.kindRow.set d i }

theorem repoint_kind (hd : d < s.kinds.length) (d' : Nat) :
    (repoint s d n i).kind d' = if d' = d then n else s.kind d' := by
  rw [repoint, Db.kind, Db.kind, List.getElem?_set]
  by_cases heq : d = d'
  · subst heq
    simp [hd]
  · simp [heq, Ne.symm heq]

theorem repoint_row (hd : d < s.kindRow.length) (d' : Nat) :
    (repoint s d n i).row d' = if d' = d then i else s.row d' := by
  rw [repoint, Db.row, Db.row, List.getElem?_set]
  by_cases heq : d = d'
  · subst heq
    simp [hd]
  · simp [heq, Ne.symm heq]

theorem given_up (hs : Exclusive s) (hd : d < s.kinds.length) (hd' : d < s.kindRow.length)
    (hold : s.kind d ≠ .none) (hne : s.kind d ≠ n) : ¬ Owned (repoint s d n i) (s.kind d) (s.row d) := by
  rintro ⟨-, d', hkind, hrow⟩
  rw [repoint_kind hd] at hkind
  rw [repoint_row hd'] at hrow
  by_cases heq : d' = d
  · rw [if_pos heq] at hkind
    exact hne hkind.symm
  · rw [if_neg heq] at hkind hrow
    exact heq (hs.alone d d' hold hkind hrow)

theorem repoint_inv (hs : Inv s) (hd : d < s.kinds.length) (hnew : n ≠ .none) (hpos : 0 < i)
    (hrow : ∀ c ∈ columns n, i < s.counts n c) (hfree : ¬ Owned s n i)
    (hbare : s.kind d ≠ .none → Bare s (s.kind d) (s.row d)) : Inv (repoint s d n i) := by
  have hd' : d < s.kindRow.length := hs.kindRow ▸ hd
  have hkind := repoint_kind (n := n) (i := i) hd
  have hrow' := repoint_row (n := n) (i := i) hd'
  refine { addressed := ?_, rowed := ?_, alone := ?_, level := hs.level, reclaimed := ?_, balanced := hs.balanced,
           settled := hs.settled, routed := hs.routed, revs := hs.revs, cells := hs.cells, sentinel := ?_, names := ?_,
           kindRow := ?_, diags := ?_, maps := ?_, counted := hs.counted, kept := ?_ }
  · simp only [repoint, List.length_set]
    exact hs.addressed
  · intro d'
    rw [hkind, hrow']
    by_cases heq : d' = d
    · rw [if_pos heq, if_pos heq]
      exact fun _ => ⟨hpos, hrow⟩
    · rw [if_neg heq, if_neg heq]
      exact hs.rowed d'
  · intro d₁ d₂
    rw [hkind, hkind, hrow', hrow']
    by_cases h₁ : d₁ = d
    · rw [if_pos h₁, if_pos h₁]
      by_cases h₂ : d₂ = d
      · exact fun _ _ _ => h₂.trans h₁.symm
      · rw [if_neg h₂, if_neg h₂]
        exact fun _ hk hi => absurd ⟨hnew, d₂, hk, hi⟩ hfree
    · rw [if_neg h₁, if_neg h₁]
      by_cases h₂ : d₂ = d
      · rw [if_pos h₂, if_pos h₂]
        exact fun _ hk hi => absurd ⟨hnew, d₁, hk.symm, hi.symm⟩ hfree
      · rw [if_neg h₂, if_neg h₂]
        exact hs.alone d₁ d₂
  · intro k i' hout
    by_cases hin : Owned s k i'
    · obtain ⟨hk, d', rfl, rfl⟩ := hin
      by_cases heq : d' = d
      · subst heq
        exact ⟨(hbare hk).empty, (hbare hk).deps, (hbare hk).results⟩
      · refine absurd ⟨hk, d', ?_, ?_⟩ hout
        · rw [hkind, if_neg heq]
        · rw [hrow', if_neg heq]
    · have hold := hs.reclaimed k i' hin
      exact ⟨hold.empty, hold.deps, hold.results⟩
  · simp only [repoint, List.length_set]
    exact hs.sentinel
  · simp only [repoint, List.length_set]
    exact hs.names
  · simp only [repoint, List.length_set]
    exact hs.kindRow
  · simp only [repoint, List.length_set]
    exact hs.diags
  · simp only [repoint, List.length_set]
    exact hs.maps
  · simp only [repoint, List.length_set]
    exact hs.kept

end Repointing

section Classifying

/-- The state before a definition takes its new kind: a fresh row is there and the old one
is reclaimed. -/
def vacated (s : Db) (d : Nat) (n : DefKind) : Db :=
  if s.kind d = .none then s.pushRow n else (s.pushRow n).engineReclaimRetypedSlots (s.kind d) (s.row d) d

theorem defSetKind_cases (h : s.defSetKind d n = some s') (hne : s.kind d ≠ n) :
    d < s.kinds.length ∧ n ≠ .none ∧
      s' = repoint (vacated s d n) d n (s.counts n (countSource n) % 2 ^ 32) := by
  rw [Db.defSetKind, if_neg hne] at h
  split_ifs at h with hd hnew
  exact ⟨Nat.not_le.mp hd, hnew, (Option.some.inj h).symm⟩

theorem vacated_local (s : Db) (d : Nat) (n : DefKind) :
    Local (s.kind d) (s.row d) d (s.pushRow n) (vacated s d n) := by
  rw [vacated]
  split
  · exact .refl _
  · exact reclaimDefTypeSlots_local

theorem vacated_inv (hs : Inv s) (hnew : n ≠ .none) (hcount : s.counts n (countSource n) < 2 ^ 32) :
    Inv (vacated s d n) := by
  have hpush := pushRow_inv hs hnew hcount
  rw [vacated]
  split
  · exact hpush
  · rename_i hold
    exact hpush.of_local reclaimDefTypeSlots_local (lt_of_kind hold) (owned_of_kind hold)
      (reclaimDefTypeSlots_sound hpush.toSound)

theorem vacated_bare (hs : Inv s) (hnew : n ≠ .none) (hcount : s.counts n (countSource n) < 2 ^ 32)
    (hold : s.kind d ≠ .none) (hne : s.kind d ≠ n) :
    Bare (vacated s d n) (s.kind d) (s.row d) ↔ Drained s (s.kind d) (s.row d) := by
  have hpush := pushRow_inv hs hnew hcount
  rw [vacated, if_neg hold, retyped_bare hpush.toSound]
  · simp only [Drained, pushRow_heaps hs, pushRow_hot]
    apply forall_congr'
    intro q
    apply forall_congr'
    intro hq
    rw [if_neg fun hnext => hne hnext.1]
  · exact fun q hq => (hpush.rowed d hold).2 _ (hot_mem hq)

theorem defSetKind_inv (hs : Inv s) (h : s.defSetKind d n = some s') (hne : s.kind d ≠ n)
    (hcount : s.counts n (countSource n) < 2 ^ 32)
    (hdrained : s.kind d ≠ .none → Drained s (s.kind d) (s.row d)) :
    Inv s' ∧ s'.kind d = n ∧ Bare s' n (s'.row d) := by
  obtain ⟨hd, hnew, rfl⟩ := defSetKind_cases h hne
  have hlocal := vacated_local s d n
  have hmid := vacated_inv (d := d) hs hnew hcount
  have hsource := countSource_mem hnew
  have hfree : ¬ Owned (vacated s d n) n (s.counts n (countSource n)) := by
    rw [hlocal.owned]
    exact next_free hs hsource
  have hd' : d < (vacated s d n).kinds.length := hlocal.kinds ▸ hd
  rw [Nat.mod_eq_of_lt hcount]
  refine ⟨repoint_inv hmid hd' hnew (hs.counted n _ hsource).1 ?_ hfree ?_, ?_, ?_⟩
  · intro c hc
    rw [hlocal.counts, pushRow_counts, if_pos ⟨rfl, hc⟩, hs.level n c hc _ hsource]
    exact Nat.lt_succ_self _
  · rw [hlocal.kind, hlocal.row, pushRow_kind, pushRow_row]
    exact fun hold => (vacated_bare hs hnew hcount hold hne).mpr (hdrained hold)
  · rw [repoint_kind hd', if_pos rfl]
  · rw [repoint_row (hmid.kindRow ▸ hd'), if_pos rfl]
    have hbare := hmid.reclaimed n _ hfree
    exact ⟨hbare.empty, hbare.deps, hbare.results⟩

/-- A row number that wraps is the sentinel's, and memory left in a row given up stays there. -/
theorem defSetKind_fails (hs : Inv s) (h : s.defSetKind d n = some s') (hne : s.kind d ≠ n)
    (hbad : ¬ (s.counts n (countSource n) < 2 ^ 32 ∧ (s.kind d ≠ .none → Drained s (s.kind d) (s.row d)))) :
    ¬ Exclusive s' := by
  obtain ⟨hd, hnew, rfl⟩ := defSetKind_cases h hne
  have hlocal := vacated_local s d n
  have hd' : d < (vacated s d n).kinds.length := hlocal.kinds ▸ hd
  have hd'' : d < (vacated s d n).kindRow.length := by
    rw [hlocal.rest]
    exact hs.kindRow ▸ hd
  intro hgood
  by_cases hcount : s.counts n (countSource n) < 2 ^ 32
  · obtain ⟨hold, hleft⟩ := Classical.not_imp.mp fun hdrained => hbad ⟨hcount, hdrained⟩
    have hmid := vacated_inv (d := d) hs hnew hcount
    have hgiven := given_up hmid.toExclusive (i := s.counts n (countSource n) % 2 ^ 32) (n := n) hd' hd''
    rw [hlocal.kind, hlocal.row, pushRow_kind, pushRow_row] at hgiven
    have hbare := hgood.reclaimed _ _ (hgiven hold hne)
    exact hleft ((vacated_bare hs hnew hcount hold hne).mp ⟨hbare.empty, hbare.deps, hbare.results⟩)
  · have hcap := (hs.counted n _ (countSource_mem hnew)).2
    have hwrap : s.counts n (countSource n) = 2 ^ 32 := by omega
    have hkind := repoint_kind (n := n) (i := s.counts n (countSource n) % 2 ^ 32) hd' d
    have hrow := repoint_row (n := n) (i := s.counts n (countSource n) % 2 ^ 32) hd'' d
    rw [if_pos rfl] at hkind hrow
    have hpos := (hgood.rowed d fun hnone => hnew (hkind.symm.trans hnone)).1
    rw [hrow, hwrap] at hpos
    exact absurd hpos (by decide)

end Classifying

end Ore.DefRowRetyping
