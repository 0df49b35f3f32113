import Ore.DefRows

namespace Ore.DefRowInvariant

open DefRows HeapLedger
open NamespaceItems (DefKind)

variable {s s' s'' : Db} {k k' n : DefKind} {q q' : SlotColumn} {c : ResultColumn} {i i' d d' rev threshold : Nat}
  {b : Body} {p : Place} {w : Write} {op : Op} {qs : List SlotColumn} {outcome : Outcome}

def Owned (s : Db) (k : DefKind) (i : Nat) : Prop := k ≠ .none ∧ ∃ d, s.kind d = k ∧ s.row d = i

/-- Every slot of the row is EMPTY and the row owns no memory. -/
structure Bare (s : Db) (k : DefKind) (i : Nat) : Prop where
  empty : ∀ q, (s.hot k q i).state = .empty
  deps : ∀ q, s.heaps.held (.deps k q i) = none ∧ s.heaps.held (.depIndex k q i) = none
  results : ∀ c, s.heaps.held (.result k c i) = none

/-- Each classified definition has a row of its kind to itself, the columns of a kind are
level, and a row that no definition has is bare: all it ever owned has been freed, and
nothing is freed twice. -/
structure Exclusive (s : Db) : Prop where
  addressed : s.kinds.length ≤ 2 ^ 32
  rowed : ∀ d, s.kind d ≠ .none → 0 < s.row d ∧ ∀ c ∈ columns (s.kind d), s.row d < s.counts (s.kind d) c
  alone : ∀ d d', s.kind d ≠ .none → s.kind d' = s.kind d → s.row d' = s.row d → d' = d
  level : ∀ k, ∀ c ∈ columns k, ∀ c' ∈ columns k, s.counts k c = s.counts k c'
  reclaimed : ∀ k i, ¬ Owned s k i → Bare s k i
  balanced : Balanced s.heaps

/-- A definition that takes a kind finds a bare row. -/
def Fresh (s : Db) (op : Op) (s' : Db) : Prop :=
  match op with
  | .defSetKind d kind => s.kind d ≠ kind → s'.kind d = kind ∧ Bare s' kind (s'.row d)
  | _ => True

/-- No EMPTY slot of the row has left memory in the results. -/
def Drained (s : Db) (k : DefKind) (i : Nat) : Prop :=
  ∀ q ∈ typeSlots k, (s.hot k q i).state = .empty → ∀ c ∈ heapColumns k q, s.heaps.held (.result k c i) = none

/-- Definitions and rows have 32-bit numbers, and a row that is given up is drained. -/
def Meets (s : Db) (op : Op) : Prop :=
  match op with
  | .createDef => s.kinds.length < 2 ^ 32
  | .defSetKind d kind =>
      s.kind d ≠ kind → s.counts kind (countSource kind) < 2 ^ 32 ∧ (s.kind d ≠ .none → Drained s (s.kind d) (s.row d))
  | _ => True

/-- A relation between the states around every operation of a run. A failed assertion ends
the run. -/
def Along (P : Db → Op → Db → Prop) : List Op → Db → Prop
  | [], _ => True
  | op :: ops, s => ∀ s', step s op = some s' → P s op s' ∧ Along P ops s'

/-- The places that a computation or a reclaim of a row may write. -/
def Near (k : DefKind) (i d : Nat) : Place → Prop
  | .result k' c i' => k' = k ∧ i' = i ∧ ∃ q ∈ typeSlots k, c ∈ heapColumns k q
  | .deps k' _ i' | .depIndex k' _ i' => k' = k ∧ i' = i
  | .typeOfDeclDiags d' | .declAstIdMap d' => d' = d

/-- What the slots and their cells keep to themselves. -/
structure Sound (s : Db) : Prop where
  settled : ∀ k q i, (s.hot k q i).state = .empty →
    s.heaps.held (.deps k q i) = none ∧ s.heaps.held (.depIndex k q i) = none
  routed : ∀ k q i, q ∉ typeSlots k → (s.hot k q i).state = .empty
  revs : ∀ k q i, (s.hot k q i).verifiedRev < revLimit
  cells : ∀ k c i, s.heaps.held (.result k c i) ≠ none → ∃ q ∈ typeSlots k, c ∈ heapColumns k q

/-- The columns of the definitions have one length, and rows are counted in 32 bits. -/
structure Sized (s : Db) : Prop where
  sentinel : 0 < s.kinds.length
  names : s.names.length = s.kinds.length
  kindRow : s.kindRow.length = s.kinds.length
  diags : s.typeOfDeclDiags = s.kinds.length
  maps : s.declAstIdMaps = s.kinds.length
  counted : ∀ k, ∀ c ∈ columns k, 0 < s.counts k c ∧ s.counts k c ≤ 2 ^ 32
  kept : ∀ d, s.heaps.held (.typeOfDeclDiags d) ≠ none ∨ s.heaps.held (.declAstIdMap d) ≠ none → d < s.kinds.length

structure Inv (s : Db) : Prop extends Exclusive s, Sound s, Sized s

section Columns

def slotOf : ResultColumn → SlotColumn
  | .signatureResult => .signature
  | .signatureShapeResult | .signatureDiags => .signatureShape
  | .bodyNodeTypes | .fnBodyDiags => .infer
  | .body => .bodyScopes
  | _ => .type

theorem typeSlots_nodup (k : DefKind) : (typeSlots k).Nodup := by cases k <;> decide

theorem countSource_mem (h : k ≠ .none) : countSource k ∈ columns k := by
  cases k <;> first | contradiction | decide

theorem hot_mem (h : q ∈ typeSlots k) : .hot q ∈ columns k := by
  revert q
  cases k <;> decide

theorem mem_heapColumns (h : c ∈ heapColumns k q) : slotOf c = q := by
  cases q with
  | type => cases k <;> simp_all [heapColumns, slotOf]
  | signatureShape | infer =>
      simp only [heapColumns, List.mem_cons, List.not_mem_nil, or_false] at h
      rcases h with rfl | rfl <;> rfl
  | signature | bodyScopes => simp_all [heapColumns, slotOf]
  | bodyReferences | declAstMap | constEval => simp [heapColumns] at h

end Columns

/-- A computation or a reclaim of one row. -/
structure Local (k : DefKind) (i d : Nat) (s s' : Db) : Prop where
  rest : s' = { s with hot := s'.hot, cold := s'.cold, heaps := s'.heaps }
  hot : ∀ k' q i', ¬ (k' = k ∧ i' = i) → s'.hot k' q i' = s.hot k' q i'
  heaps : Edits (Near k i d) s.heaps s'.heaps

section Locality

theorem Local.refl (s : Db) : Local k i d s s := ⟨rfl, fun _ _ _ _ => rfl, .refl _⟩

theorem Local.trans (h : Local k i d s s') (h' : Local k i d s' s'') : Local k i d s s'' := by
  refine ⟨?_, fun k' q i' hne => (h'.hot k' q i' hne).trans (h.hot k' q i' hne), h.heaps.trans h'.heaps⟩
  have hrest := h'.rest
  rw [h.rest] at hrest
  exact hrest

theorem Local.kind (h : Local k i d s s') (d' : Nat) : s'.kind d' = s.kind d' := by
  rw [h.rest]
  rfl

theorem Local.row (h : Local k i d s s') (d' : Nat) : s'.row d' = s.row d' := by
  rw [h.rest]
  rfl

theorem Local.owned (h : Local k i d s s') : Owned s' k' i' ↔ Owned s k' i' := by
  simp only [Owned, h.kind, h.row]

theorem Local.counts (h : Local k i d s s') : s'.counts = s.counts := by rw [h.rest]

theorem Local.kinds (h : Local k i d s s') : s'.kinds = s.kinds := by rw [h.rest]

theorem Local.bare (h : Local k i d s s') (hne : ¬ (k' = k ∧ i' = i)) (hbare : Bare s k' i') : Bare s' k' i' := by
  have hheld {p : Place} (hp : ¬ Near k i d p) : s'.heaps.held p = s.heaps.held p := h.heaps.frame p hp
  constructor
  · intro q
    rw [h.hot k' q i' hne]
    exact hbare.empty q
  · intro q
    rw [hheld (p := .deps k' q i') hne, hheld (p := .depIndex k' q i') hne]
    exact hbare.deps q
  · intro c
    rw [hheld (p := .result k' c i') fun hnear => hne ⟨hnear.1, hnear.2.1⟩]
    exact hbare.results c

/-- Work on a row that a definition has keeps the invariant. -/
theorem Inv.of_local (hs : Inv s) (h : Local k i d s s') (hd : d < s.kinds.length) (howned : Owned s k i)
    (hsound : Sound s') : Inv s' := by
  have hne {k' : DefKind} {i' : Nat} (hfree : ¬ Owned s k' i') : ¬ (k' = k ∧ i' = i) := by
    rintro ⟨rfl, rfl⟩
    exact hfree howned
  refine { hsound with addressed := ?_, rowed := ?_, alone := ?_, level := ?_, reclaimed := ?_, balanced := ?_,
                       sentinel := ?_, names := ?_, kindRow := ?_, diags := ?_, maps := ?_, counted := ?_, kept := ?_ }
  · exact h.kinds ▸ hs.addressed
  · intro d'
    rw [h.kind, h.row, h.counts]
    exact hs.rowed d'
  · intro d₁ d₂
    rw [h.kind, h.kind, h.row, h.row]
    exact hs.alone d₁ d₂
  · rw [h.counts]
    exact hs.level
  · intro k' i' hfree
    rw [h.owned] at hfree
    exact h.bare (hne hfree) (hs.reclaimed k' i' hfree)
  · exact h.heaps.balanced hs.balanced
  · exact h.kinds ▸ hs.sentinel
  · rw [h.rest]
    exact hs.names
  · rw [h.rest]
    exact hs.kindRow
  · rw [h.rest]
    exact hs.diags
  · rw [h.rest]
    exact hs.maps
  · rw [h.counts]
    exact hs.counted
  · intro d' hd'
    rw [h.kinds]
    by_cases heq : d' = d
    · exact heq ▸ hd
    · apply hs.kept d'
      rwa [h.heaps.frame (.typeOfDeclDiags d') heq, h.heaps.frame (.declAstIdMap d') heq] at hd'

end Locality

section Slots

theorem Local.cells (h : Local k i d s s') (hs : Sound s) (k' : DefKind) (c : ResultColumn) (i' : Nat)
    (hheld : s'.heaps.held (.result k' c i') ≠ none) : ∃ q ∈ typeSlots k', c ∈ heapColumns k' q := by
  by_cases hnear : Near k i d (.result k' c i')
  · obtain ⟨rfl, -, hq⟩ := hnear
    exact hq
  · rw [h.heaps.frame _ hnear] at hheld
    exact hs.cells k' c i' hheld

theorem near_resultHeaps (hq : q ∈ typeSlots k) : ∀ p ∈ resultHeaps k q i d, Near k i d p := by
  intro p hp
  rcases List.mem_append.mp hp with hp | hp
  · obtain ⟨c, hc, rfl⟩ := List.mem_map.mp hp
    exact ⟨rfl, rfl, q, hq, hc⟩
  · split at hp
    · simp only [List.mem_cons, List.not_mem_nil, or_false] at hp
      rcases hp with rfl | rfl <;> exact rfl
    · cases hp

def slotPlaces (k : DefKind) (q : SlotColumn) (i d : Nat) : List Place :=
  resultHeaps k q i d ++ [.deps k q i, .depIndex k q i]

theorem reclaimSlot_held (s : Db) (p : Place) :
    ((s.freeTypeSlotResultHeap q k i d).reclaimSlot k q i).heaps.held p =
      if p ∈ slotPlaces k q i d then none else s.heaps.held p := by
  rw [show ((s.freeTypeSlotResultHeap q k i d).reclaimSlot k q i).heaps =
    (s.heaps.releaseAll (resultHeaps k q i d)).releaseAll [.deps k q i, .depIndex k q i] from rfl, held_releaseAll,
    held_releaseAll, slotPlaces]
  by_cases hdeps : p ∈ [Place.deps k q i, .depIndex k q i]
  · rw [if_pos hdeps, if_pos (List.mem_append_right _ hdeps)]
  · rw [if_neg hdeps]
    by_cases hheaps : p ∈ resultHeaps k q i d
    · rw [if_pos hheaps, if_pos (List.mem_append_left _ hheaps)]
    · rw [if_neg hheaps, if_neg fun hmem => (List.mem_append.mp hmem).elim hheaps hdeps]

theorem reclaimSlot_hot (s : Db) : ((s.freeTypeSlotResultHeap q k i d).reclaimSlot k q i).hot k' q' i' =
    if k' = k ∧ q' = q ∧ i' = i then { s.hot k q i with state := .empty, fingerprint := none, durability := .low }
    else s.hot k' q' i' := rfl

theorem reclaimSlot_local (hq : q ∈ typeSlots k) :
    Local k i d s ((s.freeTypeSlotResultHeap q k i d).reclaimSlot k q i) := by
  refine ⟨rfl, ?_, ?_⟩
  · intro k' q' i' hne
    rw [reclaimSlot_hot, if_neg fun h => hne ⟨h.1, h.2.2⟩]
  · apply (edits_releaseAll (near_resultHeaps hq)).trans
    apply edits_releaseAll
    intro p hp
    simp only [List.mem_cons, List.not_mem_nil, or_false] at hp
    rcases hp with rfl | rfl <;> exact ⟨rfl, rfl⟩

theorem reclaimSlot_sound (hs : Sound s) (hq : q ∈ typeSlots k) :
    Sound ((s.freeTypeSlotResultHeap q k i d).reclaimSlot k q i) := by
  constructor
  · intro k' q' i' hempty
    rw [reclaimSlot_held, reclaimSlot_held]
    by_cases hhere : k' = k ∧ q' = q ∧ i' = i
    · obtain ⟨rfl, rfl, rfl⟩ := hhere
      simp [slotPlaces]
    · rw [reclaimSlot_hot, if_neg hhere] at hempty
      obtain ⟨hdeps, hindex⟩ := hs.settled k' q' i' hempty
      rw [hdeps, hindex]
      simp
  · intro k' q' i' hq'
    rw [reclaimSlot_hot]
    split
    · rfl
    · exact hs.routed k' q' i' hq'
  · intro k' q' i'
    rw [reclaimSlot_hot]
    split
    · exact hs.revs k q i
    · exact hs.revs k' q' i'
  · exact (reclaimSlot_local hq).cells hs

theorem reclaimOneTypeSlot_local (hq : q ∈ typeSlots k) :
    Local k i d s (Db.reclaimOneTypeSlot q k i d threshold s) := by
  rw [Db.reclaimOneTypeSlot]
  split_ifs
  · exact .refl s
  · exact .refl s
  · exact .refl s
  · exact reclaimSlot_local hq

theorem reclaimOneTypeSlot_sound (hs : Sound s) (hq : q ∈ typeSlots k) :
    Sound (Db.reclaimOneTypeSlot q k i d threshold s) := by
  rw [Db.reclaimOneTypeSlot]
  split_ifs
  · exact hs
  · exact hs
  · exact hs
  · exact reclaimSlot_sound hs hq

theorem reclaimDefTypeSlots_local : Local k i d s (s.reclaimDefTypeSlots k i d threshold) := by
  have hrun (qs : List SlotColumn) (hqs : ∀ q ∈ qs, q ∈ typeSlots k) (s : Db) :
      Local k i d s (qs.foldl (fun s q => Db.reclaimOneTypeSlot q k i d threshold s) s) := by
    induction qs generalizing s with
    | nil => exact .refl s
    | cons q qs ih =>
        apply (reclaimOneTypeSlot_local (hqs q (List.mem_cons_self ..))).trans
        exact ih (fun q' hq' => hqs q' (List.mem_cons_of_mem _ hq')) _
  exact hrun (typeSlots k) (fun _ => id) s

theorem reclaimDefTypeSlots_sound (hs : Sound s) : Sound (s.reclaimDefTypeSlots k i d threshold) := by
  have hrun (qs : List SlotColumn) (hqs : ∀ q ∈ qs, q ∈ typeSlots k) (s : Db) (hs : Sound s) :
      Sound (qs.foldl (fun s q => Db.reclaimOneTypeSlot q k i d threshold s) s) := by
    induction qs generalizing s with
    | nil => exact hs
    | cons q qs ih =>
        apply ih fun q' hq' => hqs q' (List.mem_cons_of_mem _ hq')
        exact reclaimOneTypeSlot_sound hs (hqs q (List.mem_cons_self ..))
  exact hrun (typeSlots k) (fun _ => id) s hs

end Slots

end Ore.DefRowInvariant
