import Ore.StringPoolRefinement

namespace Ore.StringPoolCanonical

open StringPoolModel StringPoolNames StringPoolRefinement
open WorkspaceModel (Bytes)

variable {names : List Bytes} {past : List (Op × Nat)} {s : Bytes} {pool : StringPool}

def LooksUp (before : List (Op × Nat)) (s : Bytes) (id : Nat) : Prop :=
  (∀ j, (Op.intern s, j) ∈ before → id = j) ∧ ((∀ j, (Op.intern s, j) ∉ before) → id = 0)

/-- What holds of a pool and the operations and answers since it was made: ids
stand for the strings they were given out for. -/
structure Canonical (pool : StringPool) (past : List (Op × Nat)) : Prop where
  text : ∀ s id, (Op.intern s, id) ∈ past → readBytes (poolGet pool id) 0 (s.length + 1) = s ++ [0]
  same : ∀ s t i j, (Op.intern s, i) ∈ past → (Op.intern t, j) ∈ past → (i = j ↔ s = t)
  proper : ∀ s id, (Op.intern s, id) ∈ past → (id = 0 ↔ s = [])
  lookups : ∀ before s id after, past = before ++ (Op.lookup s, id) :: after → LooksUp before s id

/-- The operations and answers that made the names. -/
structure Made (names : List Bytes) (past : List (Op × Nat)) : Prop where
  nonempty : [] ∉ names
  ids : ∀ s id, (Op.intern s, id) ∈ past → id = idOf 5 names s ∧ (s ≠ [] → s ∈ names)
  mem : ∀ s ∈ names, ∃ id, (Op.intern s, id) ∈ past
  lookups : ∀ before s id after, past = before ++ (Op.lookup s, id) :: after → LooksUp before s id

theorem split_last {α : Type} {past before after : List α} {x y : α} (h : past ++ [x] = before ++ y :: after) :
    (past = before ∧ x = y) ∨ ∃ after', past = before ++ y :: after' := by
  rcases List.eq_nil_or_concat after with rfl | ⟨after', z, rfl⟩
  · obtain ⟨hpast, hx⟩ := List.append_inj' h rfl
    exact .inl ⟨hpast, by simpa using hx⟩
  · rw [List.concat_eq_append, ← List.cons_append, ← List.append_assoc] at h
    exact .inr ⟨after', (List.append_inj' h rfl).1⟩

theorem lookups_append {op : Op} {id : Nat}
    (h : ∀ before s id after, past = before ++ (Op.lookup s, id) :: after → LooksUp before s id)
    (hop : ∀ s, op = .lookup s → LooksUp past s id) :
    ∀ before s id' after, past ++ [(op, id)] = before ++ (Op.lookup s, id') :: after → LooksUp before s id' := by
  intro before s id' after heq
  rcases split_last heq with ⟨rfl, hx⟩ | ⟨after', hpast⟩
  · obtain ⟨hop', rfl⟩ := Prod.mk.inj hx
    exact hop s hop'
  · exact h before s id' after' hpast

theorem Made.looksUp (h : Made names past) (s : Bytes) : LooksUp past s (idOf 5 names s) := by
  refine ⟨fun j hj => (h.ids s j hj).1.symm, fun habsent => idOf_of_not_mem fun hmem => ?_⟩
  obtain ⟨id, hid⟩ := h.mem s hmem
  exact habsent id hid

theorem Made.interned (h : Made names past) (s : Bytes) :
    Made (intern names s) (past ++ [(.intern s, idOf 5 (intern names s) s)]) where
  nonempty hmem := by
    rcases mem_intern.mp hmem with hmem | ⟨heq, hne⟩
    · exact h.nonempty hmem
    · exact hne heq.symm
  ids t id hmem := by
    rcases List.mem_append.mp hmem with hmem | hmem
    · obtain ⟨hid, ht⟩ := h.ids t id hmem
      refine ⟨?_, fun hne => mem_intern.mpr (.inl (ht hne))⟩
      by_cases hempty : t = []
      · subst hempty
        have hstill : [] ∉ intern names s := fun hmem => by
          rcases mem_intern.mp hmem with hmem | ⟨heq, hne⟩
          · exact h.nonempty hmem
          · exact hne heq.symm
        rw [hid, idOf_of_not_mem h.nonempty, idOf_of_not_mem hstill]
      · rw [hid, idOf_intern (ht hempty)]
    · simp only [List.mem_singleton, Prod.mk.injEq, Op.intern.injEq] at hmem
      obtain ⟨rfl, rfl⟩ := hmem
      exact ⟨rfl, fun hne => mem_intern.mpr (.inr ⟨rfl, hne⟩)⟩
  mem t ht := by
    rcases mem_intern.mp ht with hmem | ⟨rfl, -⟩
    · obtain ⟨id, hid⟩ := h.mem t hmem
      exact ⟨id, List.mem_append_left _ hid⟩
    · exact ⟨_, List.mem_append_right _ (List.mem_singleton_self _)⟩
  lookups := lookups_append h.lookups fun t ht => by simp at ht

theorem Made.other (h : Made names past) {op : Op} {id : Nat} (hop : ∀ s, op ≠ .intern s)
    (hlookup : ∀ s, op = .lookup s → id = idOf 5 names s) : Made names (past ++ [(op, id)]) where
  nonempty := h.nonempty
  ids s id' hmem := by
    rcases List.mem_append.mp hmem with hmem | hmem
    · exact h.ids s id' hmem
    · simp only [List.mem_singleton, Prod.mk.injEq] at hmem
      exact absurd hmem.1.symm (hop s)
  mem s hs := by
    obtain ⟨id', hid⟩ := h.mem s hs
    exact ⟨id', List.mem_append_left _ hid⟩
  lookups := lookups_append h.lookups fun s hs => hlookup s hs ▸ h.looksUp s

theorem Made.answer (h : Made names past) (op : Op) :
    Made (answer names op).1 (past ++ [(op, (answer names op).2)]) := by
  cases op with
  | intern s => exact h.interned s
  | lookup s => exact h.other (by simp) (by rintro t ⟨⟩; rfl)
  | reserveSlots n => exact h.other (by simp) (by simp)

theorem Made.answers (h : Made names past) (ops : List Op) :
    Made (answers names ops).1 (past ++ (answers names ops).2) := by
  induction ops generalizing names past with
  | nil => simpa [StringPoolNames.answers] using h
  | cons op ops ih => simpa [StringPoolNames.answers] using ih (h.answer op)

theorem made_nil : Made [] [] where
  nonempty := List.not_mem_nil
  ids := by simp
  mem := by simp
  lookups := by simp

theorem poolGet_text (h : Stored pool names) (hs : s ∈ names) :
    readBytes (poolGet pool (idOf 5 names s)) 0 (s.length + 1) = s ++ [0] := by
  have hblock := (h.blocks.block hs).1
  have hne : idOf 5 names s ≠ 0 := by
    have := le_idOf (a := 5) hs
    omega
  have hbytes := hblock.bytes
  unfold readBytes at hbytes ⊢
  rw [List.range_succ, List.map_append, List.map_singleton, poolGet, if_neg hne]
  rw [Nat.zero_add, hblock.nul]
  simpa using hbytes

theorem Made.canonical (h : Made names past) (hstored : Stored pool names) : Canonical pool past := by
  have hproper (s : Bytes) (id : Nat) (hmem : (Op.intern s, id) ∈ past) : id = 0 ↔ s = [] := by
    obtain ⟨hid, hs⟩ := h.ids s id hmem
    constructor
    · intro hzero
      by_contra hne
      have := le_idOf (a := 5) (hs hne)
      omega
    · rintro rfl
      rw [hid, idOf_of_not_mem h.nonempty]
  refine ⟨fun s id hmem => ?_, fun s t i j hi hj => ?_, hproper, h.lookups⟩
  · obtain ⟨hid, hs⟩ := h.ids s id hmem
    by_cases hempty : s = []
    · rw [(hproper s id hmem).mpr hempty, hempty]
      rfl
    · rw [hid]
      exact poolGet_text hstored (hs hempty)
  · refine ⟨fun heq => ?_, ?_⟩
    · by_cases hempty : s = []
      · rw [hempty, (hproper t j hj).mp (heq ▸ (hproper s i hi).mpr hempty)]
      · have hne : t ≠ [] := fun ht => hempty ((hproper s i hi).mp (heq.trans ((hproper t j hj).mpr ht)))
        obtain ⟨hid, hs⟩ := h.ids s i hi
        obtain ⟨hid', ht⟩ := h.ids t j hj
        exact idOf_inj (hs hempty) (ht hne) (hid.symm.trans (heq.trans hid'))
    · rintro rfl
      rw [(h.ids s i hi).1, (h.ids s j hj).1]

/-- Interning is canonical and stable over every run on a fresh pool. -/
theorem interning_canonical {k : Nat} (hk : 4 ≤ k) (ops : List Op) (hfits : FitsAlong (poolInit (2 ^ k)) ops) :
    ∃ pool past, run (poolInit (2 ^ k)) ops = some (pool, past) ∧ past.map (·.1) = ops ∧ Canonical pool past := by
  obtain ⟨pool, hrun, hstored⟩ := run_spec (poolInit_stored hk) ops hfits
  have hmade := made_nil.answers ops
  rw [List.nil_append] at hmade
  refine ⟨pool, _, hrun, ?_, hmade.canonical hstored⟩
  clear hrun hstored hmade hfits
  generalize ([] : List Bytes) = names
  induction ops generalizing names with
  | nil => rfl
  | cons op ops ih => rw [answers, List.map_cons, ih]

theorem interning_canonical_names : FitsAlong (poolInit (2 ^ 4))
    [.lookup [97], .intern [97], .reserveSlots 40, .intern [98], .lookup [97]] ∧
    ∃ pool past, run (poolInit (2 ^ 4)) [.lookup [97], .intern [97], .reserveSlots 40, .intern [98], .lookup [97]] =
      some (pool, past) ∧
      past.map (·.1) = [.lookup [97], .intern [97], .reserveSlots 40, .intern [98], .lookup [97]] ∧
        Canonical pool past := by
  have hfits : FitsAlong (poolInit (2 ^ 4)) [.lookup [97], .intern [97], .reserveSlots 40, .intern [98],
    .lookup [97]] :=
    fitsAlong_of_weight (poolInit_stored (Nat.le_refl 4)) _ (by decide)
  exact ⟨hfits, interning_canonical (Nat.le_refl 4) _ hfits⟩

/-- Behind 4 GiB of blocks the offset of a new one wraps around: it is written
over the block of the first name. -/
theorem wrapped_overwrites {a b : Bytes} (ha : a.length = 2 ^ 31) (hb : b.length = 2 ^ 31) (hab : a ≠ b)
    (h7 : a[7]? = some 1) :
    ¬∃ pool past, run (poolInit (2 ^ 4)) [.intern a, .intern b, .intern [3]] = some (pool, past) ∧
      Canonical pool past := by
  have ha0 : a ≠ [] := by rintro rfl; simp at ha
  have hb0 : b ≠ [] := by rintro rfl; simp at hb
  have h3a : ([3] : Bytes) ≠ a := by rintro rfl; simp at ha
  have h3b : ([3] : Bytes) ≠ b := by rintro rfl; simp at hb
  have hnames1 : intern [] a = [a] := by simp [intern, ha0]
  have hnames2 : intern [a] b = [a, b] := by simp [intern, hb0, Ne.symm hab]
  have hinit := poolInit_stored (Nat.le_refl 4)
  obtain ⟨pool1, hstep1, hstored1⟩ := poolIntern_spec (s := a) hinit ⟨by omega, .inl (by decide)⟩
  rw [hnames1] at hstep1 hstored1
  have hlen1 := blocks_end hstored1.blocks
  obtain ⟨pool2, hstep2, hstored2⟩ := poolIntern_spec (s := b) hstored1
    ⟨by omega, .inl (by
      rw [hlen1]; simp only [extent, List.map_cons, List.map_nil, List.sum_cons, List.sum_nil, ha]; decide)⟩
  rw [hnames2] at hstep2 hstored2
  have hlen2 := blocks_end hstored2.blocks
  simp only [extent, List.map_cons, List.map_nil, List.sum_cons, List.sum_nil, ha, hb] at hlen2
  obtain ⟨pool3, i, hstored3, hlen3, -, -, hcases⟩ := poolIntern_cases (s := [3]) hstored2 (by decide) (by simp)
  have hstep3 : poolIntern pool2 [3] = insertAt pool3 i [3] := by
    rcases hcases with ⟨hmem, -⟩ | ⟨-, hintern, -⟩
    · simp [h3a, h3b] at hmem
    · exact hintern
  have hoffset : pool3.len % 2 ^ 32 = 15 := by omega
  obtain ⟨pool4, hinsert, hbuffer⟩ := insertAt_writes pool3 i [3]
  rw [hoffset] at hinsert hbuffer
  rintro ⟨pool, past, hrun, hcanonical⟩
  have hid : idOf 5 [a] a = 5 := by rw [idOf, if_pos rfl]
  have hpast : pool = pool4 ∧ (Op.intern a, 5) ∈ past := by
    simp only [run, step, hstep1, hstep2, hstep3, hinsert, Option.bind_some, Option.map_some, Option.some.injEq,
      Prod.mk.injEq,
      hid] at hrun
    obtain ⟨rfl, rfl⟩ := hrun
    exact ⟨rfl, by simp⟩
  obtain ⟨rfl, hmem⟩ := hpast
  have htext := hcanonical.text a 5 hmem
  have hbyte : (readBytes (poolGet pool 5) 0 (a.length + 1))[7]? = some (0 : UInt8) := by
    have hwritten : pool.buffer 16 = 0 := by
      rw [hbuffer]
      rfl
    have hlt : 7 < a.length + 1 := by omega
    simp [readBytes, List.getElem?_map, List.getElem?_range hlt, poolGet, hwritten]
  rw [htext, List.getElem?_append_left (by omega), h7] at hbyte
  simp at hbyte

/-- Two names of 2 GiB each and a third one. -/
theorem interning_wraps :
    ¬∃ pool past, run (poolInit (2 ^ 4)) [.intern (List.replicate (2 ^ 31) 1), .intern (List.replicate (2 ^ 31) 2),
      .intern [3]] =
      some (pool, past) ∧ Canonical pool past := by
  refine wrapped_overwrites (List.length_replicate ..) (List.length_replicate ..) ?_ ?_
  · intro heq
    have hmem : (2 : UInt8) ∈ List.replicate (2 ^ 31) (1 : UInt8) := by
      rw [heq]
      exact List.mem_replicate.mpr ⟨by omega, rfl⟩
    exact absurd (List.mem_replicate.mp hmem).2 (by decide)
  · rw [List.getElem?_replicate, if_pos (by omega)]

end Ore.StringPoolCanonical
