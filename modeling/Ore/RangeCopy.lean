import Mathlib.Algebra.Ring.Nat
import Mathlib.Data.List.Nodup
import Mathlib.Data.List.Sort

namespace Ore.RangeCopy

variable {α O : Type}

/-- A range of a pool, the place it moves to, and the cell that owns it. -/
structure Remap where
  oldOff : Nat
  newOff : Nat
  len : Nat
  cell : Nat

def elems (pool : List α) (off len : Nat) : List α := (pool.drop off).take len

/-- Whether the elements of a range can be read at all. -/
def Inside (pool : List α) (off len : Nat) : Prop := len = 0 ∨ off + len ≤ pool.length

instance (pool : List α) (off len : Nat) : Decidable (Inside pool off len) :=
  inferInstanceAs (Decidable (len = 0 ∨ off + len ≤ pool.length))

/-- Reading past the end has no result. -/
def slice (pool : List α) (off len : Nat) : Option (List α) :=
  if Inside pool off len then some (elems pool off len) else none

def plan (cursor : Nat) : List Remap → List Remap
  | [] => []
  | r :: ranges => { r with newOff := cursor } :: plan (cursor + r.len) ranges

def copy (pool : List α) : List Remap → Option (List α)
  | [] => some []
  | r :: ranges =>
      match slice pool r.oldOff r.len, copy pool ranges with
      | some moved, some rest => some (moved ++ rest)
      | _, _ => none

/-- Where an owner keeps its range, and when it is live. -/
structure Owner (O : Type) where
  live : O → Bool
  off : O → Nat
  len : O → Nat
  setOff : O → Nat → O
  live_setOff : ∀ o n, live (setOff o n) = live o
  off_setOff : ∀ o n, off (setOff o n) = n
  len_setOff : ∀ o n, len (setOff o n) = len o

variable (f : Owner O)

def collectFrom (cell : Nat) : List O → List Remap
  | [] => []
  | o :: owners =>
      if f.live o ∧ f.len o ≠ 0 then ⟨f.off o, 0, f.len o, cell⟩ :: collectFrom (cell + 1) owners
      else collectFrom (cell + 1) owners

def rewrite : List Remap → List O → List O
  | [], owners => owners
  | r :: ranges, owners => rewrite ranges (owners.modify r.cell fun o => f.setOff o r.newOff)

def sorted (ranges : List Remap) : List Remap := ranges.insertionSort fun r s => r.oldOff ≤ s.oldOff

def ranges (owners : List O) : List Remap := plan 0 (sorted (collectFrom f 0 owners))

def compact (pool : List α) (owners : List O) : Option (List α × List O) :=
  (copy pool (ranges f owners)).map fun moved => (moved, rewrite f (ranges f owners) owners)

/-- Cells that own elements. -/
def Owns (owners : List O) (i : Nat) : Prop := ∃ o, owners[i]? = some o ∧ f.live o = true ∧ f.len o ≠ 0

/-- Every live owner reads what it read before, live ranges are apart, and the new
pool is made of the live ranges, each once. -/
structure Compacted (pool : List α) (owners : List O) (pool' : List α) (owners' : List O) : Prop where
  length : owners'.length = owners.length
  owner : ∀ (i : Nat) (o : O), owners[i]? = some o →
    ∃ o', owners'[i]? = some o' ∧ f.live o' = f.live o ∧ (f.live o = true → f.len o' = f.len o)
  reads : ∀ (i : Nat) (o o' : O), owners[i]? = some o → owners'[i]? = some o' → f.live o = true →
    Inside pool (f.off o) (f.len o) ∧ slice pool' (f.off o') (f.len o') = slice pool (f.off o) (f.len o)
  apart : ∀ (i j : Nat) (o o' : O), i ≠ j → owners'[i]? = some o → owners'[j]? = some o' → f.live o = true →
    f.live o' = true →
    f.len o ≠ 0 → f.len o' ≠ 0 → f.off o + f.len o ≤ f.off o' ∨ f.off o' + f.len o' ≤ f.off o
  exact : ∃ order : List Nat, order.Nodup ∧ (∀ i, i ∈ order ↔ Owns f owners i) ∧
    pool' = order.flatMap fun i => ((owners[i]?).map fun o => elems pool (f.off o) (f.len o)).getD []

section Plan

theorem length_elems {pool : List α} {off len : Nat} (h : Inside pool off len) : (elems pool off len).length = len := by
  rw [elems, List.length_take, List.length_drop]
  rcases h with hzero | hle <;> omega

theorem plan_map {γ : Type} (g : Remap → γ) (hg : ∀ r n, g { r with newOff := n } = g r) (cursor : Nat)
    (rs : List Remap) :
    (plan cursor rs).map g = rs.map g := by
  induction rs generalizing cursor with
  | nil => rfl
  | cons r rs ih => rw [plan, List.map_cons, List.map_cons, ih, hg]

theorem plan_mem {cursor : Nat} {rs : List Remap} {r : Remap} (hr : r ∈ plan cursor rs) :
    ∃ r' ∈ rs, r'.oldOff = r.oldOff ∧ r'.len = r.len ∧ r'.cell = r.cell := by
  have hmap := plan_map (fun r : Remap => (r.oldOff, r.len, r.cell)) (fun _ _ => rfl) cursor rs
  have hmem : (r.oldOff, r.len, r.cell) ∈ (plan cursor rs).map fun r : Remap => (r.oldOff, r.len, r.cell) :=
    List.mem_map.mpr ⟨r, hr, rfl⟩
  rw [hmap, List.mem_map] at hmem
  obtain ⟨r', hr', heq⟩ := hmem
  simp only [Prod.mk.injEq] at heq
  exact ⟨r', hr', heq⟩

theorem le_newOff {cursor : Nat} {rs : List Remap} {r : Remap} (hr : r ∈ plan cursor rs) : cursor ≤ r.newOff := by
  induction rs generalizing cursor with
  | nil => simp [plan] at hr
  | cons s rs ih =>
      rcases List.mem_cons.mp hr with rfl | hr
      · exact Nat.le_refl _
      · have hle := ih hr
        omega

/-- Earlier ranges end where later ones start, at the latest. -/
theorem plan_pairwise (cursor : Nat) (rs : List Remap) :
    (plan cursor rs).Pairwise fun r s => r.newOff + r.len ≤ s.newOff := by
  induction rs generalizing cursor with
  | nil => exact List.Pairwise.nil
  | cons r rs ih =>
      rw [plan, List.pairwise_cons]
      exact ⟨fun s hs => le_newOff hs, ih _⟩

theorem copy_eq_some {pool : List α} {rs : List Remap} {moved : List α} :
    copy pool rs = some moved ↔
      (∀ r ∈ rs, Inside pool r.oldOff r.len) ∧ moved = rs.flatMap fun r => elems pool r.oldOff r.len := by
  induction rs generalizing moved with
  | nil => simp [copy, eq_comm]
  | cons r rs ih =>
      simp only [copy, slice, List.forall_mem_cons, List.flatMap_cons]
      by_cases hin : Inside pool r.oldOff r.len
      · cases hcopy : copy pool rs with
        | none =>
            have hout : ¬ ∀ s ∈ rs, Inside pool s.oldOff s.len := by
              intro hall
              have hsome : copy pool rs = some (rs.flatMap fun r => elems pool r.oldOff r.len) := ih.mpr ⟨hall, rfl⟩
              rw [hcopy] at hsome
              simp at hsome
            simp [hin, hout]
        | some rest =>
            obtain ⟨hall, hrest⟩ := ih.mp hcopy
            simp only [hin, if_true, Option.some.injEq, true_and]
            rw [← hrest]
            constructor
            · exact fun heq => ⟨hall, heq.symm⟩
            · exact fun h => h.2.symm
      · simp [hin]

/-- A moved range holds its elements at its new place. -/
theorem copied_elems (pool : List α) (rs : List Remap) (front : List α)
    (hinside : ∀ r ∈ plan front.length rs, Inside pool r.oldOff r.len) (r : Remap) (hr : r ∈ plan front.length rs) :
    elems (front ++ (plan front.length rs).flatMap fun r => elems pool r.oldOff r.len) r.newOff r.len =
        elems pool r.oldOff r.len ∧
      r.newOff + r.len ≤ (front ++ (plan front.length rs).flatMap fun r => elems pool r.oldOff r.len).length := by
  induction rs generalizing front with
  | nil => simp [plan] at hr
  | cons s rs ih =>
      simp only [plan, List.flatMap_cons] at hinside hr ⊢
      have hs : Inside pool s.oldOff s.len := hinside { s with newOff := front.length } (List.mem_cons_self ..)
      have hlen := length_elems hs
      rcases List.mem_cons.mp hr with rfl | hr
      · constructor
        · simp only [elems, List.drop_left] at hlen ⊢
          rw [List.take_append_of_le_length (Nat.le_of_eq hlen.symm)]
          exact List.take_of_length_le (Nat.le_of_eq hlen)
        · simp only [List.length_append, hlen]
          omega
      · have hfront : (front ++ elems pool s.oldOff s.len).length = front.length + s.len := by
          rw [List.length_append, hlen]
        have hih := ih (front ++ elems pool s.oldOff s.len)
        rw [hfront] at hih
        rw [← List.append_assoc]
        exact hih (fun r hr => hinside r (List.mem_cons_of_mem _ hr)) hr

end Plan

section Cells

variable {f} {owners : List O}

theorem collectFrom_mem (cell : Nat) (owners : List O) (r : Remap) :
    r ∈ collectFrom f cell owners ↔
      ∃ i o, owners[i]? = some o ∧ f.live o = true ∧ f.len o ≠ 0 ∧ r = ⟨f.off o, 0, f.len o, cell + i⟩ := by
  induction owners generalizing cell with
  | nil => simp [collectFrom]
  | cons o owners ih =>
      have hshift : (∃ i o', owners[i]? = some o' ∧ f.live o' = true ∧ f.len o' ≠ 0 ∧
            r = ⟨f.off o', 0, f.len o', cell + 1 + i⟩) ↔
          ∃ i o', (o :: owners)[i + 1]? = some o' ∧ f.live o' = true ∧ f.len o' ≠ 0 ∧
            r = ⟨f.off o', 0, f.len o', cell + (i + 1)⟩ := by
        simp only [List.getElem?_cons_succ, Nat.add_assoc, Nat.add_comm 1]
      have hsplit : (∃ i o', (o :: owners)[i]? = some o' ∧ f.live o' = true ∧ f.len o' ≠ 0 ∧
            r = ⟨f.off o', 0, f.len o', cell + i⟩) ↔
          (f.live o = true ∧ f.len o ≠ 0 ∧ r = ⟨f.off o, 0, f.len o, cell⟩) ∨
            ∃ i o', (o :: owners)[i + 1]? = some o' ∧ f.live o' = true ∧ f.len o' ≠ 0 ∧
              r = ⟨f.off o', 0, f.len o', cell + (i + 1)⟩ := by
        constructor
        · rintro ⟨i, o', ho', hrest⟩
          cases i with
          | zero =>
              obtain rfl : o = o' := Option.some.inj ho'
              exact .inl hrest
          | succ i => exact .inr ⟨i, o', ho', hrest⟩
        · rintro (hrest | ⟨i, o', ho', hrest⟩)
          · exact ⟨0, o, rfl, hrest⟩
          · exact ⟨i + 1, o', ho', hrest⟩
      rw [hsplit, ← hshift, ← ih, collectFrom]
      split
      · rename_i hlive
        simp [hlive]
      · rename_i hlive
        constructor
        · exact .inr
        · rintro (h | h)
          · exact absurd ⟨h.1, h.2.1⟩ hlive
          · exact h

theorem collectFrom_nodup (cell : Nat) (owners : List O) : ((collectFrom f cell owners).map (·.cell)).Nodup := by
  induction owners generalizing cell with
  | nil => exact List.nodup_nil
  | cons o owners ih =>
      rw [collectFrom]
      split
      · rw [List.map_cons, List.nodup_cons]
        refine ⟨?_, ih _⟩
        simp only [List.mem_map, not_exists, not_and]
        intro r hr hcell
        obtain ⟨i, o', -, -, -, rfl⟩ := (collectFrom_mem _ _ _).mp hr
        simp only at hcell
        omega
      · exact ih _

theorem length_rewrite (rs : List Remap) (owners : List O) : (rewrite f rs owners).length = owners.length := by
  induction rs generalizing owners with
  | nil => rfl
  | cons r rs ih => rw [rewrite, ih, List.length_modify]

theorem rewrite_of_notMem (rs : List Remap) (owners : List O) {i : Nat} (hi : i ∉ rs.map (·.cell)) :
    (rewrite f rs owners)[i]? = owners[i]? := by
  induction rs generalizing owners with
  | nil => rfl
  | cons r rs ih =>
      simp only [List.map_cons, List.mem_cons, not_or] at hi
      rw [rewrite, ih _ hi.2]
      simp [Ne.symm hi.1]

theorem rewrite_of_mem (rs : List Remap) (hnodup : (rs.map (·.cell)).Nodup) (owners : List O) {r : Remap}
    (hr : r ∈ rs) :
    (rewrite f rs owners)[r.cell]? = (owners[r.cell]?).map fun o => f.setOff o r.newOff := by
  induction rs generalizing owners with
  | nil => simp at hr
  | cons s rs ih =>
      obtain ⟨hs, hrest⟩ := List.nodup_cons.mp (List.map_cons .. ▸ hnodup)
      rw [rewrite]
      rcases List.mem_cons.mp hr with rfl | hr
      · rw [rewrite_of_notMem _ _ hs, List.getElem?_modify_eq]
        rfl
      · have hne : s.cell ≠ r.cell := by
          intro heq
          exact hs (heq ▸ List.mem_map_of_mem hr)
        rw [ih hrest _ hr]
        simp [hne]

theorem sorted_perm (rs : List Remap) : (sorted rs).Perm rs := List.perm_insertionSort ..

theorem ranges_cells (owners : List O) : ((ranges f owners).map (·.cell)).Nodup := by
  rw [ranges, plan_map (·.cell) fun _ _ => rfl]
  exact ((sorted_perm _).map _).nodup_iff.mpr (collectFrom_nodup 0 owners)

theorem ranges_owner {r : Remap} (hr : r ∈ ranges f owners) :
    ∃ o, owners[r.cell]? = some o ∧ f.live o = true ∧ f.len o ≠ 0 ∧ r.oldOff = f.off o ∧ r.len = f.len o := by
  obtain ⟨r', hr', hold, hlen, hcell⟩ := plan_mem hr
  obtain ⟨i, o, ho, hlive, hne, rfl⟩ := (collectFrom_mem 0 owners r').mp ((sorted_perm _).mem_iff.mp hr')
  simp only [Nat.zero_add] at hold hlen hcell
  subst hcell
  exact ⟨o, ho, hlive, hne, hold.symm, hlen.symm⟩

theorem owner_ranges {i : Nat} {o : O} (ho : owners[i]? = some o) (hlive : f.live o = true) (hlen : f.len o ≠ 0) :
    ∃ r ∈ ranges f owners, r.cell = i ∧ r.oldOff = f.off o ∧ r.len = f.len o := by
  have hcollect := (collectFrom_mem 0 owners _).mpr ⟨i, o, ho, hlive, hlen, rfl⟩
  have hmem : i ∈ (ranges f owners).map (·.cell) := by
    rw [ranges, plan_map (·.cell) fun _ _ => rfl, List.mem_map]
    exact ⟨_, (sorted_perm _).mem_iff.mpr hcollect, Nat.zero_add i⟩
  obtain ⟨r, hr, hcell⟩ := List.mem_map.mp hmem
  obtain ⟨o', ho', -, -, hold, hlen'⟩ := ranges_owner hr
  rw [hcell, ho] at ho'
  obtain rfl := Option.some.inj ho'
  exact ⟨r, hr, hcell, hold, hlen'⟩

end Cells

def Readable (pool : List α) (owners : List O) : Prop :=
  ∀ o ∈ owners, f.live o = true → Inside pool (f.off o) (f.len o)

section Compact

variable {f} {pool : List α} {owners : List O} {i : Nat} {o : O}

/-- Compaction succeeds when every live range lies inside the pool. -/
theorem compact_isSome : (compact f pool owners).isSome = true ↔ Readable f pool owners := by
  rw [compact, Option.isSome_map, Option.isSome_iff_exists]
  constructor
  · rintro ⟨moved, hmoved⟩ o ho hlive
    by_cases hlen : f.len o = 0
    · exact .inl hlen
    · obtain ⟨i, hi⟩ := List.getElem?_of_mem ho
      obtain ⟨r, hr, -, hold, hlen'⟩ := owner_ranges hi hlive hlen
      rw [← hold, ← hlen']
      exact (copy_eq_some.mp hmoved).1 r hr
  · intro hinside
    refine ⟨_, copy_eq_some.mpr ⟨fun r hr => ?_, rfl⟩⟩
    obtain ⟨o, ho, hlive, -, hold, hlen⟩ := ranges_owner hr
    rw [hold, hlen]
    exact hinside o (List.mem_of_getElem? ho) hlive

theorem pairwise_mem {R : Remap → Remap → Prop} {rs : List Remap} (h : rs.Pairwise R) {r s : Remap} (hr : r ∈ rs)
    (hs : s ∈ rs)
    (hne : r ≠ s) : R r s ∨ R s r := by
  induction rs with
  | nil => simp at hr
  | cons t rs ih =>
      obtain ⟨hhead, htail⟩ := List.pairwise_cons.mp h
      rcases List.mem_cons.mp hr with rfl | hr'
      · rcases List.mem_cons.mp hs with rfl | hs'
        · exact absurd rfl hne
        · exact .inl (hhead s hs')
      · rcases List.mem_cons.mp hs with rfl | hs'
        · exact .inr (hhead r hr')
        · exact ih htail hr' hs'

theorem rewritten (ho : owners[i]? = some o) :
    (∃ r ∈ ranges f owners, r.cell = i ∧ r.oldOff = f.off o ∧ r.len = f.len o ∧
      (rewrite f (ranges f owners) owners)[i]? = some (f.setOff o r.newOff)) ∨
    (f.live o = true → f.len o = 0) ∧ (rewrite f (ranges f owners) owners)[i]? = some o := by
  by_cases howns : f.live o = true ∧ f.len o ≠ 0
  · obtain ⟨r, hr, rfl, hold, hlen⟩ := owner_ranges ho howns.1 howns.2
    refine .inl ⟨r, hr, rfl, hold, hlen, ?_⟩
    rw [rewrite_of_mem _ (ranges_cells owners) _ hr, ho, Option.map_some]
  · refine .inr ⟨fun hlive => by_contra fun hlen => howns ⟨hlive, hlen⟩, ?_⟩
    rw [rewrite_of_notMem, ho]
    intro hmem
    obtain ⟨r, hr, rfl⟩ := List.mem_map.mp hmem
    obtain ⟨o', ho', hlive, hlen, -⟩ := ranges_owner hr
    rw [ho] at ho'
    obtain rfl := Option.some.inj ho'
    exact howns ⟨hlive, hlen⟩

theorem compact_compacted {pool' : List α} {owners' : List O} (h : compact f pool owners = some (pool', owners')) :
    Compacted f pool owners pool' owners' := by
  simp only [compact, Option.map_eq_some_iff, Prod.mk.injEq] at h
  obtain ⟨moved, hmoved, rfl, rfl⟩ := h
  obtain ⟨hinside, hflat⟩ := copy_eq_some.mp hmoved
  have hplaced (r : Remap) (hr : r ∈ ranges f owners) :
      elems moved r.newOff r.len = elems pool r.oldOff r.len ∧ r.newOff + r.len ≤ moved.length := by
    have hcopied := copied_elems pool (sorted (collectFrom f 0 owners)) [] hinside r hr
    rw [hflat]
    exact hcopied
  constructor
  · exact length_rewrite _ _
  · intro i o ho
    rcases rewritten ho with ⟨r, -, -, -, -, hnew⟩ | ⟨-, hnew⟩
    · exact ⟨_, hnew, f.live_setOff .., fun _ => f.len_setOff ..⟩
    · exact ⟨o, hnew, rfl, fun _ => rfl⟩
  · intro i o o' ho ho' hlive
    rcases rewritten ho with ⟨r, hr, -, hold, hlen, hnew⟩ | ⟨hzero, hnew⟩
    · rw [ho'] at hnew
      obtain rfl := Option.some.inj hnew
      obtain ⟨helems, hle⟩ := hplaced r hr
      have hin := hinside r hr
      rw [hold, hlen] at hin
      rw [hold, hlen] at helems
      rw [hlen] at hle
      refine ⟨hin, ?_⟩
      rw [f.off_setOff, f.len_setOff, slice, slice, if_pos hin, if_pos (.inr hle), helems]
    · rw [ho'] at hnew
      obtain rfl := Option.some.inj hnew
      have hlen := hzero hlive
      refine ⟨.inl hlen, ?_⟩
      rw [slice, slice, if_pos (.inl hlen), if_pos (.inl hlen), hlen]
      simp [elems]
  · intro i j o o' hij ho ho' hlive hlive' hlen hlen'
    have hold (i : Nat) (o : O) (ho : (rewrite f (ranges f owners) owners)[i]? = some o) (hlive : f.live o = true)
        (hlen : f.len o ≠ 0) : ∃ r ∈ ranges f owners, r.cell = i ∧ f.off o = r.newOff ∧ f.len o = r.len := by
      have hlt : i < owners.length := by
        rw [← length_rewrite (f := f) (ranges f owners) owners]
        exact (List.getElem?_eq_some_iff.mp ho).1
      rcases rewritten (f := f) (List.getElem?_eq_getElem hlt) with ⟨r, hr, hcell, -, hlen', hnew⟩ | ⟨hzero, hnew⟩
      · rw [ho] at hnew
        obtain rfl := Option.some.inj hnew
        exact ⟨r, hr, hcell, f.off_setOff .., (f.len_setOff ..).trans hlen'.symm⟩
      · rw [ho] at hnew
        rw [← Option.some.inj hnew] at hzero
        exact absurd (hzero hlive) hlen
    obtain ⟨r, hr, hcell, hoff, hlenr⟩ := hold i o ho hlive hlen
    obtain ⟨s, hs, hcell', hoff', hlens⟩ := hold j o' ho' hlive' hlen'
    have hne : r ≠ s := by
      rintro rfl
      exact hij (hcell.symm.trans hcell')
    rw [hoff, hlenr, hoff', hlens]
    exact pairwise_mem (plan_pairwise _ _) hr hs hne
  · refine ⟨(ranges f owners).map (·.cell), ranges_cells owners, fun i => ?_, ?_⟩
    · constructor
      · intro hi
        obtain ⟨r, hr, rfl⟩ := List.mem_map.mp hi
        obtain ⟨o, ho, hlive, hlen, -⟩ := ranges_owner hr
        exact ⟨o, ho, hlive, hlen⟩
      · rintro ⟨o, ho, hlive, hlen⟩
        obtain ⟨r, hr, hcell, -⟩ := owner_ranges ho hlive hlen
        exact List.mem_map.mpr ⟨r, hr, hcell⟩
    · rw [hflat, List.flatMap_map]
      apply List.flatMap_congr
      intro r hr
      obtain ⟨o, ho, -, -, hold, hlen⟩ := ranges_owner hr
      rw [ho, hold, hlen]
      rfl

theorem copy_length {rs : List Remap} {moved : List α} (h : copy pool rs = some moved) :
    moved.length = (rs.map (·.len)).sum := by
  obtain ⟨hinside, rfl⟩ := copy_eq_some.mp h
  rw [List.length_flatMap]
  congr 1
  apply List.map_congr_left
  intro r hr
  exact length_elems (hinside r hr)

theorem Readable.copied (h : Readable f pool owners) :
    ∃ moved, copy pool (ranges f owners) = some moved ∧
      Compacted f pool owners moved (rewrite f (ranges f owners) owners) := by
  obtain ⟨⟨moved, owners'⟩, hcompact⟩ := Option.isSome_iff_exists.mp (compact_isSome.mpr h)
  have hcompacted := compact_compacted hcompact
  simp only [compact, Option.map_eq_some_iff, Prod.mk.injEq] at hcompact
  obtain ⟨_, hcopy, rfl, rfl⟩ := hcompact
  exact ⟨_, hcopy, hcompacted⟩

theorem Readable.of_length {β : Type} {pool' : List β} (h : Readable f pool owners)
    (hlen : pool'.length = pool.length) :
    Readable f pool' owners := by
  intro o ho hlive
  rcases h o ho hlive with hzero | hle
  · exact .inl hzero
  · exact .inr (hlen ▸ hle)

def seen (f : Owner O) (o : O) : Bool × Nat × Nat := (f.live o, f.off o, f.len o)

theorem seen_get {owners' owners'' : List O} (hseen : owners''.map (seen f) = owners'.map (seen f)) {o'' : O}
    (ho : owners''[i]? = some o'') :
    ∃ o', owners'[i]? = some o' ∧ f.live o'' = f.live o' ∧ f.off o'' = f.off o' ∧ f.len o'' = f.len o' := by
  have hget : (owners'.map (seen f))[i]? = some (seen f o'') := by
    rw [← hseen, List.getElem?_map, ho]
    rfl
  rw [List.getElem?_map, Option.map_eq_some_iff] at hget
  obtain ⟨o', ho', heq⟩ := hget
  simp only [seen, Prod.mk.injEq] at heq
  exact ⟨o', ho', heq.1.symm, heq.2.1.symm, heq.2.2.symm⟩

theorem Compacted.congr {pool' : List α} {owners' owners'' : List O} (h : Compacted f pool owners pool' owners')
    (hseen : owners''.map (seen f) = owners'.map (seen f)) : Compacted f pool owners pool' owners'' := by
  have hlength : owners''.length = owners'.length := by
    have hmap := congrArg List.length hseen
    rwa [List.length_map, List.length_map] at hmap
  constructor
  · rw [hlength]
    exact h.length
  · intro i o ho
    obtain ⟨o', ho', hlive, hlen⟩ := h.owner i o ho
    obtain ⟨o'', ho'', hlive', -, hlen'⟩ := seen_get hseen.symm ho'
    exact ⟨o'', ho'', hlive'.symm.trans hlive, fun hl => hlen'.symm.trans (hlen hl)⟩
  · intro i o o'' ho ho'' hlive
    obtain ⟨o', ho', -, hoff, hlen⟩ := seen_get hseen ho''
    rw [hoff, hlen]
    exact h.reads i o o' ho ho' hlive
  · intro i j o o' hij ho ho' hlive hlive' hlen hlen'
    obtain ⟨p, hp, hplive, hpoff, hplen⟩ := seen_get hseen ho
    obtain ⟨q, hq, hqlive, hqoff, hqlen⟩ := seen_get hseen ho'
    rw [hpoff, hplen, hqoff, hqlen]
    exact h.apart i j p q hij hp hq (hplive ▸ hlive) (hqlive ▸ hlive') (hplen ▸ hlen) (hqlen ▸ hlen')
  · exact h.exact

theorem modify_map {γ : Type} (g : O → γ) (k : O → O) (k' : γ → γ) (hk : ∀ o, g (k o) = k' (g o)) (i : Nat)
    (owners : List O) : (owners.modify i k).map g = (owners.map g).modify i k' := by
  apply List.ext_getElem?
  intro j
  simp only [List.getElem?_map, List.getElem?_modify]
  cases owners[j]? with
  | none => rfl
  | some o =>
      by_cases hij : i = j
      · simp [hij, hk]
      · simp [hij]

theorem rewrite_seen_other {f g : Owner O} (hother : ∀ o n, seen g (f.setOff o n) = seen g o) (rs : List Remap)
    (owners : List O) :
    (rewrite f rs owners).map (seen g) = owners.map (seen g) := by
  induction rs generalizing owners with
  | nil => rfl
  | cons r rs ih =>
      rw [rewrite, ih, modify_map _ _ id fun o => hother o _]
      simp

theorem rewrite_seen {owners owners' : List O} (rs : List Remap) (h : owners.map (seen f) = owners'.map (seen f)) :
    (rewrite f rs owners).map (seen f) = (rewrite f rs owners').map (seen f) := by
  induction rs generalizing owners owners' with
  | nil => exact h
  | cons r rs ih =>
      apply ih
      have hset (owners : List O) : (owners.modify r.cell fun o => f.setOff o r.newOff).map (seen f) =
          (owners.map (seen f)).modify r.cell fun s => (s.1, r.newOff, s.2.2) := by
        apply modify_map
        intro o
        simp [seen, f.live_setOff, f.off_setOff, f.len_setOff]
      rw [hset, hset, h]

theorem Inside.append {off len : Nat} (h : Inside pool off len) (more : List α) : Inside (pool ++ more) off len := by
  rcases h with hzero | hle
  · exact .inl hzero
  · refine .inr ?_
    rw [List.length_append]
    omega

theorem Readable.append (h : Readable f pool owners) (more : List α) : Readable f (pool ++ more) owners :=
  fun o ho hlive => (h o ho hlive).append more

theorem Readable.modify (h : Readable f pool owners) (i : Nat) (g : O → O)
    (hg : ∀ o, owners[i]? = some o → f.live (g o) = true → Inside pool (f.off (g o)) (f.len (g o))) :
    Readable f pool (owners.modify i g) := by
  intro o ho hlive
  obtain ⟨j, hj⟩ := List.getElem?_of_mem ho
  rw [List.getElem?_modify] at hj
  obtain ⟨o', ho', rfl⟩ := Option.map_eq_some_iff.mp hj
  by_cases hij : i = j
  · subst hij
    rw [if_pos rfl] at hlive ⊢
    exact hg o' ho' hlive
  · rw [if_neg hij] at hlive ⊢
    exact h o' (List.mem_of_getElem? ho') hlive

theorem Readable.concat (h : Readable f pool owners) (o : O) (ho : f.live o = false) :
    Readable f pool (owners ++ [o]) := by
  intro o' ho' hlive
  rcases List.mem_append.mp ho' with hmem | hmem
  · exact h o' hmem hlive
  · rw [List.mem_singleton.mp hmem, ho] at hlive
    simp at hlive

theorem Readable.left {owners' : List O} (h : Readable f pool (owners ++ owners')) : Readable f pool owners :=
  fun o ho => h o (List.mem_append_left _ ho)

theorem Readable.right {owners' : List O} (h : Readable f pool (owners ++ owners')) : Readable f pool owners' :=
  fun o ho => h o (List.mem_append_right _ ho)

theorem Readable.both {owners' : List O} (h : Readable f pool owners) (h' : Readable f pool owners') :
    Readable f pool (owners ++ owners') :=
  fun o ho => (List.mem_append.mp ho).elim (h o) (h' o)

theorem Compacted.readable {pool' : List α} {owners' : List O} (h : Compacted f pool owners pool' owners') :
    Readable f pool' owners' := by
  intro o' ho' hlive'
  obtain ⟨i, hi⟩ := List.getElem?_of_mem ho'
  have hlt : i < owners.length := by
    rw [← h.length]
    exact (List.getElem?_eq_some_iff.mp hi).1
  obtain ⟨o'', ho'', hlive, -⟩ := h.owner i _ (List.getElem?_eq_getElem hlt)
  rw [hi] at ho''
  obtain rfl := Option.some.inj ho''
  obtain ⟨hinside, hreads⟩ := h.reads i _ o' (List.getElem?_eq_getElem hlt) hi (hlive ▸ hlive')
  by_contra hout
  rw [slice, slice, if_neg hout, if_pos hinside] at hreads
  simp at hreads

end Compact

end Ore.RangeCopy
