import Mathlib.Data.Finset.Sort
import Ore.EffectRowSoundness

namespace Ore.EffectRowUnion

open BindingGraph EffectRows EffectRowReads EffectRowUnify EffectRowSoundness

variable {σ σ' : RowSubst}

section Merge

theorem mergeAt_eq (x : Nat) (xs ys : List Nat) (f : List Nat → List Nat)
    (hf : ∀ zs, f zs = xs.merge zs (· ≤ ·)) : mergeAt x f ys = (x :: xs).merge ys (· ≤ ·) := by
  induction ys with
  | nil => simp [mergeAt, hf]
  | cons y ys ih =>
      rw [mergeAt, List.cons_merge_cons]
      by_cases hxy : x ≤ y
      · simp [hxy, hf]
      · simp [hxy, ih]

theorem mergeLabels_eq (xs ys : List Nat) : mergeLabels xs ys = xs.merge ys (· ≤ ·) := by
  induction xs generalizing ys with
  | nil => simp [mergeLabels]
  | cons x xs ih => exact mergeAt_eq x xs ys _ ih

theorem coe_mergeLabels (xs ys : List Nat) :
    (mergeLabels xs ys : Multiset Nat) = (xs : Multiset Nat) + (ys : Multiset Nat) := by
  rw [mergeLabels_eq, Multiset.coe_add]
  exact Multiset.coe_eq_coe.mpr (List.merge_perm_append _)

theorem sorted_mergeLabels {xs ys : List Nat} (hx : xs.Pairwise (· ≤ ·)) (hy : ys.Pairwise (· ≤ ·)) :
    (mergeLabels xs ys).Pairwise (· ≤ ·) := by
  rw [mergeLabels_eq]
  have htrans : ∀ a b c : Nat, decide (a ≤ b) = true → decide (b ≤ c) = true → decide (a ≤ c) = true := by
    simp only [decide_eq_true_eq]
    omega
  have htotal : ∀ a b : Nat, (decide (a ≤ b) || decide (b ≤ a)) = true := by
    simp only [Bool.or_eq_true, decide_eq_true_eq]
    omega
  simpa using List.pairwise_merge htrans htotal xs ys (by simpa using hx) (by simpa using hy)

end Merge

section Union

/-- What a union does to two flat rows: it refuses and leaves the substitution,
or its row has the labels of both. -/
inductive United (σ : RowSubst) (a b : Row) : Row → RowSubst → Prop
  | refused : United σ a b .none σ
  | covers {r : Row} {σ' : RowSubst} (hext : Extends σ σ') (hr : WellFormed r)
      {A B R : Multiset Nat} {ea eb er : Option Nat} (ha : Flattens σ' a A ea)
      (hb : Flattens σ' b B eb) (hr' : Flattens σ' r R er) (hA : A ⊆ R) (hB : B ⊆ R) : United σ a b r σ'

theorem United.swap {a b r : Row} (h : United σ a b r σ') : United σ b a r σ' := by
  cases h with
  | refused => exact .refused
  | covers hext hr ha hb hr' hA hB => exact .covers hext hr hb ha hr' hB hA

theorem united_var {i : Nat} {b : Row} (hi : binding σ i = none) (hb : Flat σ b) (hne : Row.var i ≠ b)
    (depth : Nat) :
    ∃ res, rowUnify σ (depth + 1) (.var i) b = some res ∧
      United σ (.var i) b (if res.1 then b else .none) res.2 := by
  have ha : Flat σ (.var i) := ⟨.var i, fun j hj => by cases hj; exact hi⟩
  refine ⟨_, rowUnify_var_left hi hb hne depth, ?_⟩
  have hu := unified_var_left (i := i) hb
  have hshare : ¬ SharedTail (.var i) b := by rintro ⟨_, h, -⟩; cases h
  generalize bindChecked σ i b = res at hu
  obtain ⟨ok, σ'⟩ := res
  cases ok with
  | false =>
      have hsame := Unified.refused_same hu
      subst hsame
      exact .refused
  | true =>
      obtain ⟨A, ea, B, eb, hA, hB, hle, -⟩ := Unified.labels hu ha hb hshare
      exact .covers (Unified.extends hu ha hb hshare) hb.wellFormed hA hB hB (Multiset.subset_of_le hle)
        (Multiset.Subset.refl B)

theorem united_of_labels {a b r : Row} (ha : Flat σ a) (hb : Flat σ b) (hr : Flat σ r)
    (hl : (start r).1 = (start a).1 + (start b).1) : United σ a b r σ := by
  refine .covers .same hr.wellFormed ha.flattens hb.flattens hr.flattens ?_ ?_ <;>
  · intro x hx
    rw [hl, Multiset.mem_add]
    tauto

theorem united_of_tails {i j : Nat} {a b r : Row} (hi : binding σ i = none) (hj : binding σ j = none)
    (hij : i ≠ j) (ha : Flat σ a) (hb : Flat σ b) (hr : Flat σ r)
    (hl : (start r).1 = (start a).1 + (start b).1) : United σ a b r (substBind σ i (.var j)) := by
  have hv : Flat σ (.var j) := ⟨.var j, fun k hk => by cases hk; exact hj⟩
  have hne : (start (.var j)).2 ≠ some i := fun h => hij (Option.some.inj h).symm
  have hbind : ∀ {s}, Flat σ s → ∃ e, Flattens (substBind σ i (.var j)) s (start s).1 e := by
    intro s hs
    have h := Flattens.bind hi hv hne hs.flattens
    exact ⟨_, by simpa [start] using h⟩
  obtain ⟨_, ha'⟩ := hbind ha
  obtain ⟨_, hb'⟩ := hbind hb
  obtain ⟨_, hr'⟩ := hbind hr
  refine .covers (.bind hi hv hne) hr.wellFormed ha' hb' hr' ?_ ?_ <;>
  · intro x hx
    rw [hl, Multiset.mem_add]
    tauto

theorem rowUnion_rows {a b : Row} (ha : Flat σ a) (hb : Flat σ b) (har : a.isRow = true)
    (hbr : b.isRow = true) (depth : Nat) :
    ∃ res, (if a.tail = .empty then some (rowIntern (mergeLabels a.labels b.labels) b.tail, σ)
      else if b.tail = .empty then some (rowIntern (mergeLabels a.labels b.labels) a.tail, σ)
      else (rowUnify σ (depth + 1) a.tail b.tail).map fun r =>
        if r.1 then (rowIntern (mergeLabels a.labels b.labels) (rowResolve r.2 a.tail), r.2)
        else (.none, r.2)) = some res ∧ United σ a b res.1 res.2 := by
  have hsa := start_of_isRow har
  have hsb := start_of_isRow hbr
  have hl : ∀ {c : Row}, WellFormed c → (start (rowIntern (mergeLabels a.labels b.labels) c.tail)).1 =
      (start a).1 + (start b).1 := by
    intro c hc
    rw [start_rowIntern _ hc.isTail, hsa, hsb, coe_mergeLabels]
  rcases ha.wellFormed.isTail with hat | ⟨i, hat⟩
  · rw [if_pos hat]
    exact ⟨_, rfl, united_of_labels ha hb (hb.intern hbr _) (hl hb.wellFormed)⟩
  · rcases hb.wellFormed.isTail with hbt | ⟨j, hbt⟩
    · rw [if_neg (by simp [hat]), if_pos hbt]
      exact ⟨_, rfl, united_of_labels ha hb (ha.intern har _) (hl ha.wellFormed)⟩
    · have hi := ha.free i (start_of_tail_var hat)
      have hj := hb.free j (start_of_tail_var hbt)
      rw [if_neg (by simp [hat]), if_neg (by simp [hbt])]
      by_cases hij : i = j
      · have hself : rowUnify σ (depth + 1) a.tail b.tail = some (true, σ) := by
          rw [hat, hbt, hij, rowUnify]
          simp
        rw [hself]
        refine ⟨_, rfl, ?_⟩
        simp only [if_true]
        rw [ha.tail har]
        exact united_of_labels ha hb (ha.intern har _) (hl ha.wellFormed)
      · have hv : Flat σ (.var j) := ⟨.var j, fun k hk => by cases hk; exact hj⟩
        have hbound : rowUnify σ (depth + 1) a.tail b.tail = some (true, substBind σ i (.var j)) := by
          rw [hat, hbt, rowUnify_var_left hi hv (by simp [hij]), bindChecked_flat hv,
            if_neg (by simpa [start] using Ne.symm hij)]
        have hres : rowResolve (substBind σ i (.var j)) a.tail = b.tail := by
          have hji : j ≠ i := Ne.symm hij
          simp [hat, hbt, rowResolve, chase, binding_substBind, hji, hj]
        rw [hbound]
        refine ⟨_, rfl, ?_⟩
        simp only [if_true]
        rw [hres]
        exact united_of_tails hi hj hij ha hb (hb.intern hbr _) (hl hb.wellFormed)

theorem rowUnion_spec (hσ : WellBound σ) {a b : Row} (ha : WellFormed a) (hb : WellFormed b)
    (hra : readInFull σ a = true) (hrb : readInFull σ b = true) (depth : Nat) :
    ∃ r σ', rowUnion (depth + 1) σ a b = some (r, σ') ∧
      United σ (rowFlatten σ a) (rowFlatten σ b) r σ' := by
  obtain ⟨hfa, -⟩ := rowFlatten_spec hσ ha hra
  obtain ⟨hfb, -⟩ := rowFlatten_spec hσ hb hrb
  have hne : ¬ (a = .none ∨ b = .none) := by
    rintro (h | h)
    · exact ha.ne_none h
    · exact hb.ne_none h
  rw [rowUnion, if_neg hne]
  generalize rowFlatten σ a = a' at *
  generalize rowFlatten σ b = b' at *
  have hsplit : ∀ {p : Row × RowSubst}, United σ a' b' p.1 p.2 →
      ∃ r σ', some p = some (r, σ') ∧ United σ a' b' r σ' := fun h => ⟨_, _, rfl, h⟩
  have herr : ¬ (a' = .error ∨ b' = .error) := by
    rintro (rfl | rfl)
    · cases hfa.wellFormed
    · cases hfb.wellFormed
  dsimp only
  rw [if_neg herr]
  by_cases heq : a' = b'
  · subst heq
    rw [if_pos rfl]
    exact hsplit (.covers .same hfa.wellFormed hfa.flattens hfa.flattens hfa.flattens
      (Multiset.Subset.refl _) (Multiset.Subset.refl _))
  · rw [if_neg heq]
    by_cases hae : a' = .empty
    · rw [if_pos hae]
      exact hsplit (united_of_labels hfa hfb hfb (by simp [hae, start]))
    · rw [if_neg hae]
      by_cases hbe : b' = .empty
      · rw [if_pos hbe]
        exact hsplit (united_of_labels hfa hfb hfa (by simp [hbe, start]))
      · rw [if_neg hbe]
        rcases hfa.wellFormed.isTail_or_isRow with ⟨i, rfl⟩ | har
        · obtain ⟨res, hu, h⟩ := united_var (hfa.free i rfl) hfb heq depth
          simp only [Row.varId, hu, Option.map_some]
          exact hsplit h
        · have hav : a'.varId = none := by cases a' <;> simp_all [Row.isRow, Row.varId]
          rcases hfb.wellFormed.isTail_or_isRow with ⟨j, rfl⟩ | hbr
          · obtain ⟨res, hu, h⟩ := united_var (hfb.free j rfl) hfa (Ne.symm heq) depth
            have hbv : (Row.var j).varId = some j := rfl
            simp only [hav, hbv, hu, Option.map_some]
            exact hsplit h.swap
          · have hbv : b'.varId = none := by cases b' <;> simp_all [Row.isRow, Row.varId]
            obtain ⟨res, hu, h⟩ := rowUnion_rows hfa hfb har hbr depth
            simp only [hav, hbv, har, hbr, Bool.and_self, if_true, hfa.tail har, hfb.tail hbr]
            rw [hu]
            exact hsplit h

theorem rowUnion_unique {a b : Row} {d d' : Nat} {res res' : Row × RowSubst}
    (h : rowUnion d σ a b = some res) (h' : rowUnion d' σ a b = some res') : res = res' := by
  have hmap : ∀ {x y : Row} {g : Bool × RowSubst → Row × RowSubst},
      (rowUnify σ d x y).map g = some res → (rowUnify σ d' x y).map g = some res' → res = res' := by
    intro x y g hg hg'
    obtain ⟨r, hr, rfl⟩ := Option.map_eq_some_iff.mp hg
    obtain ⟨r', hr', rfl⟩ := Option.map_eq_some_iff.mp hg'
    rw [rowUnify_unique hr hr']
  unfold rowUnion at h h'
  dsimp only at h h'
  by_cases hn : a = .none ∨ b = .none
  · rw [if_pos hn] at h h'
    exact Option.some.inj (h.symm.trans h')
  · rw [if_neg hn] at h h'
    cases hav : (rowFlatten σ a).varId <;> cases hbv : (rowFlatten σ b).varId <;>
      simp only [hav, hbv] at h h' <;> split_ifs at h h' <;>
      first
      | exact Option.some.inj (h.symm.trans h')
      | exact hmap h h'

end Union

section Closed

def closed (ls : List Nat) : Row := rowIntern ls .empty

theorem flat_closed (σ : RowSubst) (ls : List Nat) : Flat σ (closed ls) := by
  have hw : WellFormed (closed ls) := wellFormed_rowIntern ls (.inl rfl)
  refine ⟨hw, fun i hi => ?_⟩
  rw [closed, start_rowIntern ls (.inl rfl)] at hi
  cases hi

@[simp] theorem rowFlatten_closed (σ : RowSubst) (ls : List Nat) : rowFlatten σ (closed ls) = closed ls :=
  (flat_closed σ ls).rowFlatten

@[simp] theorem labels_closed (ls : List Nat) : (closed ls).labels = ls :=
  (labels_rowIntern (r := .empty) .empty ls).1

@[simp] theorem tail_closed (ls : List Nat) : (closed ls).tail = .empty :=
  (labels_rowIntern (r := .empty) .empty ls).2

@[simp] theorem isRow_closed (ls : List Nat) : (closed ls).isRow = true :=
  isRow_rowIntern (r := .empty) .empty ls

theorem closed_injective {xs ys : List Nat} (h : closed xs = closed ys) : xs = ys := by
  have hl := congrArg Row.labels h
  simpa using hl

theorem closed_eq_empty {ls : List Nat} : closed ls = .empty ↔ ls = [] := by
  constructor
  · intro h
    exact closed_injective h
  · rintro rfl
    rfl

theorem closed_leaf (ls : List Nat) : closed ls ≠ .none ∧ closed ls ≠ .error ∧ (closed ls).varId = none := by
  by_cases hl : ls = [] <;> simp [closed, rowIntern, hl, Row.varId]

/-- One more closed row in a union: nothing when it is the union so far. -/
def absorb (acc ls : List Nat) : List Nat := if acc = ls then acc else mergeLabels acc ls

theorem mergeLabels_nil (xs : List Nat) : mergeLabels xs [] = xs := by
  induction xs with
  | nil => rfl
  | cons x xs ih => simp [mergeLabels, mergeAt, ih]

theorem rowUnion_closed (depth : Nat) (σ : RowSubst) (xs ys : List Nat) :
    rowUnion depth σ (closed xs) (closed ys) = some (closed (absorb xs ys), σ) := by
  obtain ⟨hxn, hxe, hxv⟩ := closed_leaf xs
  obtain ⟨hyn, hye, hyv⟩ := closed_leaf ys
  have hres : rowResolve σ .empty = .empty := rfl
  simp only [rowUnion, rowFlatten_closed, hxn, hyn, hxe, hye, hxv, hyv, or_self, if_false, isRow_closed,
    Bool.and_self, if_true, labels_closed, tail_closed, hres]
  by_cases heq : xs = ys
  · simp [heq, absorb]
  · have hne : closed xs ≠ closed ys := fun h => heq (closed_injective h)
    rw [if_neg hne]
    by_cases hx : xs = []
    · subst hx
      rw [if_pos (closed_eq_empty.mpr rfl), absorb, if_neg heq, mergeLabels]
    · rw [if_neg (mt closed_eq_empty.mp hx)]
      by_cases hy : ys = []
      · subst hy
        rw [if_pos (closed_eq_empty.mpr rfl), absorb, if_neg heq, mergeLabels_nil]
      · rw [if_neg (mt closed_eq_empty.mp hy), absorb, if_neg heq, closed]

/-- The rows of a sequence of calls folded into one, from left to right. -/
def unionAll (depth : Nat) : RowSubst → Row → List Row → Option (Row × RowSubst)
  | σ, acc, [] => some (acc, σ)
  | σ, acc, r :: rs => match rowUnion depth σ acc r with
    | none => none
    | some (merged, σ') => unionAll depth σ' merged rs

theorem unionAll_closed (depth : Nat) (σ : RowSubst) (acc : List Nat) (rows : List (List Nat)) :
    unionAll depth σ (closed acc) (rows.map closed) = some (closed (rows.foldl absorb acc), σ) := by
  induction rows generalizing acc with
  | nil => rfl
  | cons ls rows ih => simp [unionAll, rowUnion_closed, ih]

theorem sorted_absorb {acc ls : List Nat} (ha : acc.Pairwise (· ≤ ·)) (hl : ls.Pairwise (· ≤ ·)) :
    (absorb acc ls).Pairwise (· ≤ ·) := by
  unfold absorb
  split_ifs
  · exact ha
  · exact sorted_mergeLabels ha hl

theorem mem_absorb {acc ls : List Nat} {x : Nat} : x ∈ absorb acc ls ↔ x ∈ acc ∨ x ∈ ls := by
  unfold absorb
  split_ifs with h
  · simp [h]
  · rw [← Multiset.mem_coe, coe_mergeLabels, Multiset.mem_add, Multiset.mem_coe, Multiset.mem_coe]

theorem sorted_foldl_absorb {acc : List Nat} {rows : List (List Nat)} (ha : acc.Pairwise (· ≤ ·))
    (hr : ∀ ls ∈ rows, ls.Pairwise (· ≤ ·)) : (rows.foldl absorb acc).Pairwise (· ≤ ·) := by
  induction rows generalizing acc with
  | nil => exact ha
  | cons ls rows ih =>
      exact ih (sorted_absorb ha (hr ls (by simp))) fun l hl => hr l (by simp [hl])

theorem mem_foldl_absorb {acc : List Nat} {rows : List (List Nat)} {x : Nat} :
    x ∈ rows.foldl absorb acc ↔ x ∈ acc ∨ x ∈ rows.flatten := by
  induction rows generalizing acc with
  | nil => simp
  | cons ls rows ih => simp [ih, mem_absorb, or_assoc]

/-- Sorted labels without repetitions are the sorted list of their set. -/
theorem uniq_eq_sort {ls : List Nat} (h : ls.Pairwise (· ≤ ·)) : uniq ls = ls.toFinset.sort (· ≤ ·) := by
  have hset : ls.toFinset = ls.dedup.toFinset := by ext; simp
  rw [uniq, h.destutter_eq_dedup, hset]
  exact ((List.toFinset_sort (· ≤ ·) (List.nodup_dedup ls)).mpr (h.sublist (List.dedup_sublist ls))).symm

theorem rowDedup_closed (σ : RowSubst) (ls : List Nat) : rowDedup σ (closed ls) = closed (uniq ls) := by
  simp only [rowDedup, rowFlatten_closed, isRow_closed, labels_closed, tail_closed, Bool.true_and]
  split_ifs with h
  · rfl
  · have hl : (uniq ls).length = ls.length := by simpa using h
    have hsame : uniq ls = ls := (List.destutter_sublist (· ≠ ·) ls).eq_of_length hl
    rw [hsame]

end Closed

section Bounds

/-- The labels of both operands, flattened after the union, are labels of its
row, unless it refuses. -/
def UnionCovers (σ : RowSubst) (a b : Row) : Prop :=
  ∃ r σ', (∃ depth, rowUnion depth σ a b = some (r, σ')) ∧
    (r ≠ .none → r ≠ .error → ∃ A ea B eb R er, Flattens σ' a A ea ∧ Flattens σ' b B eb ∧
      Flattens σ' r R er ∧ A ⊆ R ∧ B ⊆ R)

/-- A union of rows read in full covers both; the set form of a fold over
closed rows is the sorted list of their labels, in any order of the rows. -/
theorem union_canonical {σ : RowSubst} {a b : Row} {rows : List (List Nat)} (hσ : WellBound σ)
    (ha : WellFormed a) (hb : WellFormed b) (hra : readInFull σ a = true) (hrb : readInFull σ b = true)
    (hrows : ∀ ls ∈ rows, ls.Pairwise (· ≤ ·)) (depth : Nat) :
    UnionCovers σ a b ∧
      ∃ r, unionAll depth σ .empty (rows.map closed) = some (r, σ) ∧
        rowDedup σ r = closed (rows.flatten.toFinset.sort (· ≤ ·)) ∧
        rowDedup σ (rowDedup σ r) = rowDedup σ r ∧
        ∀ rows' : List (List Nat), rows'.Perm rows →
          (unionAll depth σ .empty (rows'.map closed)).map (fun p => rowDedup p.2 p.1) =
            some (rowDedup σ r) := by
  have hset : ∀ rows' : List (List Nat), (∀ ls ∈ rows', ls.Pairwise (· ≤ ·)) →
      uniq (rows'.foldl absorb []) = rows'.flatten.toFinset.sort (· ≤ ·) := by
    intro rows' hr
    rw [uniq_eq_sort (sorted_foldl_absorb .nil hr)]
    congr 1
    ext x
    simp [mem_foldl_absorb]
  refine ⟨?_, _, unionAll_closed depth σ [] rows, ?_, ?_, ?_⟩
  · obtain ⟨hfa, hreada⟩ := rowFlatten_spec hσ ha hra
    obtain ⟨hfb, hreadb⟩ := rowFlatten_spec hσ hb hrb
    obtain ⟨r, σ', hu, h⟩ := rowUnion_spec hσ ha hb hra hrb 0
    refine ⟨r, σ', ⟨_, hu⟩, fun hn _ => ?_⟩
    cases h with
    | refused => exact absurd rfl hn
    | covers hext hr hA hB hR hle hle' =>
        exact ⟨_, _, _, _, _, _, same_reading hext hreada hfa.flattens hA,
          same_reading hext hreadb hfb.flattens hB, hR, hle, hle'⟩
  · rw [rowDedup_closed, hset rows hrows]
  · rw [rowDedup_closed, rowDedup_closed, uniq, uniq, List.destutter_idem]
  · intro rows' hp
    have hrows' : ∀ ls ∈ rows', ls.Pairwise (· ≤ ·) := fun ls hl => hrows ls (hp.mem_iff.mp hl)
    have hflat : rows'.flatten.toFinset = rows.flatten.toFinset := by
      ext x
      simp [hp.mem_iff]
    have hempty : Row.empty = closed [] := rfl
    rw [hempty, unionAll_closed, Option.map_some, rowDedup_closed, rowDedup_closed, hset rows' hrows',
      hset rows hrows, hflat]

theorem union_canonical_calls : UnionCovers none (.row [1] (.var 1)) (.row [2] .empty) ∧
    ∃ r, unionAll 0 none .empty ([[1], [1, 2]].map closed) = some (r, none) ∧
      rowDedup none r = closed ([[1], [1, 2]].flatten.toFinset.sort (· ≤ ·)) ∧
      rowDedup none (rowDedup none r) = rowDedup none r ∧
      ∀ rows' : List (List Nat), rows'.Perm [[1], [1, 2]] →
        (unionAll 0 none .empty (rows'.map closed)).map (fun p => rowDedup p.2 p.1) =
          some (rowDedup none r) :=
  union_canonical wellBound_none (.openTail [1] 1) (.closed (by simp)) (by decide) (by decide) (by simp) 0

/-- Variables each bound to a row with one label and the next variable. -/
def longChain : RowSubst := some ((List.range 65).map fun i => (i + 1, .row [i] (.var (i + 2))))

theorem binding_longChain : ∀ i < 65, binding longChain (i + 1) = some (.row [i] (.var (i + 2))) := by
  decide +kernel

theorem longChain_reaches : ∀ i < 65, Relation.ReflTransGen (Follows (bound longChain)) 1 (i + 1) := by
  intro i hi
  induction i with
  | zero => exact .refl
  | succ i ih =>
      refine .tail (ih (by omega)) ⟨[i], ?_⟩
      simp [bound, binding_longChain i (by omega), start, Row.varId]

/-- 65 rows on one chain: the flattened row stops at the 64th, and the last label is lost. -/
theorem union_loses_label : Acyclic (Follows (bound longChain)) ∧ ¬ UnionCovers longChain (.var 1) .empty := by
  constructor
  · refine acyclic_of_increasing (f := fun x => x) ?_
    rintro x y ⟨w, hw⟩
    by_cases hx : 1 ≤ x ∧ x ≤ 65
    · have hb := binding_longChain (x - 1) (by omega)
      rw [Nat.sub_add_cancel hx.1] at hb
      simp only [bound, hb, Option.map_some, start, Row.varId, Option.some.injEq, Prod.mk.injEq] at hw
      omega
    · have hnone : binding longChain x = none := by
        have hlook : (longChain.getD []).lookup x = none := by
          rw [List.lookup_eq_none_iff]
          simp only [longChain, Option.getD_some, List.mem_map, List.mem_range]
          rintro p ⟨i, hi, rfl⟩
          have hne : x ≠ i + 1 := by omega
          simpa using hne
        simp [binding, hlook]
      simp [bound, hnone] at hw
  · rintro ⟨r, σ', ⟨d, hu⟩, h⟩
    have hrun : rowUnion d longChain (.var 1) .empty = some (closed (List.range 64), longChain) := by
      have hflat : rowFlatten longChain (.var 1) = closed (List.range 64) := by decide +kernel
      have hempty : rowFlatten longChain .empty = .empty := rowFlatten_closed longChain []
      simp [rowUnion, hflat, hempty, closed, rowIntern]
    rw [hrun] at hu
    obtain ⟨rfl, rfl⟩ := Prod.mk.inj (Option.some.inj hu)
    obtain ⟨A, ea, B, eb, R, er, ⟨w, hw, rfl⟩, -, hR, hle, -⟩ :=
      h (closed_leaf _).1 (closed_leaf _).2.1
    have hmem : 64 ∈ w := by
      obtain ⟨w', hle', hw'⟩ := hw.suffix (longChain_reaches 64 (by omega))
      refine Multiset.mem_of_le hle' ?_
      have hb : bound longChain (64 + 1) = some (({64} : Multiset Nat), some 66) := by
        simp [bound, binding_longChain 64 (by omega), start, Row.varId]
      cases hw' with
      | free hn => simp [hb] at hn
      | step hs _ =>
          obtain ⟨hl, -⟩ := Prod.mk.inj (Option.some.inj (hb.symm.trans hs))
          simp [← hl]
    have hR' := (hR.unique (flat_closed longChain (List.range 64)).flattens).1
    have hlost := hle (Multiset.mem_add.mpr (.inr hmem))
    rw [hR', closed, start_rowIntern _ (.inl rfl)] at hlost
    simp at hlost

end Bounds

end Ore.EffectRowUnion
