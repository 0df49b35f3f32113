import Ore.EffectRowReads

namespace Ore.EffectRowUnify

open BindingGraph EffectRows EffectRowReads

variable {σ : RowSubst}

section Binding

theorem binding_substBind {i : Nat} {r : Row} (hr : r ≠ .none) (j : Nat) :
    binding (substBind σ i r) j = if j = i then some r else binding σ j := by
  by_cases hj : j = i
  · subst hj
    cases r <;> simp_all [binding, substBind]
  · have hji : (j == i) = false := by simpa using hj
    simp [binding, substBind, List.lookup_cons, hji, hj]

theorem bound_substBind {i : Nat} {r : Row} (hr : r ≠ .none) :
    bound (substBind σ i r) = Function.update (bound σ) i (some (start r)) := by
  funext j
  by_cases hj : j = i
  · subst hj; simp [bound, binding_substBind hr]
  · simp [bound, binding_substBind hr, hj]

/-- What one call may do to the substitution: nothing, or bind a free variable
to a flat row that does not end in it. -/
inductive Extends (σ : RowSubst) : RowSubst → Prop
  | same : Extends σ σ
  | bind {i : Nat} {r : Row} (hfree : binding σ i = none) (hr : Flat σ r)
      (hne : (start r).2 ≠ some i) : Extends σ (substBind σ i r)

theorem Extends.wellBound {σ' : RowSubst} (h : Extends σ σ') (hσ : WellBound σ) : WellBound σ' := by
  cases h with
  | same => exact hσ
  | bind hfree hr hne =>
      refine ⟨fun j r' hj => ?_⟩
      rw [binding_substBind (hr.wellFormed.ne_none)] at hj
      split_ifs at hj
      · cases hj; exact hr.wellFormed
      · exact hσ.wellFormed j r' hj

theorem Extends.keeps {σ' : RowSubst} (h : Extends σ σ') {j : Nat} {r' : Row}
    (hj : binding σ j = some r') : binding σ' j = some r' := by
  cases h with
  | same => exact hj
  | @bind i r hfree hr hne =>
      have hji : j ≠ i := by rintro rfl; simp [hfree] at hj
      rw [binding_substBind (hr.wellFormed.ne_none), if_neg hji, hj]

theorem Flattens.bind {i : Nat} {r : Row} (hfree : binding σ i = none) (hr : Flat σ r)
    (hne : (start r).2 ≠ some i) {s : Row} {u : Multiset Nat} {e : Option Nat}
    (h : Flattens σ s u e) :
    Flattens (substBind σ i r) s (if e = some i then u + (start r).1 else u)
      (if e = some i then (start r).2 else e) := by
  obtain ⟨w, hw, rfl⟩ := h
  obtain ⟨w', hw', hl⟩ := hr.flattens
  have hb : bound σ i = none := by simp [bound, hfree]
  have h' := Reads.rebind (w := (start r).1) hb hw' hne hw
  rw [← hl, ← bound_substBind hr.wellFormed.ne_none] at h'
  refine ⟨_, h', ?_⟩
  split_ifs
  · rw [add_assoc]
  · rfl

theorem Extends.acyclic {σ' : RowSubst} (h : Extends σ σ') (hσ : Acyclic (Follows (bound σ))) :
    Acyclic (Follows (bound σ')) := by
  cases h with
  | same => exact hσ
  | @bind i r hfree hr hne =>
      have hgraph : Follows (bound (substBind σ i r)) =
          Rebound (Follows (bound σ)) i (fun y => (start r).2 = some y) := by
        funext x y
        rw [bound_substBind hr.wellFormed.ne_none]
        by_cases hx : x = i
        · subst hx
          simp [Follows, Rebound, Prod.ext_iff]
        · simp [Follows, Rebound, hx]
      rw [hgraph]
      refine hσ.rebind fun y hy hreach => ?_
      rcases Relation.ReflTransGen.cases_head hreach with rfl | ⟨z, ⟨w, hz⟩, -⟩
      · exact hne hy
      · simp [bound, hr.free y hy] at hz

end Binding

section Pieces

theorem unmatched_spec (xs ys : List Nat) :
    ∃ p, xs = p ++ (unmatched xs ys).1 ∧ ys = p ++ (unmatched xs ys).2 := by
  induction xs, ys using unmatched.induct with
  | case1 xs y ys ih =>
      obtain ⟨p, hx, hy⟩ := ih
      refine ⟨y :: p, ?_, ?_⟩
      · simpa [unmatched] using hx
      · simpa [unmatched] using hy
  | case2 x xs y ys hne => exact ⟨[], by simp [unmatched, hne], by simp [unmatched, hne]⟩
  | case3 xs ys hnot => exact ⟨[], by unfold unmatched; simp, by unfold unmatched; simp⟩

theorem unmatched_left_nil {xs ys : List Nat} : (unmatched xs ys).1 = [] ↔ xs <+: ys := by
  induction xs, ys using unmatched.induct with
  | case1 xs y ys ih => simpa [unmatched] using ih
  | case2 x xs y ys hne => simp [unmatched, hne]
  | case3 xs ys hnot =>
      cases xs with
      | nil => cases ys <;> simp [unmatched]
      | cons x xs =>
          cases ys with
          | nil => simp [unmatched]
          | cons y ys => exact (hnot x xs y ys rfl rfl).elim

theorem unmatched_right_nil {xs ys : List Nat} : (unmatched xs ys).2 = [] ↔ ys <+: xs := by
  induction xs, ys using unmatched.induct with
  | case1 xs y ys ih => simpa [unmatched] using ih
  | case2 x xs y ys hne => simp [unmatched, hne, Ne.symm hne]
  | case3 xs ys hnot =>
      cases ys with
      | nil => cases xs <;> simp [unmatched]
      | cons y ys =>
          cases xs with
          | nil => simp [unmatched]
          | cons x xs => exact (hnot x xs y ys rfl rfl).elim

theorem occursInRow_flat {r : Row} (h : Flat σ r) (id hops : Nat) :
    occursInRow σ id (hops + 2) r = decide ((start r).2 = some id) := by
  have hvar : ∀ j n, binding σ j = none → occursInRow σ id (n + 1) (.var j) = decide (j = id) := by
    intro j n hj
    by_cases hji : j = id <;> simp [occursInRow, hji, hj]
  rcases h.wellFormed.isTail_or_isRow with ⟨j, rfl⟩ | hrow
  · rw [hvar j _ (h.free j rfl)]
    simp [start]
  · have htail := h.tail hrow
    cases h.wellFormed with
    | var j => cases hrow
    | empty => simp [occursInRow, start]
    | closed hl =>
        simp only [Row.tail] at htail
        simp [occursInRow, htail, start, Row.varId]
    | openTail ls j =>
        simp only [Row.tail] at htail
        rw [occursInRow, htail, if_neg (by simp), hvar j _ (h.free j rfl)]
        simp [start, Row.varId]

theorem bindChecked_flat {r : Row} (h : Flat σ r) (i : Nat) :
    bindChecked σ i r = if (start r).2 = some i then (false, σ) else (true, substBind σ i r) := by
  simp [bindChecked, occursInRow_flat h i 254]

theorem rowWithout_flat {r : Row} (h : Flat σ r) (hr : r.isRow = true) (label : Nat) :
    rowWithout σ r label = rowIntern (r.labels.erase label) r.tail := by
  have hne : r ≠ .none := by rintro rfl; cases hr
  by_cases hm : label ∈ r.labels
  · simp [rowWithout, hne, h.rowFlatten, hr, hm]
  · simp [rowWithout, hne, h.rowFlatten, hr, hm, List.erase_of_not_mem,
      rowIntern_of_isRow h.wellFormed hr]

theorem foldl_rowWithout {r : Row} (h : Flat σ r) (hr : r.isRow = true) (ls : List Nat) :
    ls.foldl (rowWithout σ) r = rowIntern (r.labels.diff ls) r.tail := by
  induction ls generalizing r with
  | nil => simp [rowIntern_of_isRow h.wellFormed hr]
  | cons l ls ih =>
      have hlt := labels_rowIntern h.wellFormed (r.labels.erase l)
      rw [List.foldl_cons, rowWithout_flat h hr,
        ih (h.intern hr _) (isRow_rowIntern h.wellFormed _), hlt.1, hlt.2, List.diff_cons]

end Pieces

section Unify

/-- Two rows with the same open tail, one with more labels behind those of the
other. -/
def SharedTail (a b : Row) : Prop :=
  ∃ i, a.tail = .var i ∧ b.tail = .var i ∧ a.labels ≠ b.labels ∧
    (a.labels <+: b.labels ∨ b.labels <+: a.labels)

/-- The subtractive branch: an open expected row with labels left over that no
earlier branch takes. -/
def Subtractive (a b : Row) : Prop :=
  (∃ j, b.tail = .var j) ∧ a.isRow = true ∧ ¬ b.labels <+: a.labels ∧
    (a.labels <+: b.labels → a.tail = .empty)

inductive Unified (σ : RowSubst) (a b : Row) : Bool → RowSubst → Prop
  | equal (h : a = b) : Unified σ a b true σ
  | refused (h : ¬ SharedTail a b) : Unified σ a b false σ
  | left {i : Nat} {r : Row} (ha : (start a).2 = some i) (hb : (start b).2 ≠ some i) (hr : Flat σ r)
      (htail : (start r).2 = (start b).2) (hlabels : (start a).1 + (start r).1 = (start b).1) :
      Unified σ a b true (substBind σ i r)
  | right {i : Nat} {r : Row} (hb : (start b).2 = some i) (ha : (start a).2 ≠ some i) (hr : Flat σ r)
      (htail : (start r).2 = (start a).2) (hlabels : (start b).1 + (start r).1 = (start a).1) :
      Unified σ a b true (substBind σ i r)
  | subtract {i : Nat} {r : Row} (h : Subtractive a b) (hb : (start b).2 = some i)
      (ha : (start a).2 ≠ some i) (hr : Flat σ r) (htail : (start r).2 = (start a).2)
      (hlabels : (start a).1 ≤ (start b).1 + (start r).1) : Unified σ a b true (substBind σ i r)
  | cycle {i : Nat} {r : Row} (h : SharedTail a b) (ha : (start a).2 = some i)
      (hr : WellFormed r) (htail : (start r).2 = some i) : Unified σ a b true (substBind σ i r)

theorem rowUnify_var_left {i : Nat} (hi : binding σ i = none) {b : Row} (hb : Flat σ b)
    (hne : Row.var i ≠ b) (depth : Nat) :
    rowUnify σ (depth + 1) (.var i) b = some (bindChecked σ i b) := by
  have ha : Flat σ (.var i) := ⟨.var i, fun j hj => by cases hj; exact hi⟩
  simp [rowUnify, ha.rowFlatten, hb.rowFlatten, hne, Row.varId]

theorem rowUnify_var_right {j : Nat} (hj : binding σ j = none) {a : Row} (ha : Flat σ a)
    (hv : a.varId = none) (depth : Nat) :
    rowUnify σ (depth + 1) a (.var j) = some (bindChecked σ j a) := by
  have hb : Flat σ (.var j) := ⟨.var j, fun k hk => by cases hk; exact hj⟩
  have hne : a ≠ .var j := by rintro rfl; cases hv
  simp only [rowUnify, ha.rowFlatten, hb.rowFlatten, hne, if_false, hv]
  rfl

theorem unified_var_left {i : Nat} {b : Row} (hb : Flat σ b) :
    Unified σ (.var i) b (bindChecked σ i b).1 (bindChecked σ i b).2 := by
  rw [bindChecked_flat hb]
  split_ifs with h
  · exact .refused (by rintro ⟨_, ht, -⟩; cases ht)
  · exact .left rfl h hb rfl (by simp [start])

theorem unified_var_right {j : Nat} {a : Row} (ha : Flat σ a) :
    Unified σ a (.var j) (bindChecked σ j a).1 (bindChecked σ j a).2 := by
  rw [bindChecked_flat ha]
  split_ifs with h
  · exact .refused (by rintro ⟨_, -, ht, -⟩; cases ht)
  · exact .right rfl h ha rfl (by simp [start])

theorem Unified.of_tails {a b : Row} (ha : Flat σ a) (hb : Flat σ b) (har : a.isRow = true)
    (hbr : b.isRow = true) (hl : a.labels = b.labels) (hne : a ≠ b) (depth : Nat) :
    ∃ ok σ', rowUnify σ (depth + 1) a.tail b.tail = some (ok, σ') ∧ Unified σ a b ok σ' := by
  have hsa := start_of_isRow har
  have hsb := start_of_isRow hbr
  have hlift : ∀ {i r}, (a.tail.varId = some i → b.tail.varId ≠ some i → Flat σ r →
      start r = (0, b.tail.varId) → Unified σ a b true (substBind σ i r)) ∧
      (b.tail.varId = some i → a.tail.varId ≠ some i → Flat σ r →
      start r = (0, a.tail.varId) → Unified σ a b true (substBind σ i r)) := by
    intro i r
    constructor
    · intro h₁ h₂ hr hs
      exact .left (by simpa [hsa] using h₁) (by simpa [hsb] using h₂) hr (by simp [hs, hsb])
        (by simp [hs, hsa, hsb, hl])
    · intro h₁ h₂ hr hs
      exact .right (by simpa [hsb] using h₁) (by simpa [hsa] using h₂) hr (by simp [hs, hsa])
        (by simp [hs, hsa, hsb, hl])
  have htne : a.tail ≠ b.tail := by
    intro ht
    rw [← rowIntern_of_isRow ha.wellFormed har, ← rowIntern_of_isRow hb.wellFormed hbr, hl, ht] at hne
    exact hne rfl
  rcases ha.wellFormed.isTail with hat | ⟨i, hat⟩
  · rcases hb.wellFormed.isTail with hbt | ⟨j, hbt⟩
    · exact absurd (hat.trans hbt.symm) htne
    · have hj := hb.free j (by simp [hsb, hbt, Row.varId])
      have he : Flat σ .empty := ⟨.empty, fun k hk => by cases hk⟩
      rw [hat, hbt, rowUnify_var_right hj he rfl, bindChecked_flat he, if_neg (by simp [start])]
      exact ⟨_, _, rfl, hlift.2 (by simp [hbt, Row.varId]) (by simp [hat, Row.varId]) he
        (by simp [start, hat, Row.varId])⟩
  · have hi := ha.free i (by simp [hsa, hat, Row.varId])
    have hbf : Flat σ b.tail := by
      rcases hb.wellFormed.isTail with hbt | ⟨j, hbt⟩
      · rw [hbt]; exact ⟨.empty, fun k hk => by cases hk⟩
      · have hj := hb.free j (by simp [hsb, hbt, Row.varId])
        rw [hbt]
        exact ⟨.var j, fun k hk => by cases hk; exact hj⟩
    have hstart : start b.tail = (0, b.tail.varId) := by
      rcases hb.wellFormed.isTail with hbt | ⟨j, hbt⟩ <;> rw [hbt] <;> rfl
    rw [hat, rowUnify_var_left hi hbf (by rw [← hat]; exact htne), bindChecked_flat hbf]
    split_ifs with hocc
    · refine ⟨_, _, rfl, .refused ?_⟩
      rintro ⟨-, -, -, hd, -⟩
      exact hd hl
    · exact ⟨_, _, rfl, hlift.1 (by simp [hat, Row.varId]) (by rwa [hstart] at hocc) hbf hstart⟩

theorem varId_eq_some {t : Row} {i : Nat} (h : t.varId = some i) : t = .var i := by
  cases t <;> simp_all [Row.varId]

theorem WellFormed.tail_of_varId {r : Row} (h : WellFormed r) (hv : r.tail.varId = none) :
    r.tail = .empty := by
  rcases h.isTail with ht | ⟨i, ht⟩
  · exact ht
  · simp [ht, Row.varId] at hv

theorem rowUnify_rows {a b : Row} (ha : Flat σ a) (hb : Flat σ b) (har : a.isRow = true)
    (hbr : b.isRow = true) (hne : a ≠ b) (depth : Nat) :
    ∃ ok σ', rowUnify σ (depth + 2) a b = some (ok, σ') ∧ Unified σ a b ok σ' := by
  have hsa := start_of_isRow har
  have hsb := start_of_isRow hbr
  have hav : a.varId = none := by cases a <;> simp_all [Row.isRow, Row.varId]
  have hbv : b.varId = none := by cases b <;> simp_all [Row.isRow, Row.varId]
  obtain ⟨p, hpa, hpb⟩ := unmatched_spec a.labels b.labels
  have hleftNil : (unmatched a.labels b.labels).1 = [] ↔ a.labels <+: b.labels := unmatched_left_nil
  have hrightNil : (unmatched a.labels b.labels).2 = [] ↔ b.labels <+: a.labels := unmatched_right_nil
  rw [rowUnify]
  simp only [ha.rowFlatten, hb.rowFlatten, hne, if_false, hav, hbv, har, hbr, Bool.and_self, if_true,
    ha.tail har, hb.tail hbr]
  generalize unmatched a.labels b.labels = rest at *
  obtain ⟨xs, ys⟩ := rest
  dsimp only at hpa hpb hleftNil hrightNil
  have hla : (start a).1 = (p : Multiset Nat) + (xs : Multiset Nat) := by rw [hsa, Multiset.coe_add, ← hpa]
  have hlb : (start b).1 = (p : Multiset Nat) + (ys : Multiset Nat) := by rw [hsb, Multiset.coe_add, ← hpb]
  by_cases hboth : xs = [] ∧ ys = []
  · rw [if_pos hboth]
    have hsame : a.labels = b.labels := by rw [hpa, hboth.1, hpb, hboth.2]
    exact Unified.of_tails ha hb har hbr hsame hne depth
  · rw [if_neg hboth]
    simp only [unifyLeftover]
    have hdiff : a.labels ≠ b.labels := by
      intro he
      exact hboth ⟨hleftNil.mpr (he ▸ List.prefix_rfl), hrightNil.mpr (he ▸ List.prefix_rfl)⟩
    by_cases h₁ : xs = [] ∧ ∃ i, a.tail = .var i
    · obtain ⟨hnil, i, hi⟩ := h₁
      have hbind : ∃ ok σ', some (true, substBind σ i (rowIntern ys b.tail)) = some (ok, σ') ∧
          Unified σ a b ok σ' := by
        refine ⟨_, _, rfl, ?_⟩
        by_cases hshare : b.tail = .var i
        · exact .cycle ⟨i, hi, hshare, hdiff, .inl (hleftNil.mp hnil)⟩
            (by simp [hsa, hi, Row.varId]) (hb.intern hbr _).wellFormed
            (by rw [start_rowIntern _ hb.wellFormed.isTail, hshare]; rfl)
        · exact .left (by simp [hsa, hi, Row.varId])
            (by rw [hsb]; exact fun h => hshare (varId_eq_some h)) (hb.intern hbr _)
            (by simp [start_rowIntern _ hb.wellFormed.isTail, hsb])
            (by simp [start_rowIntern _ hb.wellFormed.isTail, hla, hlb, hnil])
      simpa [hnil, hi, Row.varId] using hbind
    · have hleft : (if xs = [] then a.tail.varId else none) = none := by
        split_ifs with hnil
        · cases hv : a.tail.varId with
          | none => rfl
          | some i => exact absurd ⟨hnil, i, varId_eq_some hv⟩ h₁
        · rfl
      rw [hleft]
      cases hbt : b.tail.varId with
      | none =>
          simp only [ite_self]
          refine ⟨_, _, rfl, .refused ?_⟩
          rintro ⟨j, -, hj, -⟩
          simp [hj, Row.varId] at hbt
      | some j =>
          have hj := varId_eq_some hbt
          by_cases hnil : ys = []
          · simp only [hnil, if_true]
            refine ⟨_, _, rfl, ?_⟩
            by_cases hshare : a.tail = .var j
            · exact .cycle ⟨j, hshare, hj, hdiff, .inr (hrightNil.mp hnil)⟩
                (by simp [hsa, hshare, Row.varId]) (ha.intern har _).wellFormed
                (by rw [start_rowIntern _ ha.wellFormed.isTail, hshare]; rfl)
            · exact .right (by simp [hsb, hbt])
                (by rw [hsa]; exact fun h => hshare (varId_eq_some h)) (ha.intern har _)
                (by simp [start_rowIntern _ ha.wellFormed.isTail, hsa])
                (by simp [start_rowIntern _ ha.wellFormed.isTail, hla, hlb, hnil])
          · simp only [hnil, if_false]
            have hfirst := ha.intern har xs
            have hlt := labels_rowIntern ha.wellFormed xs
            have hres := ha.intern har (xs.diff ys)
            rw [foldl_rowWithout hfirst (isRow_rowIntern ha.wellFormed _), hlt.1, hlt.2, bindChecked_flat hres,
              start_rowIntern _ ha.wellFormed.isTail]
            split_ifs with hocc
            · refine ⟨_, _, rfl, .refused ?_⟩
              rintro ⟨i, hi, -, -, hp | hp⟩
              · exact h₁ ⟨hleftNil.mpr hp, i, hi⟩
              · exact hnil (hrightNil.mpr hp)
            · refine ⟨_, _, rfl, .subtract ⟨⟨j, hj⟩, har, ?_, ?_⟩ (by simp [hsb, hbt])
                (by rw [hsa]; exact hocc) hres (by simp [start_rowIntern _ ha.wellFormed.isTail, hsa]) ?_⟩
              · exact fun hp => hnil (hrightNil.mpr hp)
              · intro hp
                refine WellFormed.tail_of_varId ha.wellFormed ?_
                simpa [hleftNil.mpr hp] using hleft
              · rw [start_rowIntern _ ha.wellFormed.isTail, hla, hlb, ← Multiset.coe_sub, add_assoc]
                exact add_le_add le_rfl le_add_tsub

theorem rowUnify_flat {a b : Row} (ha : Flat σ a) (hb : Flat σ b) (depth : Nat) :
    ∃ ok σ', rowUnify σ (depth + 2) a b = some (ok, σ') ∧ Unified σ a b ok σ' := by
  by_cases hne : a = b
  · subst hne
    exact ⟨_, _, by rw [rowUnify]; simp, .equal rfl⟩
  · rcases ha.wellFormed.isTail_or_isRow with ⟨i, rfl⟩ | har
    · exact ⟨_, _, rowUnify_var_left (ha.free i rfl) hb hne _, unified_var_left hb⟩
    · rcases hb.wellFormed.isTail_or_isRow with ⟨j, rfl⟩ | hbr
      · have hav : a.varId = none := by cases a <;> simp_all [Row.isRow, Row.varId]
        exact ⟨_, _, rowUnify_var_right (hb.free j rfl) ha hav _, unified_var_right ha⟩
      · exact rowUnify_rows ha hb har hbr hne depth

theorem rowUnify_spec (hσ : WellBound σ) {a b : Row} (ha : WellFormed a) (hb : WellFormed b)
    (hra : readInFull σ a = true) (hrb : readInFull σ b = true) (depth : Nat) :
    ∃ ok σ', rowUnify σ (depth + 2) a b = some (ok, σ') ∧
      Unified σ (rowFlatten σ a) (rowFlatten σ b) ok σ' := by
  have hfa := (rowFlatten_spec hσ ha hra).1
  have hfb := (rowFlatten_spec hσ hb hrb).1
  obtain ⟨ok, σ', hu, hs⟩ := rowUnify_flat hfa hfb depth
  refine ⟨ok, σ', ?_, hs⟩
  rw [← hu, rowUnify, rowUnify]
  simp only [hfa.rowFlatten, hfb.rowFlatten]

end Unify

end Ore.EffectRowUnify
