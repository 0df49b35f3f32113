import Mathlib.Algebra.Order.Group.Multiset
import Ore.BindingGraph
import Ore.EffectRows

namespace Ore.EffectRowReads

open BindingGraph EffectRows

/-- Rows as the interner keeps them: the tail of a row is the empty row or a
row variable. -/
inductive WellFormed : Row → Prop
  | var (i : Nat) : WellFormed (.var i)
  | empty : WellFormed .empty
  | closed {ls : List Nat} (h : ls ≠ []) : WellFormed (.row ls .empty)
  | openTail (ls : List Nat) (i : Nat) : WellFormed (.row ls (.var i))

theorem WellFormed.ne_none {r : Row} (h : WellFormed r) : r ≠ .none := by
  cases h <;> simp

/-- The labels in front of the tail, and the variable the tail is. -/
def start : Row → Multiset Nat × Option Nat
  | .var i => (0, some i)
  | .row ls t => (ls, t.varId)
  | _ => (0, none)

def bound (σ : RowSubst) : Chains Nat Nat := fun i => (binding σ i).map start

/-- The row flattened in full: all labels on the chain of its tail, and the
unbound variable at the end. -/
def Flattens (σ : RowSubst) (r : Row) (w : Multiset Nat) (e : Option Nat) : Prop :=
  ∃ w', Reads (bound σ) (start r).2 w' e ∧ w = (start r).1 + w'

structure WellBound (σ : RowSubst) : Prop where
  wellFormed : ∀ i r, binding σ i = some r → WellFormed r

theorem Flattens.unique {σ : RowSubst} {r : Row} {w w' : Multiset Nat} {e e' : Option Nat}
    (h : Flattens σ r w e) (h' : Flattens σ r w' e') : w = w' ∧ e = e' := by
  obtain ⟨u, hu, rfl⟩ := h
  obtain ⟨u', hu', rfl⟩ := h'
  obtain ⟨rfl, rfl⟩ := hu.unique hu'
  exact ⟨rfl, rfl⟩

theorem Flattens.end_free {σ : RowSubst} {r : Row} {w : Multiset Nat} {i : Nat}
    (h : Flattens σ r w (some i)) : binding σ i = none := by
  obtain ⟨_, hu, -⟩ := h
  simpa [bound] using hu.end_free

theorem flattens_of_free {σ : RowSubst} {r : Row}
    (h : ∀ i, (start r).2 = some i → binding σ i = none) : Flattens σ r (start r).1 (start r).2 := by
  refine ⟨0, ?_, by simp⟩
  cases hs : (start r).2 with
  | none => exact .closed
  | some i => exact .free (by simp [bound, h i hs])

theorem flattens_bound {σ : RowSubst} {i : Nat} {r : Row} {w : Multiset Nat} {e : Option Nat}
    (hb : binding σ i = some r) (h : Flattens σ r w e) : Flattens σ (.var i) w e := by
  obtain ⟨u, hu, rfl⟩ := h
  exact ⟨_, .step (by simp [bound, hb]; rfl) hu, by simp [start]⟩

section Interning

def IsTail (t : Row) : Prop := t = .empty ∨ ∃ i, t = .var i

theorem WellFormed.isTail {r : Row} (h : WellFormed r) : IsTail r.tail := by
  cases h with
  | var | empty | closed => exact .inl rfl
  | openTail ls i => exact .inr ⟨i, rfl⟩

theorem WellFormed.isTail_or_isRow {r : Row} (h : WellFormed r) : (∃ i, r = .var i) ∨ r.isRow = true := by
  cases h with
  | var i => exact .inl ⟨i, rfl⟩
  | empty | closed | openTail => exact .inr rfl

theorem wellFormed_rowIntern (ls : List Nat) {t : Row} (h : IsTail t) : WellFormed (rowIntern ls t) := by
  rcases h with rfl | ⟨i, rfl⟩
  · by_cases hl : ls = []
    · simpa [rowIntern, hl] using WellFormed.empty
    · simpa [rowIntern, hl] using WellFormed.closed hl
  · exact .openTail ls i

@[simp] theorem start_rowIntern (ls : List Nat) {t : Row} (h : IsTail t) :
    start (rowIntern ls t) = ((ls : Multiset Nat), t.varId) := by
  rcases h with rfl | ⟨i, rfl⟩
  · by_cases hl : ls = [] <;> simp [rowIntern, hl, start, Row.varId]
  · rfl

theorem start_of_isRow {r : Row} (h : r.isRow = true) :
    start r = ((r.labels : Multiset Nat), r.tail.varId) := by
  cases r <;> simp [Row.isRow] at h <;> rfl

theorem start_of_tail_var {r : Row} {i : Nat} (h : r.tail = .var i) : (start r).2 = some i := by
  cases r <;> simp_all [Row.tail, start, Row.varId]

theorem rowIntern_of_isRow {r : Row} (h : WellFormed r) (hr : r.isRow = true) :
    rowIntern r.labels r.tail = r := by
  cases h with
  | var => cases hr
  | empty => rfl
  | closed hl => simp [rowIntern, Row.labels, Row.tail, hl]
  | openTail => rfl

end Interning

section Resolving

variable {σ : RowSubst}

theorem WellBound.chase (hσ : WellBound σ) (n : Nat) {r : Row} (h : WellFormed r) :
    WellFormed (chase σ n r) := by
  induction n generalizing r with
  | zero => exact h
  | succ n ih =>
      cases h with
      | var i =>
          cases hb : binding σ i with
          | none => simpa [EffectRows.chase, hb] using WellFormed.var i
          | some r' => simpa [EffectRows.chase, hb] using ih (hσ.wellFormed i r' hb)
      | empty => exact .empty
      | closed hl => exact .closed hl
      | openTail ls i => exact .openTail ls i

theorem flattens_of_chase (n : Nat) {r : Row} {w : Multiset Nat} {e : Option Nat}
    (h : Flattens σ (chase σ n r) w e) : Flattens σ r w e := by
  induction n generalizing r with
  | zero => exact h
  | succ n ih =>
      cases r with
      | var i =>
          cases hb : binding σ i with
          | none => simpa [EffectRows.chase, hb] using h
          | some r' => exact flattens_bound hb (ih (by simpa [EffectRows.chase, hb] using h))
      | none | error | type | empty | row => exact h

theorem chase_of_free {i : Nat} (hb : binding σ i = none) (n : Nat) : chase σ n (.var i) = .var i := by
  cases n <;> simp [EffectRows.chase, hb]

theorem rowResolve_of_free {r : Row} (h : ∀ i, r = .var i → binding σ i = none) : rowResolve σ r = r := by
  cases r with
  | var i => exact chase_of_free (h i rfl) 64
  | none | error | type | empty | row => rfl

/-- No bound variable is left after the hops of one resolution. -/
def resolvedInFull (σ : RowSubst) (r : Row) : Bool :=
  (rowResolve σ r).varId.all fun i => (binding σ i).isNone

def splicedInFull (σ : RowSubst) : Nat → Row → Bool
  | 0, _ => false
  | hops + 1, cur =>
    let t := rowResolve σ cur.tail
    resolvedInFull σ cur.tail && (t == .empty || !t.isRow || splicedInFull σ hops t)

/-- Reading the row meets no hop limit. -/
def readInFull (σ : RowSubst) (r : Row) : Bool :=
  resolvedInFull σ r && (!(rowResolve σ r).isRow || splicedInFull σ 64 (rowResolve σ r))

theorem free_of_resolvedInFull {r : Row} (h : resolvedInFull σ r = true) {i : Nat}
    (hi : rowResolve σ r = .var i) : binding σ i = none := by
  simpa [resolvedInFull, hi, Row.varId] using h

end Resolving

section Flattening

variable {σ : RowSubst}

theorem splice_changed (hops : Nat) (cur : Row) (buf : List Nat) :
    (splice σ hops cur buf true).changed = true := by
  induction hops generalizing cur buf with
  | zero => rfl
  | succ hops ih =>
      simp only [splice, Bool.true_or]
      split_ifs
      · rfl
      · exact ih _ _
      · rfl

theorem splice_unchanged {hops : Nat} {cur : Row} {buf : List Nat}
    (h : (splice σ (hops + 1) cur buf false).changed = false) :
    rowResolve σ cur.tail = cur.tail := by
  simp only [splice, Bool.false_or] at h
  split_ifs at h with he hr
  · simpa using h
  · simp [splice_changed] at h
  · simpa using h

theorem splice_spec (hσ : WellBound σ) (hops : Nat) {cur : Row} (buf : List Nat) (ch : Bool)
    (hc : WellFormed cur) (hr : cur.isRow = true) (h : splicedInFull σ hops cur = true) :
    ∃ w, Flattens σ cur w (splice σ hops cur buf ch).tail.varId ∧
      ((splice σ hops cur buf ch).labels : Multiset Nat) = (buf : Multiset Nat) + w ∧
      IsTail (splice σ hops cur buf ch).tail := by
  induction hops generalizing cur buf ch with
  | zero => simp [splicedInFull] at h
  | succ hops ih =>
      have ht : WellFormed (rowResolve σ cur.tail) := by
        rcases hc.isTail with ht | ⟨i, ht⟩
        · rw [ht]; exact .empty
        · rw [ht]; exact hσ.chase 64 (.var i)
      have hflat : ∀ {w e}, Flattens σ (rowResolve σ cur.tail) w e →
          Flattens σ cur ((cur.labels : Multiset Nat) + w) e := by
        intro w e hw
        obtain ⟨u, hu, rfl⟩ := flattens_of_chase 64 hw
        have hstart : start cur.tail = (0, cur.tail.varId) := by
          rcases hc.isTail with ht | ⟨i, ht⟩ <;> rw [ht] <;> rfl
        exact ⟨u, by simpa [start_of_isRow hr, hstart] using hu, by simp [start_of_isRow hr, hstart]⟩
      simp only [splicedInFull, Bool.and_eq_true, Bool.or_eq_true, Bool.not_eq_true', beq_iff_eq] at h
      obtain ⟨hfull, hrest⟩ := h
      by_cases he : rowResolve σ cur.tail = .empty
      · have hw : Flattens σ (rowResolve σ cur.tail) 0 none := by
          rw [he]; exact ⟨0, .closed, rfl⟩
        have hs : splice σ (hops + 1) cur buf ch =
            ⟨buf ++ cur.labels, .empty, ch || rowResolve σ cur.tail != cur.tail⟩ := by
          simp [splice, he]
        rw [hs]
        exact ⟨_, hflat hw, by simp, .inl rfl⟩
      · rcases ht.isTail_or_isRow with ⟨i, hi⟩ | hrow
        · have hfree := free_of_resolvedInFull hfull hi
          have hw : Flattens σ (rowResolve σ cur.tail) 0 (some i) := by
            rw [hi]; exact ⟨0, .free (by simp [bound, hfree]), rfl⟩
          have hs : splice σ (hops + 1) cur buf ch =
              ⟨buf ++ cur.labels, .var i, ch || rowResolve σ cur.tail != cur.tail⟩ := by
            simp [splice, hi, Row.isRow]
          rw [hs]
          exact ⟨_, hflat hw, by simp, .inr ⟨i, rfl⟩⟩
        · have hnext : splicedInFull σ hops (rowResolve σ cur.tail) = true := by
            simpa [he, hrow] using hrest
          obtain ⟨w, hw, hl, htail⟩ := ih (buf ++ cur.labels) true ht hrow hnext
          have hs : splice σ (hops + 1) cur buf ch =
              splice σ hops (rowResolve σ cur.tail) (buf ++ cur.labels) true := by
            simp [splice, he, hrow]
          rw [hs]
          exact ⟨_, hflat hw, by rw [hl, ← Multiset.coe_add, add_assoc], htail⟩

/-- Rows whose tail is not bound. -/
structure Flat (σ : RowSubst) (r : Row) : Prop where
  wellFormed : WellFormed r
  free : ∀ i, (start r).2 = some i → binding σ i = none

theorem Flat.flattens {r : Row} (h : Flat σ r) : Flattens σ r (start r).1 (start r).2 :=
  flattens_of_free h.free

theorem Flat.tail {r : Row} (h : Flat σ r) (hr : r.isRow = true) : rowResolve σ r.tail = r.tail := by
  refine rowResolve_of_free fun i hi => h.free i ?_
  rw [start_of_isRow hr, hi]
  rfl

theorem rowFlatten_spec (hσ : WellBound σ) {r : Row} (hr : WellFormed r)
    (h : readInFull σ r = true) :
    Flat σ (rowFlatten σ r) ∧ Flattens σ r (start (rowFlatten σ r)).1 (start (rowFlatten σ r)).2 := by
  have hflat : ∀ {r' : Row}, WellFormed r' → Flattens σ r (start r').1 (start r').2 →
      Flat σ r' ∧ Flattens σ r (start r').1 (start r').2 := by
    intro r' hw hf
    exact ⟨⟨hw, fun i hi => (hi ▸ hf).end_free⟩, hf⟩
  by_cases hn : σ = none
  · have hself : rowFlatten σ r = r := by simp [rowFlatten, hn]
    rw [hself]
    exact hflat hr (flattens_of_free fun i _ => by simp [hn, binding])
  · simp only [readInFull, Bool.and_eq_true, Bool.or_eq_true, Bool.not_eq_true'] at h
    obtain ⟨hfull, hrest⟩ := h
    have hw : WellFormed (rowResolve σ r) := hσ.chase 64 hr
    rcases hw.isTail_or_isRow with ⟨i, hi⟩ | hrow
    · have hself : rowFlatten σ r = .var i := by simp [rowFlatten, hn, hi, Row.isRow]
      rw [hself]
      refine hflat (.var i) (flattens_of_chase 64 ?_)
      have hfree := free_of_resolvedInFull hfull hi
      rw [rowResolve] at hi
      rw [hi]
      exact flattens_of_free fun j hj => by cases hj; exact hfree
    · have hin : splicedInFull σ 64 (rowResolve σ r) = true := by simpa [hrow] using hrest
      obtain ⟨w, hf, hl, htail⟩ := splice_spec hσ 64 [] false hw hrow hin
      by_cases hch : (splice σ 64 (rowResolve σ r) [] false).changed = true
      · have hself : rowFlatten σ r = rowIntern
            ((splice σ 64 (rowResolve σ r) [] false).labels.insertionSort (· ≤ ·))
            (splice σ 64 (rowResolve σ r) [] false).tail := by
          simp [rowFlatten, hn, hrow, hch]
        have hlabels : (((splice σ 64 (rowResolve σ r) [] false).labels.insertionSort (· ≤ ·) :
            List Nat) : Multiset Nat) = w := by
          rw [Multiset.coe_eq_coe.mpr (List.perm_insertionSort _ _), hl]
          simp
        rw [hself]
        refine hflat (wellFormed_rowIntern _ htail) (flattens_of_chase 64 ?_)
        rw [start_rowIntern _ htail, hlabels]
        exact hf
      · have hself : rowFlatten σ r = rowResolve σ r := by simp [rowFlatten, hn, hrow, hch]
        rw [hself]
        refine hflat hw (flattens_of_chase 64 (flattens_of_free fun i hi => ?_))
        have hstay := splice_unchanged (Bool.not_eq_true _ ▸ hch)
        rw [← rowResolve, start_of_isRow hrow] at hi
        simp only [splicedInFull, Bool.and_eq_true] at hin
        refine free_of_resolvedInFull hin.1 (hstay.trans ?_)
        rcases hw.isTail with ht | ⟨j, ht⟩
        · simp [ht, Row.varId] at hi
        · simp only [ht, Row.varId, Option.some.injEq] at hi
          rw [ht, hi]

theorem Flat.splice {r : Row} (h : Flat σ r) (hr : r.isRow = true) (hops : Nat) :
    (splice σ (hops + 1) r [] false).changed = false := by
  simp only [EffectRows.splice, h.tail hr]
  rcases h.wellFormed.isTail with ht | ⟨j, ht⟩ <;> simp [ht, Row.isRow]

theorem Flat.rowFlatten {r : Row} (h : Flat σ r) : rowFlatten σ r = r := by
  by_cases hn : σ = none
  · simp [EffectRows.rowFlatten, hn]
  · rcases h.wellFormed.isTail_or_isRow with ⟨i, rfl⟩ | hrow
    · have hres : rowResolve σ (.var i) = .var i := rowResolve_of_free fun j hj => by
        cases hj; exact h.free i rfl
      simp [EffectRows.rowFlatten, hn, hres, Row.isRow]
    · have hres : rowResolve σ r = r := rowResolve_of_free fun j hj => by
        subst hj; cases hrow
      simp [EffectRows.rowFlatten, hn, hres, hrow, h.splice hrow 63]

theorem Flat.intern {r : Row} (h : Flat σ r) (hr : r.isRow = true) (ls : List Nat) :
    Flat σ (rowIntern ls r.tail) := by
  refine ⟨wellFormed_rowIntern ls h.wellFormed.isTail, fun i hi => h.free i ?_⟩
  rw [start_rowIntern ls h.wellFormed.isTail] at hi
  rw [start_of_isRow hr]
  exact hi

theorem isRow_rowIntern {r : Row} (h : WellFormed r) (ls : List Nat) :
    (rowIntern ls r.tail).isRow = true := by
  rcases h.isTail with ht | ⟨i, ht⟩
  · rw [ht, rowIntern]
    split <;> rfl
  · rw [ht]
    rfl

theorem labels_rowIntern {r : Row} (h : WellFormed r) (ls : List Nat) :
    (rowIntern ls r.tail).labels = ls ∧ (rowIntern ls r.tail).tail = r.tail := by
  rcases h.isTail with ht | ⟨i, ht⟩
  · rw [ht]
    by_cases hl : ls = [] <;> simp [rowIntern, hl, Row.labels, Row.tail]
  · rw [ht]
    exact ⟨rfl, rfl⟩

end Flattening

end Ore.EffectRowReads
