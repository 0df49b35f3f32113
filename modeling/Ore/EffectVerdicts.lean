import Ore.EffectInference
import Ore.EvaluatedCalls

namespace Ore.EffectVerdicts

open EffectRows EffectRowReads EffectRowUnify EffectRowUnion EffectInference EvaluatedCalls
open TypeHoles (Ty)

section Calls

/-- Calls that are evaluated, of functions with the given closed rows. -/
def calls (rows : List (List Nat)) : List Event := rows.map fun ls => .call (closed ls)

theorem walk_calls (depth : Nat) (σ : RowSubst) (acc : List Nat) (rows : List (List Nat)) :
    walk depth ⟨σ, closed acc⟩ (calls rows) = some ⟨σ, closed (rows.foldl absorb acc)⟩ := by
  induction rows generalizing acc with
  | nil => simp [calls, walk]
  | cons ls rows ih =>
      obtain ⟨hn, he, -⟩ := closed_leaf ls
      obtain ⟨hn', he', -⟩ := closed_leaf (absorb acc ls)
      have hstep : step depth ⟨σ, closed acc⟩ (.call (closed ls)) = some ⟨σ, closed (absorb acc ls)⟩ := by
        simp [step, hn, he, addRow, rowUnion_closed, hn']
      have htail := ih (absorb acc ls)
      simp only [calls, List.map_cons, List.foldl_cons] at htail ⊢
      rw [walk, hstep]
      exact htail

theorem isolated_calls (depth : Nat) (σ : RowSubst) (rows : List (List Nat)) :
    isolated depth σ (calls rows) = some (closed (rows.foldl absorb []), σ) := by
  have hwalk := walk_calls depth σ [] rows
  have hempty : Row.empty = closed [] := rfl
  simp [isolated, hempty, hwalk]

/-- One more call in the sum of the rows: one whose row is the sum so far adds
nothing. -/
def countCall (acc : Multiset Nat) (ls : List Nat) : Multiset Nat := if acc = ls then acc else acc + ls

/-- The labels a sequence of evaluated calls performs, with multiplicity. -/
def performed (rows : List (List Nat)) : Multiset Nat := rows.foldl countCall 0

theorem coe_absorb {acc ls : List Nat} (ha : acc.Pairwise (· ≤ ·)) (hl : ls.Pairwise (· ≤ ·)) :
    ((absorb acc ls : List Nat) : Multiset Nat) = countCall acc ls := by
  by_cases h : acc = ls
  · simp [absorb, countCall, h]
  · have hne : (acc : Multiset Nat) ≠ ls := fun he => h ((Multiset.coe_eq_coe.mp he).eq_of_pairwise' ha hl)
    rw [absorb, if_neg h, countCall, if_neg hne, coe_mergeLabels]

theorem coe_foldl_absorb {acc : List Nat} {rows : List (List Nat)} (ha : acc.Pairwise (· ≤ ·))
    (hr : ∀ ls ∈ rows, ls.Pairwise (· ≤ ·)) :
    ((rows.foldl absorb acc : List Nat) : Multiset Nat) = rows.foldl countCall (acc : Multiset Nat) := by
  induction rows generalizing acc with
  | nil => rfl
  | cons ls rows ih =>
      have hl := hr ls (by simp)
      rw [List.foldl_cons, List.foldl_cons, ih (sorted_absorb ha hl) fun l h => hr l (by simp [h]),
        coe_absorb ha hl]

theorem coe_performed {rows : List (List Nat)} (hr : ∀ ls ∈ rows, ls.Pairwise (· ≤ ·)) :
    ((rows.foldl absorb [] : List Nat) : Multiset Nat) = performed rows :=
  coe_foldl_absorb .nil hr

end Calls

section Gate

/-- Whether a body, typed as such or against the result type, is accepted against the
declared closed row. -/
def verdict (depth : Nat) (declared : List Nat) (expected : Option Ty) (body : Expr) : Option Bool :=
  (inferBody depth (some (closed declared)) (calls (body.rows false expected))).map Inferred.accepted

theorem ground_closed (σ : RowSubst) (ls : List Nat) (depth : Nat) :
    groundUnboundRowVars (depth + 2) σ (closed ls) = some σ := by
  by_cases hl : ls = [] <;> simp [closed, rowIntern, hl, groundUnboundRowVars, rowResolve, chase]

theorem unmatched_nil {xs ys : List Nat} : unmatched xs ys = ([], []) ↔ xs = ys := by
  constructor
  · intro h
    obtain ⟨p, hx, hy⟩ := unmatched_spec xs ys
    rw [h] at hx hy
    exact hx.trans hy.symm
  · rintro rfl
    exact Prod.ext (unmatched_left_nil.mpr List.prefix_rfl) (unmatched_right_nil.mpr List.prefix_rfl)

theorem rowUnify_closed (σ : RowSubst) (xs ys : List Nat) (depth : Nat) :
    rowUnify σ (depth + 1) (closed xs) (closed ys) = some (decide (xs = ys), σ) := by
  rw [rowUnify]
  simp only [rowFlatten_closed, (closed_leaf xs).2.2, (closed_leaf ys).2.2, isRow_closed, labels_closed,
    tail_closed, Bool.and_self, if_true]
  by_cases h : xs = ys
  · simp [h]
  · have hne : closed xs ≠ closed ys := fun he => h (closed_injective he)
    have hrest : ¬ ((unmatched xs ys).1 = [] ∧ (unmatched xs ys).2 = []) :=
      fun hn => h (unmatched_nil.mp (Prod.ext hn.1 hn.2))
    have hres : rowResolve σ .empty = .empty := rfl
    rw [if_neg hne, if_neg hrest]
    simp [unifyLeftover, hres, Row.varId, h]

theorem accepted_eq {declared : List Nat} {rows : List (List Nat)} (hd : declared.Pairwise (· ≤ ·))
    (hr : ∀ ls ∈ rows, ls.Pairwise (· ≤ ·)) (depth : Nat) :
    (inferBody (depth + 2) (some (closed declared)) (calls rows)).map Inferred.accepted =
      some (decide (performed rows = declared)) := by
  have hwalk := walk_calls (depth + 2) none [] rows
  have hempty : Row.empty = closed [] := rfl
  have hsame : rows.foldl absorb [] = declared ↔ performed rows = (declared : Multiset Nat) := by
    rw [← coe_performed hr, Multiset.coe_eq_coe]
    exact ⟨fun h => h ▸ List.Perm.refl _, fun h => h.eq_of_pairwise' (sorted_foldl_absorb .nil hr) hd⟩
  have hne := (closed_leaf declared).2.1
  have hne' := (closed_leaf (rows.foldl absorb [])).2.1
  simp [inferBody, hempty, hwalk, effectGate, hne, ground_closed, hne', rowUnify_closed, inferredRow, hsame]

/-- The rows add up to the declared labels: each is the sum of those before it,
and adds nothing, or its labels are still missing from that sum. -/
def AddsUp (declared : Multiset Nat) : Multiset Nat → List (List Nat) → Prop
  | sum, [] => sum = declared
  | sum, ls :: rows =>
    (sum = ls ∧ AddsUp declared sum rows) ∨
      (sum ≠ ls ∧ sum + ls ≤ declared ∧ AddsUp declared (sum + ls) rows)

theorem le_foldl_countCall (acc : Multiset Nat) (rows : List (List Nat)) : acc ≤ rows.foldl countCall acc := by
  induction rows generalizing acc with
  | nil => exact le_rfl
  | cons ls rows ih =>
      refine le_trans ?_ (ih (countCall acc ls))
      unfold countCall
      split_ifs
      · exact le_rfl
      · exact Multiset.le_add_right _ _

theorem foldl_countCall_eq_iff {declared acc : Multiset Nat} {rows : List (List Nat)} :
    rows.foldl countCall acc = declared ↔ AddsUp declared acc rows := by
  induction rows generalizing acc with
  | nil => rfl
  | cons ls rows ih =>
      rw [List.foldl_cons, AddsUp]
      by_cases h : acc = ls
      · simp [countCall, h, ih]
      · have hc : countCall acc ls = acc + ls := if_neg h
        rw [hc]
        constructor
        · intro he
          exact .inr ⟨h, he ▸ le_foldl_countCall _ rows, ih.mp he⟩
        · rintro (⟨he, -⟩ | ⟨-, -, hs⟩)
          · exact absurd he h
          · exact ih.mpr hs

theorem mem_foldl_countCall {acc : Multiset Nat} {rows : List (List Nat)} {x : Nat} :
    x ∈ rows.foldl countCall acc ↔ x ∈ acc ∨ x ∈ rows.flatten := by
  induction rows generalizing acc with
  | nil => simp
  | cons ls rows ih =>
      have hc : x ∈ countCall acc ls ↔ x ∈ acc ∨ x ∈ ls := by
        unfold countCall
        split_ifs with h
        · simp [h]
        · simp
      simp [ih, hc, or_assoc]

theorem toFinset_of_addsUp {declared : List Nat} {rows : List (List Nat)} (h : AddsUp declared 0 rows) :
    rows.flatten.toFinset = declared.toFinset := by
  ext x
  have hx : x ∈ rows.foldl countCall 0 ↔ x ∈ (0 : Multiset Nat) ∨ x ∈ rows.flatten := mem_foldl_countCall
  rw [foldl_countCall_eq_iff.mpr h] at hx
  simpa using hx.symm

theorem rows_sorted {body : Expr} (h : ∀ ls ∈ body.called, ls.Pairwise (· ≤ ·)) (again : Bool)
    (expected : Option Ty) : ∀ ls ∈ body.rows again expected, ls.Pairwise (· ≤ ·) :=
  fun ls hls => h ls ((mem_rows ls again expected body).mp hls)

theorem mem_rows_flatten (again : Bool) (expected : Option Ty) (body : Expr) (x : Nat) :
    x ∈ (body.rows again expected).flatten ↔ x ∈ body.called.flatten := by
  simp only [List.mem_flatten, mem_rows]

/-- A call of a plain function of numbers with the given effects. -/
def callOf (labels : List Nat) (args : List Expr) : Expr :=
  .call (.prim .i32) ⟨args.map fun _ => some (.prim .i32), labels, true, false, 0⟩ (.leaf .none) args

/-- Calls in statements of their own. -/
def sequence (rows : List (List Nat)) : Expr := .other (.prim .void) (rows.map (callOf · []))

end Gate

section Discharge

/-- The action of a handler: whether it has been evaluated before, and the type that the
handler declares for its result. The continuation of a `with` has none. -/
structure Action where
  before : Bool
  body : Expr
  declared : Option Ty

namespace Action

/-- The calls of the action, typed apart from its surroundings. -/
def rows (a : Action) : List (List Nat) := a.body.rows a.before none

/-- The calls that the coercion to the declared type evaluates among the surroundings. -/
def again (a : Action) : List (List Nat) := match a.declared with
  | some t => if looksAgain a.body.type t then a.body.rows true none else []
  | none => []

def event (a : Action) (effect tail : Nat) : Event := .handle (calls a.rows) (calls a.again) (closed [effect]) tail

end Action

theorem called_of_again (a : Action) (x : Nat) (h : x ∈ a.again.flatten) : x ∈ a.body.called.flatten := by
  rw [Action.again] at h
  split at h
  · split at h
    · exact (mem_rows_flatten true none a.body x).mp h
    · exact absurd h List.not_mem_nil
  · exact absurd h List.not_mem_nil

/-- What is left of the action's row for the enclosing function, after the coercion of the
result. -/
def residual (depth : Nat) (w : Walk) (a : Action) (effect tail : Nat) : Option (Walk × Row) := do
  let (actionRow, σ) ← isolated depth w.subst (calls a.rows)
  let w' ← walk depth { w with subst := σ } (calls a.again)
  let (r, σ) ← discharge depth w'.subst actionRow (handlerRow w.subst (closed [effect]) tail) tail
  return ({ w' with subst := σ }, r)

theorem handlerRow_closed (σ : RowSubst) (effect tail : Nat) :
    handlerRow σ (closed [effect]) tail = .row [effect] (.var tail) := by
  simp [handlerRow, (closed_leaf [effect]).1, (closed_leaf [effect]).2.1, closed_eq_empty]
  rfl

theorem rowWithout_closed (σ : RowSubst) (ls : List Nat) (label : Nat) :
    rowWithout σ (closed ls) label = closed (ls.erase label) := by
  rw [rowWithout_flat (flat_closed σ ls) (isRow_closed ls), labels_closed, tail_closed, closed]

theorem rowFlatten_of_binding {σ : RowSubst} {i : Nat} {ls : List Nat} (h : binding σ i = some (closed ls)) :
    rowFlatten σ (.var i) = closed ls := by
  have hn : σ ≠ none := by rintro rfl; simp [binding] at h
  have hres : rowResolve σ (.var i) = closed ls := by
    have hnext : chase σ 64 (.var i) = chase σ 63 (closed ls) := by simp [chase, h]
    rw [rowResolve, hnext]
    by_cases hl : ls = [] <;> simp [closed, rowIntern, hl, chase]
  simp [rowFlatten, hn, hres, (flat_closed σ ls).splice (isRow_closed ls) 63]

theorem rowUnify_handler {σ : RowSubst} {tail : Nat} (hfree : binding σ tail = none) (xs : List Nat)
    (effect depth : Nat) :
    rowUnify σ (depth + 2) (closed xs) (.row [effect] (.var tail)) =
      some (true, substBind σ tail (closed (xs.erase effect))) := by
  have hb : Flat σ (.row [effect] (.var tail)) := ⟨.openTail _ _, fun i hi => by cases hi; exact hfree⟩
  have hne : closed xs ≠ .row [effect] (.var tail) := by
    intro h
    have ht := congrArg Row.tail h
    rw [tail_closed] at ht
    cases ht
  have hres : rowResolve σ (.var tail) = .var tail := rowResolve_of_free fun i hi => by cases hi; exact hfree
  have hbt : (Row.row [effect] (.var tail)).tail = .var tail := rfl
  have hbl : (Row.row [effect] (.var tail)).labels = [effect] := rfl
  have hempty : rowResolve σ .empty = .empty := rfl
  have hvar : (Row.row [effect] (.var tail)).varId = none := rfl
  have hrow : (Row.row [effect] (.var tail)).isRow = true := rfl
  rw [rowUnify]
  simp only [rowFlatten_closed, hb.rowFlatten, hne, if_false, (closed_leaf xs).2.2, isRow_closed, labels_closed,
    tail_closed, hbt, hbl, hres, hempty, hvar, hrow, Bool.and_self, if_true]
  have hgone : Row.empty.varId = none := rfl
  have hleft : (Row.var tail).varId = some tail := rfl
  cases xs with
  | nil =>
      have hfold : List.foldl (rowWithout σ) (closed []) [effect] = closed [] := by
        simp [rowWithout_closed]
      have hu : unmatched [] [effect] = ([], [effect]) := rfl
      rw [hu]
      simp only [unifyLeftover, hgone, hleft, reduceCtorEq, and_false, if_false, if_true]
      rw [← closed, hfold, bindChecked_flat (flat_closed σ [])]
      rfl
  | cons x xs =>
      by_cases hx : x = effect
      · subst hx
        cases xs with
        | nil =>
            have hu : unmatched [x] [x] = ([], []) := by simp [unmatched]
            have hv : Flat σ .empty := flat_closed σ []
            rw [hu, if_pos ⟨rfl, rfl⟩, rowUnify_var_right hfree hv rfl, bindChecked_flat hv]
            simp [start, closed, rowIntern]
        | cons y ys =>
            have hu : unmatched (x :: y :: ys) [x] = (y :: ys, []) := by simp [unmatched]
            rw [hu]
            simp [unifyLeftover, hleft, closed]
      · have hu : unmatched (x :: xs) [effect] = (x :: xs, [effect]) := by simp [unmatched, hx]
        have hfold : List.foldl (rowWithout σ) (closed (x :: xs)) [effect] =
            closed ((x :: xs).erase effect) := by
          rw [List.foldl_cons, List.foldl_nil, rowWithout_closed]
        rw [hu]
        simp only [unifyLeftover, hgone, hleft, reduceCtorEq, and_false, if_false]
        rw [← closed, hfold, bindChecked_flat (flat_closed σ _), closed, start_rowIntern _ (.inl rfl)]
        rfl

theorem step_handle (depth : Nat) (w : Walk) (a : Action) (effect tail : Nat) :
    step depth w (a.event effect tail) = (residual depth w a effect tail).bind fun p => addRow depth p.1 p.2 := by
  have hne : handlerRow w.subst (closed [effect]) tail ≠ .error := by
    rw [handlerRow_closed]
    simp
  rw [Action.event, step, residual]
  cases isolated depth w.subst (calls a.rows) with
  | none => rfl
  | some p =>
      cases hwalk : walk depth { w with subst := p.2 } (calls a.again) with
      | none => simp [hwalk]
      | some w' =>
          simp only [hwalk, Option.bind_eq_bind, Option.bind_some, if_neg hne, Option.pure_def]
          cases discharge depth w'.subst p.1 (handlerRow w.subst (closed [effect]) tail) tail <;> rfl

/-- What a handler folds into the enclosing function, the rows of the calls that are
evaluated there and a closed row, has the labels of the action's calls other than the
handled one. -/
def Discharges (depth : Nat) (w : Walk) (a : Action) (effect tail : Nat) : Prop :=
  ∃ w' r, residual depth w a effect tail = some (w', r) ∧
    step depth w (a.event effect tail) = addRow depth w' r ∧ r.isRow = true ∧ r.tail = .empty ∧
      ∀ x, x ∈ a.again.flatten ∨ x ∈ r.labels ↔ x ∈ a.body.called.flatten ∧ x ≠ effect

theorem residual_calls {w w' : Walk} {a : Action} {tail depth : Nat}
    (hagain : walk (depth + 2) w (calls a.again) = some w') (hfree : binding w'.subst tail = none) (effect : Nat) :
    ∃ σ, residual (depth + 2) w a effect tail =
      some ({ w' with subst := σ }, closed ((a.rows.foldl absorb []).erase effect)) := by
  refine ⟨substBind w'.subst tail (closed ((a.rows.foldl absorb []).erase effect)), ?_⟩
  have hread : rowFlatten (substBind w'.subst tail (closed ((a.rows.foldl absorb []).erase effect))) (.var tail) =
      closed ((a.rows.foldl absorb []).erase effect) :=
    rowFlatten_of_binding (by simp [binding_substBind (closed_leaf _).1])
  simp [residual, isolated_calls, hagain, handlerRow_closed, discharge, rowUnify_handler hfree, hread]

theorem count_rows {a : Action} (hr : ∀ ls ∈ a.body.called, ls.Pairwise (· ≤ ·)) (effect : Nat) :
    (a.rows.foldl absorb []).count effect = (performed a.rows).count effect := by
  have hsorted : ∀ ls ∈ a.rows, ls.Pairwise (· ≤ ·) := rows_sorted hr a.before none
  rw [← coe_performed hsorted, Multiset.coe_count]

theorem handled_of_discharges {w w' : Walk} {a : Action} {tail depth : Nat}
    (hagain : walk (depth + 2) w (calls a.again) = some w') (hfree : binding w'.subst tail = none)
    (hr : ∀ ls ∈ a.body.called, ls.Pairwise (· ≤ ·)) {effect : Nat}
    (h : Discharges (depth + 2) w a effect tail) : (performed a.rows).count effect ≤ 1 ∧ effect ∉ a.again.flatten := by
  obtain ⟨σ, hres⟩ := residual_calls hagain hfree effect
  obtain ⟨w'', r, hr', -, -, -, hlabels⟩ := h
  obtain ⟨rfl, rfl⟩ := Prod.mk.inj (Option.some.inj (hres.symm.trans hr'))
  rw [labels_closed] at hlabels
  refine ⟨?_, fun hin => ((hlabels effect).mp (.inl hin)).2 rfl⟩
  rw [← count_rows hr]
  by_contra hgt
  have hin : effect ∈ (a.rows.foldl absorb []).erase effect := by
    rw [← List.count_pos_iff, List.count_erase_self]
    omega
  exact ((hlabels effect).mp (.inr hin)).2 rfl

/-- The action adds two numbers. The left one is the answer of a call without effects, whose
argument is evaluated twice; the right one performs the handled effect. -/
def sumAction : Action :=
  ⟨false, .arith (.prim .i32) (callOf [] [callOf [2] []]) (callOf [1] []), some (.prim .i32)⟩

/-- The condition of a number that is yet without a type. -/
def choiceAction : Action :=
  ⟨false, .ifElse (.prim .comptimeInt) false (callOf [1] []) [.leaf (.prim .comptimeInt), .leaf (.prim .comptimeInt)],
    some (.prim .i32)⟩

end Discharge

section Inferred

/-- The duplicate-free form of the row flattened in full under the
substitution; an error stays an error. -/
def SetForm (w : Walk) (r : Row) : Prop :=
  (w.row = .error ∧ r = .error) ∨
    (WellFormed w.row ∧ ∃ A e, Flattens w.subst w.row A e ∧ r = closed (A.toFinset.sort (· ≤ ·)))

theorem inferredRow_error (depth : Nat) : inferredRow (depth + 1) .error = some .error := by
  simp [inferredRow, groundUnboundRowVars, rowResolve, chase, rowDedup, rowFlatten, Row.isRow]

/-- The recorded row has the labels written in the body row: the variable of
its tail is grounded, whatever it was bound to. -/
theorem inferredRow_wellFormed {r : Row} (hr : WellFormed r) (hs : r.labels.Pairwise (· ≤ ·)) (depth : Nat) :
    inferredRow (depth + 2) r = some (closed (uniq r.labels)) := by
  cases hr with
  | var i =>
      have hg : groundUnboundRowVars (depth + 2) none (.var i) = some (some [(i, closed [])]) := rfl
      have hread : rowFlatten (some [(i, closed [])]) (.var i) = closed [] :=
        rowFlatten_of_binding (by simp [binding]; rfl)
      rw [inferredRow, hg, Option.map_some, rowDedup, hread]
      rfl
  | empty => rfl
  | @closed ls hl =>
      have hr : Row.row ls .empty = closed ls := by simp [closed, rowIntern, hl]
      rw [hr, inferredRow, ground_closed, Option.map_some, rowDedup_closed, labels_closed]
  | openTail ls i =>
      have hg : groundUnboundRowVars (depth + 2) none (.row ls (.var i)) = some (some [(i, closed [])]) := rfl
      have hres : rowResolve (some [(i, closed [])]) (.var i) = .empty := by
        simp [rowResolve, chase, binding, closed, rowIntern]
      have hsplice : splice (some [(i, closed [])]) 64 (.row ls (.var i)) [] false = ⟨ls, .empty, true⟩ := by
        simp [splice, Row.tail, Row.labels, hres]
      have hself : rowResolve (some [(i, closed [])]) (.row ls (.var i)) = .row ls (.var i) := rfl
      have hread : rowFlatten (some [(i, closed [])]) (.row ls (.var i)) = closed ls := by
        have hsort : ls.insertionSort (· ≤ ·) = ls := List.Pairwise.insertionSort_eq hs
        have hrow : (Row.row ls (.var i)).isRow = true := rfl
        rw [rowFlatten, if_neg (by simp)]
        dsimp only
        rw [hself, if_pos hrow, hsplice, if_pos rfl, hsort, closed]
      have hd : rowDedup (some [(i, closed [])]) (.row ls (.var i)) =
          rowDedup (some [(i, closed [])]) (closed ls) := by
        rw [rowDedup, rowDedup, hread, rowFlatten_closed]
      rw [inferredRow, hg, Option.map_some, hd, rowDedup_closed]
      rfl

/-- The recorded effect row loses nothing if and only if every label of the
flattened row is among those written in the body row. -/
theorem inferred_set_iff {w : Walk} (hw : w.row = .error ∨ WellFormed w.row)
    (hs : w.row.labels.Pairwise (· ≤ ·)) {A : Multiset Nat} {e : Option Nat}
    (hA : Flattens w.subst w.row A e) (depth : Nat) :
    (∃ r, inferredRow (depth + 2) w.row = some r ∧ SetForm w r) ↔ ∀ x ∈ A, x ∈ w.row.labels := by
  rcases hw with herr | hw
  · have hzero : A = 0 := by
      have h0 : Flattens w.subst w.row 0 none := by rw [herr]; exact ⟨0, .closed, rfl⟩
      exact (hA.unique h0).1
    have hrec : inferredRow (depth + 2) w.row = some .error := by rw [herr]; exact inferredRow_error _
    simp only [hzero, Multiset.notMem_zero, false_imp_iff, implies_true, iff_true]
    exact ⟨_, hrec, .inl ⟨herr, rfl⟩⟩
  · have hrec := inferredRow_wellFormed hw hs depth
    have hle : ∀ x ∈ w.row.labels, x ∈ A := by
      obtain ⟨u, -, rfl⟩ := hA
      intro x hx
      refine Multiset.mem_add.mpr (.inl ?_)
      rcases hw.isTail_or_isRow with ⟨i, hi⟩ | hrow
      · rw [hi] at hx
        cases hx
      · rw [start_of_isRow hrow]
        exact hx
    have hset : (∀ x ∈ A, x ∈ w.row.labels) ↔ w.row.labels.toFinset = A.toFinset := by
      rw [Finset.ext_iff]
      simp only [List.mem_toFinset, Multiset.mem_toFinset]
      exact ⟨fun h x => ⟨hle x, h x⟩, fun h x => (h x).mpr⟩
    rw [hset, hrec, uniq_eq_sort hs]
    constructor
    · rintro ⟨r, hr, ⟨herr, -⟩ | ⟨-, A', e', hA', rfl⟩⟩
      · rw [herr] at hw
        cases hw
      · obtain ⟨rfl, -⟩ := hA.unique hA'
        have hsort := closed_injective (Option.some.inj hr)
        have hfin := congrArg List.toFinset hsort
        simpa using hfin
    · intro he
      exact ⟨_, rfl, .inr ⟨hw, A, e, hA, by rw [he]⟩⟩

theorem inferred_set_bound : (∃ r, inferredRow 2 (.row [1] .empty) = some r ∧
    SetForm ⟨none, .row [1] .empty⟩ r) ↔ ∀ x ∈ ({1} : Multiset Nat), x ∈ [1] :=
  inferred_set_iff (w := ⟨none, .row [1] .empty⟩) (.inr (.closed (by simp))) (by simp [Row.labels])
    ⟨0, .closed, rfl⟩ 0

/-- A body that calls its parameter and then hands it on as a value with a
declared effect: the label reaches the body row through the parameter's
variable, and the recorded row is empty. -/
theorem inferred_loses_label : ∃ w, walk 2 ⟨none, .empty⟩
      [.call (.row [] (.var 1)), .coerce (.row [] (.var 1)) (.row [7] .empty)] = some w ∧
    Flattens w.subst w.row {7} none ∧ inferredRow 2 w.row = some .empty ∧
    ¬ ∃ r, inferredRow 2 w.row = some r ∧ SetForm w r := by
  have hcall : step 2 ⟨none, .empty⟩ (.call (.row [] (.var 1))) = some ⟨none, .row [] (.var 1)⟩ := by
    have hu : rowUnion 2 none .empty (.row [] (.var 1)) = some (.row [] (.var 1), none) := by decide
    simp [step, addRow, hu]
  have hcoerce : step 2 ⟨none, .row [] (.var 1)⟩ (.coerce (.row [] (.var 1)) (.row [7] .empty)) =
      some ⟨some [(1, .row [7] .empty)], .row [] (.var 1)⟩ := by
    have hu : rowUnify none 2 (.row [] (.var 1)) (.row [7] .empty) =
        some (true, some [(1, .row [7] .empty)]) := by decide
    simp [step, hu]
  have hrec : inferredRow 2 (.row [] (.var 1)) = some .empty := by decide
  have hflat : Flattens (some [(1, .row [7] .empty)]) (.row [] (.var 1)) {7} none := by
    refine ⟨{7}, ?_, rfl⟩
    have hb : bound (some [(1, .row [7] .empty)]) 1 = some ({7}, none) := by decide
    exact BindingGraph.Reads.step hb .closed
  refine ⟨⟨some [(1, .row [7] .empty)], .row [] (.var 1)⟩, by simp [walk, hcall, hcoerce], hflat, hrec, ?_⟩
  rintro ⟨r, hr, ⟨herr, -⟩ | ⟨-, A, e, hA, rfl⟩⟩
  · cases herr
  · obtain ⟨rfl, -⟩ := hflat.unique hA
    have he := closed_injective (Option.some.inj (hrec.symm.trans hr) : closed [] = _)
    simp at he

end Inferred

end Ore.EffectVerdicts
