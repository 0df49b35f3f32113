import Ore.EffectRowUnion

namespace Ore.EffectRowRuns

open BindingGraph EffectRows EffectRowReads EffectRowUnify EffectRowSoundness EffectRowUnion Relation

variable {σ σ' : RowSubst}

inductive Op where
  | unify (a b : Row)
  | union (a b : Row)

namespace Op

def left : Op → Row
  | .unify a _ | .union a _ => a

def right : Op → Row
  | .unify _ b | .union _ b => b

def Runs (σ : RowSubst) : Op → RowSubst → Prop
  | .unify a b, σ' => ∃ depth ok, rowUnify σ depth a b = some (ok, σ')
  | .union a b, σ' => ∃ depth r, rowUnion depth σ a b = some (r, σ')

/-- A unification of rows that share their open tail under the substitution,
one with labels left behind those of the other. -/
def SharesTail (σ : RowSubst) : Op → Prop
  | .unify a b => SharedTail (rowFlatten σ a) (rowFlatten σ b)
  | .union _ _ => False

/-- The call meets no hop limit and does not share a tail. -/
structure Safe (σ : RowSubst) (op : Op) : Prop where
  left : readInFull σ op.left = true
  right : readInFull σ op.right = true
  shares : ¬ op.SharesTail σ

end Op

/-- Runs of calls on well-formed rows from the empty substitution. -/
inductive Run : RowSubst → Prop
  | start : Run none
  | call {σ σ' : RowSubst} (op : Op) (h : Run σ) (hl : WellFormed op.left) (hr : WellFormed op.right)
      (hop : op.Runs σ σ') : Run σ'

inductive SafeRun : RowSubst → Prop
  | start : SafeRun none
  | call {σ σ' : RowSubst} (op : Op) (h : SafeRun σ) (hl : WellFormed op.left) (hr : WellFormed op.right)
      (hsafe : op.Safe σ) (hop : op.Runs σ σ') : SafeRun σ'

/-- The substitution is acyclic: no binding, followed through bindings and row
tails, comes back to its variable, every row is flattened in full after finitely
many hops, and grounding it returns. -/
structure Coherent (σ : RowSubst) : Prop where
  acyclic : Acyclic (Follows (bound σ))
  flattens : ∀ r, WellFormed r → ∃ w e, Flattens σ r w e
  grounds : ∀ r, WellFormed r → ∃ depth σ', groundUnboundRowVars depth σ r = some σ'

section Termination

theorem finite_bindings (σ : RowSubst) : {i | ∃ u, Follows (bound σ) i u}.Finite := by
  refine Set.Finite.subset (List.finite_toSet ((σ.getD []).map Prod.fst)) ?_
  rintro i ⟨u, w, hi⟩
  have hlook : (σ.getD []).lookup i ≠ none := by
    intro hn
    simp [bound, binding, hn] at hi
  obtain ⟨r, hr⟩ := Option.ne_none_iff_exists'.mp hlook
  obtain ⟨l₁, l₂, hl, -⟩ := List.lookup_eq_some_iff.mp hr
  simp [hl]

theorem chase_follows (n i : Nat) :
    chase σ n (.var i) = .var i ∨
      ∃ j, ReflTransGen (Follows (bound σ)) i j ∧ binding σ j = some (chase σ n (.var i)) := by
  induction n generalizing i with
  | zero => exact .inl rfl
  | succ n ih =>
      cases hb : binding σ i with
      | none => exact .inl (by simp [chase, hb])
      | some r =>
          have hstep : chase σ (n + 1) (.var i) = chase σ n r := by simp [chase, hb]
          rw [hstep]
          cases r with
          | var k =>
              have hfollow : Follows (bound σ) i k := ⟨0, by simp [bound, hb, start]⟩
              rcases ih k with hk | ⟨j, hj, hbj⟩
              · exact .inr ⟨i, .refl, by rw [hk, hb]⟩
              · exact .inr ⟨j, .head hfollow hj, hbj⟩
          | none | error | type | empty | row =>
              exact .inr ⟨i, .refl, by rw [hb]; cases n <;> rfl⟩

theorem exists_ground (hwf : WellFounded (fun u v => Follows (bound σ) v u)) (hσ : WellBound σ)
    (i : Nat) : ∃ depth σ', groundUnboundRowVars depth σ (.var i) = some σ' := by
  induction i using hwf.transGen.induction with
  | _ i ih =>
      have hw : WellFormed (rowResolve σ (.var i)) := hσ.chase 64 (.var i)
      cases hres : rowResolve σ (.var i) with
      | var j => exact ⟨1, substBind σ j .empty, by simp [groundUnboundRowVars, hres]⟩
      | empty => exact ⟨2, σ, by simp [groundUnboundRowVars, hres]⟩
      | row ls t =>
          rw [hres] at hw
          cases hw with
          | closed => exact ⟨2, σ, by simp [groundUnboundRowVars, hres]⟩
          | openTail _ k =>
              rcases chase_follows (σ := σ) 64 i with hi | ⟨j, hj, hb⟩
              · rw [rowResolve, hi] at hres
                cases hres
              · rw [← rowResolve, hres] at hb
                have hjk : Follows (bound σ) j k := ⟨_, by simp [bound, hb, start, Row.varId]; rfl⟩
                have hik : TransGen (fun u v => Follows (bound σ) v u) k i := by
                  have hpath := TransGen.tail' hj hjk
                  exact transGen_swap.mp hpath
                obtain ⟨d, σ', hd⟩ := ih k hik
                exact ⟨d + 1, σ', by simp [groundUnboundRowVars, hres, hd]⟩
      | none | error | type => rw [hres] at hw; cases hw

theorem coherent_of_acyclic (hσ : WellBound σ) (h : Acyclic (Follows (bound σ))) : Coherent σ := by
  have hwf := h.wellFounded (finite_bindings σ)
  refine ⟨h, fun r _ => ?_, fun r hr => ?_⟩
  · obtain ⟨w, e, hr⟩ := exists_reads hwf (start r).2
    exact ⟨_, e, w, hr, rfl⟩
  · cases hr with
    | var i => exact exists_ground hwf hσ i
    | empty => exact ⟨1, _, rfl⟩
    | closed => exact ⟨2, _, rfl⟩
    | openTail ls i =>
        obtain ⟨d, σ', hd⟩ := exists_ground hwf hσ i
        exact ⟨d + 1, σ', by simpa [groundUnboundRowVars, rowResolve, chase] using hd⟩

end Termination

section Runs

/-- A safe call leaves the substitution or binds one variable that does not
occur in what it is bound to. -/
theorem Safe.extends (hσ : WellBound σ) {op : Op} (hl : WellFormed op.left) (hr : WellFormed op.right)
    (h : op.Safe σ) (hop : op.Runs σ σ') : Extends σ σ' := by
  cases op with
  | unify a b =>
      obtain ⟨d, ok, hu⟩ := hop
      obtain ⟨ok', σ'', hu', hs⟩ := rowUnify_spec hσ hl hr h.left h.right 0
      obtain ⟨rfl, rfl⟩ := Prod.mk.inj (rowUnify_unique hu hu')
      exact Unified.extends hs (rowFlatten_spec hσ hl h.left).1 (rowFlatten_spec hσ hr h.right).1 h.shares
  | union a b =>
      obtain ⟨d, r, hu⟩ := hop
      obtain ⟨r', σ'', hu', hs⟩ := rowUnion_spec hσ hl hr h.left h.right 0
      obtain ⟨rfl, rfl⟩ := Prod.mk.inj (rowUnion_unique hu hu')
      cases hs with
      | refused => exact .same
      | covers hext => exact hext

theorem SafeRun.invariant (h : SafeRun σ) : WellBound σ ∧ Acyclic (Follows (bound σ)) := by
  induction h with
  | start => exact ⟨wellBound_none, acyclic_of_increasing (f := id) (by rintro x y ⟨w, hw⟩; cases hw)⟩
  | call op _ hl hr hsafe hop ih =>
      have hext := Safe.extends ih.1 hl hr hsafe hop
      exact ⟨hext.wellBound ih.1, hext.acyclic ih.2⟩

/-- In every run of safe calls the substitution stays acyclic, so that reading
and grounding rows ends without the hop limits. -/
theorem substitution_acyclic (h : SafeRun σ) : Coherent σ :=
  coherent_of_acyclic h.invariant.1 h.invariant.2

theorem substitution_acyclic_call : Coherent (some [(1, .row [1] .empty)]) :=
  substitution_acyclic (.call (.unify (.row [] (.var 1)) (.row [1] .empty)) .start (.openTail [] 1)
    (.closed (by simp)) ⟨by decide, by decide, by rintro ⟨_, _, h, -⟩; cases h⟩ ⟨2, true, by decide⟩)

/-- One call binds a variable to a row that ends in it: the branches for labels
left over on one side make no occurs check. -/
theorem substitution_cyclic : ∃ σ, Run σ ∧ ¬ Coherent σ := by
  refine ⟨some [(1, .row [2] (.var 1))], .call (.unify (.row [1] (.var 1)) (.row [1, 2] (.var 1)))
    .start (.openTail [1] 1) (.openTail [1, 2] 1) ⟨2, true, by decide⟩, fun h => ?_⟩
  exact h.acyclic 1 (.single ⟨{2}, by decide⟩)

end Runs

end Ore.EffectRowRuns
