import Ore.TypeHoles

namespace Ore.TypeHoleCycles

open BindingGraph InternKeys TypeHoles Relation

variable {σ σ' : TypeSubst}

/-- A hole is bound to a type that contains the other. -/
def Follows (σ : TypeSubst) (v u : Nat) : Prop := ∃ t, binding σ v = some t ∧ u ∈ t.holes

section Bindings

theorem binding_bind (id : Nat) {t : Ty} (ht : t ≠ .none) (i : Nat) :
    binding (typeSubstBind σ id t) i = if i = id then some t else binding σ i := by
  by_cases hi : i = id
  · subst hi
    cases t <;> simp_all [binding, typeSubstBind]
  · have hne : (i == id) = false := by simp [hi]
    simp [binding, typeSubstBind, List.lookup_cons, hne, hi]

theorem binding_unbind (id i : Nat) :
    binding (typeSubstBind σ id .none) i = if i = id then none else binding σ i := by
  by_cases hi : i = id
  · subst hi
    simp [binding, typeSubstBind]
  · have hne : (i == id) = false := by simp [hi]
    simp [binding, typeSubstBind, List.lookup_cons, hne, hi]

theorem follows_bind (id : Nat) (t : Ty) :
    Follows (typeSubstBind σ id t) = Rebound (Follows σ) id (· ∈ t.holes) := by
  funext x y
  by_cases ht : t = .none
  · subst ht
    by_cases hx : x = id <;> simp [Follows, Rebound, binding_unbind, hx, Ty.holes]
  · by_cases hx : x = id <;> simp [Follows, Rebound, binding_bind id ht, hx]

theorem bind_acyclic_iff (h : Acyclic (Follows σ)) (id : Nat) (t : Ty) :
    Acyclic (Follows (typeSubstBind σ id t)) ↔ ∀ i ∈ t.holes, ¬ ReflTransGen (Follows σ) i id := by
  rw [follows_bind]
  exact h.rebind_iff

theorem finite_bindings (σ : TypeSubst) : {i | ∃ u, Follows σ i u}.Finite := by
  refine Set.Finite.subset (List.finite_toSet (σ.map Prod.fst)) ?_
  rintro i ⟨u, t, hi, -⟩
  have hlook : σ.lookup i ≠ none := by
    intro hn
    simp [binding, hn] at hi
  obtain ⟨r, hr⟩ := Option.ne_none_iff_exists'.mp hlook
  obtain ⟨l₁, l₂, hl, -⟩ := List.lookup_eq_some_iff.mp hr
  simp [hl]

theorem chase_follows (n i : Nat) :
    chase σ n (.var i) = .var i ∨
      ∃ j, ReflTransGen (Follows σ) i j ∧ binding σ j = some (chase σ n (.var i)) := by
  induction n generalizing i with
  | zero => exact .inl rfl
  | succ n ih =>
      cases hb : binding σ i with
      | none => exact .inl (by simp [chase, hb])
      | some t =>
          have hstep : chase σ (n + 1) (.var i) = chase σ n t := by simp [chase, hb]
          rw [hstep]
          cases t with
          | var k =>
              have hfollow : Follows σ i k := ⟨_, hb, by simp [Ty.holes]⟩
              rcases ih k with hk | ⟨j, hj, hbj⟩
              · exact .inr ⟨i, .refl, by rw [hk, hb]⟩
              · exact .inr ⟨j, .head hfollow hj, hbj⟩
          | _ => exact .inr ⟨i, .refl, by rw [hb]; cases n <;> rfl⟩

theorem typeResolve_of_varId {t : Ty} (h : t.varId = none) : typeResolve σ t = t := by
  cases t <;> first | rfl | simp [Ty.varId] at h

end Bindings

section Walkers

/-- The types a walker enters from `t`. -/
def Enters (σ : TypeSubst) (u t : Ty) : Prop := u ∈ (typeResolve σ t).children

theorem acc_of_holes {t : Ty} (h : ∀ i ∈ t.holes, Acc (Enters σ) (.var i)) : Acc (Enters σ) t := by
  induction t using Ty.inductOn with
  | step t ih =>
      cases hv : t.varId with
      | some i =>
          cases t <;> simp_all [Ty.varId, Ty.holes]
      | none =>
          refine ⟨_, fun u hu => ?_⟩
          rw [Enters, typeResolve_of_varId hv] at hu
          exact ih u hu fun i hi => h i (Ty.holes_child hu hi)

/-- Without a cycle every type is entered only finitely deep. -/
theorem enters_wellFounded (h : Acyclic (Follows σ)) : WellFounded (Enters σ) := by
  have hwf := (h.wellFounded (finite_bindings σ)).transGen
  have hvar : ∀ i, Acc (Enters σ) (.var i) := by
    intro i
    induction i using hwf.induction with
    | _ i ih =>
        refine ⟨_, fun u hu => ?_⟩
        rcases chase_follows (σ := σ) 64 i with hi | ⟨j, hij, hj⟩
        · rw [Enters, typeResolve, hi] at hu
          cases hu
        · refine acc_of_holes fun k hk => ih k (transGen_swap.mpr ?_)
          exact .tail' hij ⟨_, hj, Ty.holes_child hu hk⟩
  exact ⟨fun t => acc_of_holes fun i _ => hvar i⟩

/-- True from some depth on. -/
def Ends (p : Nat → Prop) : Prop := ∃ d₀, ∀ d, d₀ ≤ d → p d

theorem Ends.succ {p : Nat → Prop} (h : Ends fun d => p (d + 1)) : Ends p := by
  obtain ⟨d₀, h⟩ := h
  refine ⟨d₀ + 1, fun d hd => ?_⟩
  obtain ⟨e, rfl⟩ : ∃ e, d = e + 1 := ⟨d - 1, by omega⟩
  exact h e (by omega)

theorem Ends.forall_mem {α : Type*} {p : α → Nat → Prop} {l : List α} (h : ∀ a ∈ l, Ends (p a)) :
    Ends fun d => ∀ a ∈ l, p a d := by
  induction l with
  | nil => exact ⟨0, by simp⟩
  | cons a l ih =>
      obtain ⟨d₁, h₁⟩ := h a List.mem_cons_self
      obtain ⟨d₂, h₂⟩ := ih fun b hb => h b (List.mem_cons_of_mem _ hb)
      refine ⟨max d₁ d₂, fun d hd b hb => ?_⟩
      rcases List.mem_cons.mp hb with rfl | hb
      · exact h₁ d (le_trans (le_max_left _ _) hd)
      · exact h₂ d (le_trans (le_max_right _ _) hd) b hb

theorem Ends.mono {p q : Nat → Prop} (h : Ends p) (himp : ∀ d, p d → q d) : Ends q := by
  obtain ⟨d₀, h⟩ := h
  exact ⟨d₀, fun d hd => himp d (h d hd)⟩

theorem walker_ends (h : Acyclic (Follows σ)) (returns : Nat → Ty → Prop)
    (hstep : ∀ d t, (∀ u ∈ (typeResolve σ t).children, returns d u) → returns (d + 1) t) (t : Ty) :
    Ends fun d => returns d t := by
  induction t using (enters_wellFounded h).induction with
  | _ t ih => exact .succ ((Ends.forall_mem fun u hu => ih u hu).mono fun d hd => hstep d t hd)

theorem mapM_isSome {f : Ty → Option Ty} {ts : List Ty} (h : ∀ t ∈ ts, (f t).isSome) :
    (ts.mapM f).isSome := by
  induction ts with
  | nil => rfl
  | cons t ts ih =>
      obtain ⟨u, hu⟩ := Option.isSome_iff_exists.mp (h t List.mem_cons_self)
      obtain ⟨us, hus⟩ := Option.isSome_iff_exists.mp (ih fun v hv => h v (List.mem_cons_of_mem _ hv))
      simp [hu, hus]

theorem anyHole_isSome {f : Ty → Option Bool} {ts : List Ty} (h : ∀ t ∈ ts, (f t).isSome) :
    (anyHole f ts).isSome := by
  induction ts with
  | nil => rfl
  | cons t ts ih =>
      obtain ⟨b, hb⟩ := Option.isSome_iff_exists.mp (h t List.mem_cons_self)
      have hts := ih fun v hv => h v (List.mem_cons_of_mem _ hv)
      cases b <;> simp [anyHole, hb, hts]

theorem applyTypeSubst_ends (h : Acyclic (Follows σ)) (t : Ty) :
    Ends fun d => (applyTypeSubst d σ t).isSome := by
  refine walker_ends h (fun d t => (applyTypeSubst d σ t).isSome) (fun d t hd => ?_) t
  rw [applyTypeSubst]
  cases hr : typeResolve σ t with
  | none | prim | var | other => rfl
  | optional e | ptr e | slice e | manyPtr e | array e =>
      simpa using hd e (by simp [hr, Ty.children])
  | fn ret params =>
      rw [hr] at hd
      obtain ⟨r, hret⟩ := Option.isSome_iff_exists.mp (hd ret (by simp [Ty.children]))
      have hparams : (params.mapM (applyTypeSubst d σ)).isSome :=
        mapM_isSome fun p hp => hd p (by simp [Ty.children, hp])
      obtain ⟨ps, hps⟩ := Option.isSome_iff_exists.mp hparams
      simp [hret, hps]

theorem sigHasUnboundHole_ends (h : Acyclic (Follows σ)) (t : Ty) :
    Ends fun d => (sigHasUnboundHole d σ t).isSome := by
  refine walker_ends h (fun d t => (sigHasUnboundHole d σ t).isSome) (fun d t hd => ?_) t
  rw [sigHasUnboundHole]
  split
  · rfl
  · exact anyHole_isSome hd

/-- Some holes have been ground since. -/
inductive Grounded (σ : TypeSubst) : TypeSubst → Prop
  | refl : Grounded σ σ
  | ground {σ' : TypeSubst} (id : Nat) (h : Grounded σ σ') :
      Grounded σ (typeSubstBind σ' id (.prim .error))

theorem Grounded.binding_eq (h : Grounded σ σ') (i : Nat) :
    binding σ' i = binding σ i ∨ binding σ' i = some (.prim .error) := by
  induction h with
  | refl => exact .inl rfl
  | ground id _ ih =>
      rw [binding_bind id (by simp)]
      split
      · exact .inr rfl
      · exact ih

theorem Grounded.chase_eq (h : Grounded σ σ') (n : Nat) (t : Ty) :
    chase σ' n t = chase σ n t ∨ chase σ' n t = .prim .error := by
  induction n generalizing t with
  | zero => exact .inl rfl
  | succ n ih =>
      cases t with
      | var i =>
          rcases h.binding_eq i with hb | hb
          · simp only [chase, hb]
            cases binding σ i with
            | none => exact .inl rfl
            | some t => exact ih t
          · right
            simp only [chase, hb]
            cases n <;> rfl
      | _ => exact .inl rfl

theorem Grounded.trans {σ'' : TypeSubst} (h : Grounded σ σ') (h' : Grounded σ' σ'') : Grounded σ σ'' := by
  induction h' with
  | refl => exact h
  | ground id _ ih => exact .ground id ih

theorem Grounded.acyclic (h : Grounded σ σ') (hσ : Acyclic (Follows σ)) : Acyclic (Follows σ') := by
  induction h with
  | refl => exact hσ
  | ground id _ ih => exact (bind_acyclic_iff ih id _).mpr (by simp [Ty.holes])

theorem foldlM_grounded {f : TypeSubst → Ty → Option TypeSubst} {ts : List Ty}
    (h : ∀ t ∈ ts, ∀ σ', Grounded σ σ' → ∃ σ'', f σ' t = some σ'' ∧ Grounded σ' σ'')
    (hσ : Grounded σ σ') :
    ∃ σ'', ts.foldlM f σ' = some σ'' ∧ Grounded σ' σ'' := by
  induction ts generalizing σ' with
  | nil => exact ⟨σ', rfl, .refl⟩
  | cons t ts ih =>
      obtain ⟨σ₁, h₁, hg₁⟩ := h t List.mem_cons_self σ' hσ
      obtain ⟨σ₂, h₂, hg₂⟩ := ih (fun u hu => h u (List.mem_cons_of_mem _ hu)) (hσ.trans hg₁)
      exact ⟨σ₂, by simp [h₁, h₂], hg₁.trans hg₂⟩

theorem grounded_of_ground {d : Nat} {t : Ty} (h : groundUnboundTypeVars d σ t = some σ') :
    Grounded σ σ' := by
  induction d generalizing σ σ' t with
  | zero => cases h
  | succ d ih =>
      have hall : ∀ (ts : List Ty) {τ τ' : TypeSubst},
          ts.foldlM (groundUnboundTypeVars d) τ = some τ' → Grounded τ τ' := by
        intro ts
        induction ts with
        | nil =>
            rintro τ τ' ⟨⟩
            exact .refl
        | cons t ts ihts =>
            intro τ τ' h
            obtain ⟨τ₁, h₁, h₂⟩ := Option.bind_eq_some_iff.mp h
            exact (ih h₁).trans (ihts h₂)
      rw [groundUnboundTypeVars] at h
      split at h
      · cases h
        exact .ground _ .refl
      · exact hall _ h

def GroundReturns (σ : TypeSubst) (d : Nat) (t : Ty) : Prop :=
  ∀ σ', Grounded σ σ' → ∃ σ'', groundUnboundTypeVars d σ' t = some σ'' ∧ Grounded σ' σ''

theorem groundUnboundTypeVars_ends (h : Acyclic (Follows σ)) (t : Ty) :
    Ends fun d => GroundReturns σ d t := by
  refine walker_ends h (GroundReturns σ) (fun d t hd σ' hσ => ?_) t
  rw [groundUnboundTypeVars]
  split
  · exact ⟨_, rfl, .ground _ .refl⟩
  · rcases hσ.chase_eq 64 t with ht | ht
    · rw [typeResolve, ht]
      exact foldlM_grounded hd hσ
    · rw [typeResolve, ht]
      exact ⟨σ', rfl, .refl⟩

/-- No hole is reached from its own binding, and the walkers return. -/
structure Coherent (σ : TypeSubst) : Prop where
  acyclic : Acyclic (Follows σ)
  applies : ∀ t, ∃ depth, (applyTypeSubst depth σ t).isSome
  detects : ∀ t, ∃ depth, (sigHasUnboundHole depth σ t).isSome
  grounds : ∀ t, ∃ depth, (groundUnboundTypeVars depth σ t).isSome

theorem coherent_of_acyclic (h : Acyclic (Follows σ)) : Coherent σ where
  acyclic := h
  applies t := (applyTypeSubst_ends h t).imp fun d hd => hd d le_rfl
  detects t := (sigHasUnboundHole_ends h t).imp fun d hd => hd d le_rfl
  grounds t := by
    obtain ⟨d, hd⟩ := groundUnboundTypeVars_ends h t
    obtain ⟨σ', hσ', -⟩ := hd d le_rfl σ .refl
    exact ⟨d, by rw [hσ']; rfl⟩

end Walkers

end Ore.TypeHoleCycles
