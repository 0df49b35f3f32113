import Mathlib.Data.Set.Finite.Basic
import Mathlib.Data.Multiset.AddSub

namespace Ore.BindingGraph

open Relation

section Graph

variable {V : Type*} {next : V → V → Prop} {v : V} {occurs : V → Prop}

/-- No variable is reached from its own binding. -/
def Acyclic (next : V → V → Prop) : Prop := ∀ v, ¬ TransGen next v v

/-- The graph after `v` is bound to a term in which `occurs` holds of the variables. -/
def Rebound (next : V → V → Prop) (v : V) (occurs : V → Prop) (x y : V) : Prop :=
  (x = v ∧ occurs y) ∨ (x ≠ v ∧ next x y)

theorem Rebound.reaches {x : V} (h : ReflTransGen (Rebound next v occurs) x v) :
    ReflTransGen next x v := by
  induction h using ReflTransGen.head_induction_on with
  | refl => exact .refl
  | head hs _ ih =>
      rcases hs with ⟨rfl, _⟩ | ⟨_, hn⟩
      · exact .refl
      · exact .head hn ih

theorem Rebound.avoids_or_passes {x y : V} (h : TransGen (Rebound next v occurs) x y) :
    TransGen next x y ∨
      (ReflTransGen (Rebound next v occurs) x v ∧ TransGen (Rebound next v occurs) v y) := by
  induction h with
  | single hs =>
      rcases hs with ⟨rfl, ho⟩ | ⟨_, hn⟩
      · exact .inr ⟨.refl, .single (.inl ⟨rfl, ho⟩)⟩
      · exact .inl (.single hn)
  | tail hp hs ih =>
      rcases ih with hl | ⟨hv, hr⟩
      · rcases hs with ⟨rfl, ho⟩ | ⟨_, hn⟩
        · exact .inr ⟨hp.to_reflTransGen, .single (.inl ⟨rfl, ho⟩)⟩
        · exact .inl (hl.tail hn)
      · exact .inr ⟨hv, hr.tail hs⟩

/-- The occurs check: binding `v` to a term that does not reach `v` closes no cycle. -/
theorem Acyclic.rebind (h : Acyclic next)
    (hv : ∀ y, occurs y → ¬ ReflTransGen next y v) : Acyclic (Rebound next v occurs) := by
  intro x hx
  have hcycle : TransGen (Rebound next v occurs) v v := by
    rcases Rebound.avoids_or_passes hx with hl | ⟨hxv, hvx⟩
    · exact absurd hl (h x)
    · exact hvx.trans_left hxv
  obtain ⟨y, hs, hy⟩ := TransGen.head'_iff.mp hcycle
  rcases hs with ⟨_, ho⟩ | ⟨hne, _⟩
  · exact hv y ho (Rebound.reaches hy)
  · exact hne rfl

theorem Rebound.of_reaches {x : V} (h : ReflTransGen next x v) :
    ReflTransGen (Rebound next v occurs) x v := by
  induction h using ReflTransGen.head_induction_on with
  | refl => exact .refl
  | @head x _ hs _ ih =>
      by_cases hx : x = v
      · rw [hx]
      · exact .head (.inr ⟨hx, hs⟩) ih

theorem Acyclic.rebind_iff (h : Acyclic next) :
    Acyclic (Rebound next v occurs) ↔ ∀ y, occurs y → ¬ ReflTransGen next y v := by
  refine ⟨fun hacyc y hy hreach => ?_, h.rebind⟩
  exact hacyc v (.head' (.inl ⟨rfl, hy⟩) (Rebound.of_reaches hreach))

theorem acyclic_of_increasing {f : V → Nat} (h : ∀ x y, next x y → f x < f y) : Acyclic next := by
  have hlt : ∀ x y, TransGen next x y → f x < f y := by
    intro x y hxy
    induction hxy with
    | single hs => exact h _ _ hs
    | tail _ hs ih => exact ih.trans (h _ _ hs)
  exact fun v hv => Nat.lt_irrefl _ (hlt v v hv)

/-- Finitely many bindings without a cycle are followed only finitely often. -/
theorem Acyclic.wellFounded (h : Acyclic next) (hfin : {v | ∃ u, next v u}.Finite) :
    WellFounded (fun u v => next v u) := by
  let S := {v | ∃ u, next v u}
  have : Finite S := hfin
  let below : S → S → Prop := fun u v => TransGen next v.1 u.1
  have : IsTrans S below := ⟨fun _ _ _ hab hbc => hbc.trans hab⟩
  have : Std.Irrefl below := ⟨fun a ha => h a.1 ha⟩
  have hwf : WellFounded below := Finite.wellFounded_of_trans_of_irrefl below
  have hacc : ∀ a : S, Acc (fun u v => next v u) a.1 := by
    intro a
    induction a using hwf.induction with
    | _ a ih =>
        refine ⟨_, fun u hu => ?_⟩
        by_cases hs : u ∈ S
        · exact ih ⟨u, hs⟩ (.single hu)
        · exact ⟨_, fun w hw => absurd ⟨w, hw⟩ hs⟩
  refine ⟨fun v => ⟨_, fun u hu => ?_⟩⟩
  by_cases hs : u ∈ S
  · exact hacc ⟨u, hs⟩
  · exact ⟨_, fun w hw => absurd ⟨w, hw⟩ hs⟩

end Graph

section Chains

variable {V L : Type*}

/-- A binding of a chain carries labels and at most one further variable. -/
abbrev Chains (V L : Type*) := V → Option (Multiset L × Option V)

variable {bound : Chains V L}

def Follows (bound : Chains V L) (v u : V) : Prop := ∃ w, bound v = some (w, some u)

/-- The chain from a tail read in full: the labels on the way and the unbound
variable at its end, if it is not closed. -/
inductive Reads (bound : Chains V L) : Option V → Multiset L → Option V → Prop
  | closed : Reads bound none 0 none
  | free {v : V} (h : bound v = none) : Reads bound (some v) 0 (some v)
  | step {v : V} {t e : Option V} {w w' : Multiset L} (h : bound v = some (w, t))
      (hr : Reads bound t w' e) : Reads bound (some v) (w + w') e

theorem Reads.unique {s e e' : Option V} {w w' : Multiset L} (h : Reads bound s w e)
    (h' : Reads bound s w' e') : w = w' ∧ e = e' := by
  induction h generalizing w' e' with
  | closed => cases h'; exact ⟨rfl, rfl⟩
  | free hb =>
      cases h' with
      | free => exact ⟨rfl, rfl⟩
      | step hb' => simp [hb] at hb'
  | step hb _ ih =>
      cases h' with
      | free hb' => simp [hb] at hb'
      | step hb' hr' =>
          obtain ⟨rfl, rfl⟩ := Prod.mk.inj (Option.some.inj (hb.symm.trans hb'))
          obtain ⟨rfl, rfl⟩ := ih hr'
          exact ⟨rfl, rfl⟩

theorem Reads.end_free {s : Option V} {w : Multiset L} {v : V} (h : Reads bound s w (some v)) :
    bound v = none := by
  generalize he : some v = e at h
  induction h with
  | closed => cases he
  | free hb => cases he; exact hb
  | step _ _ ih => exact ih he

theorem Reads.reaches {v u : V} {w : Multiset L} (h : Reads bound (some v) w (some u)) :
    Relation.ReflTransGen (Follows bound) v u := by
  generalize hs : some v = s at h
  generalize he : some u = e at h
  induction h generalizing v with
  | closed => cases hs
  | free _ => cases hs; cases he; exact .refl
  | @step x t _ w _ hb _ ih =>
      cases hs
      cases t with
      | none => rename_i hr; cases hr; cases he
      | some y => exact .head ⟨w, hb⟩ (ih rfl he)

theorem Reads.suffix {v x : V} {w : Multiset L} {e : Option V} (hx : Relation.ReflTransGen (Follows bound) x v)
    (h : Reads bound (some x) w e) : ∃ w', w' ≤ w ∧ Reads bound (some v) w' e := by
  induction hx using Relation.ReflTransGen.head_induction_on generalizing w with
  | refl => exact ⟨w, le_rfl, h⟩
  | head hs _ ih =>
      obtain ⟨u, hu⟩ := hs
      cases h with
      | free hb => simp [hu] at hb
      | step hb hr =>
          obtain ⟨rfl, rfl⟩ := Prod.mk.inj (Option.some.inj (hu.symm.trans hb))
          obtain ⟨w', hle, hw'⟩ := ih hr
          exact ⟨w', hle.trans (Multiset.le_add_left _ _), hw'⟩

theorem Reads.not_of_self {v : V} {w : Multiset L} (hv : bound v = some (w, some v)) {u : Multiset L}
    {e : Option V} : ¬ Reads bound (some v) u e := by
  intro h
  generalize hs : some v = s at h
  induction h with
  | closed => cases hs
  | free hb => cases hs; simp [hv] at hb
  | step hb _ ih =>
      cases hs
      obtain ⟨rfl, rfl⟩ := Prod.mk.inj (Option.some.inj (hv.symm.trans hb))
      exact ih rfl

theorem exists_reads (hwf : WellFounded (fun u v => Follows bound v u)) (s : Option V) :
    ∃ w e, Reads bound s w e := by
  cases s with
  | none => exact ⟨_, _, .closed⟩
  | some v =>
      induction v using hwf.induction with
      | _ v ih =>
          match hb : bound v with
          | none => exact ⟨_, _, .free hb⟩
          | some (w, none) => exact ⟨_, _, .step hb .closed⟩
          | some (w, some u) =>
              obtain ⟨w', e, hr⟩ := ih u ⟨w, hb⟩
              exact ⟨_, _, .step hb hr⟩

variable [DecidableEq V]

/-- Binding the unbound `v` lengthens the chains that end there and no other. -/
theorem Reads.rebind {v : V} {t e' : Option V} {w w' : Multiset L} (hv : bound v = none)
    (ht : Reads bound t w' e') (hne : e' ≠ some v) {s e : Option V} {u : Multiset L}
    (h : Reads bound s u e) :
    Reads (Function.update bound v (some (w, t)))
      s (if e = some v then u + (w + w') else u) (if e = some v then e' else e) := by
  have hkeep : ∀ {s e u}, Reads bound s u e → e ≠ some v →
      Reads (Function.update bound v (some (w, t))) s u e := by
    intro s e u h he
    induction h with
    | closed => exact .closed
    | @free x hb =>
        have hx : x ≠ v := fun hx => he (hx ▸ rfl)
        exact .free (by rw [Function.update_of_ne hx, hb])
    | @step x _ _ _ _ hb _ ih =>
        have hx : x ≠ v := by rintro rfl; simp [hv] at hb
        exact .step (by rw [Function.update_of_ne hx, hb]) (ih he)
  by_cases he : e = some v
  · subst he
    simp only [if_true]
    generalize hs : some v = e at h
    induction h with
    | closed => cases hs
    | free _ =>
        cases hs
        simpa using Reads.step (Function.update_self v (some (w, t)) bound) (hkeep ht hne)
    | @step x _ _ w₁ w₂ hb _ ih =>
        have hx : x ≠ v := by rintro rfl; simp [hv] at hb
        rw [Multiset.add_assoc]
        exact .step (by rw [Function.update_of_ne hx, hb]) (ih hs)
  · simp only [he, if_false]
    exact hkeep h he

end Chains

end Ore.BindingGraph
