import Ore.BindingGraph
import Ore.EffectRows
import Ore.InternKeys

namespace Ore.TypeHoles

open BindingGraph EffectRows InternKeys Relation

/-- What the type functions read of an interned index. All other indices, those
of nominal types and of values, are told apart by `other` alone. -/
inductive Ty where
  | none
  | prim (p : Primitive)
  | var (id : Nat)
  | optional (elem : Ty)
  | ptr (elem : Ty) (isConst : Bool)
  | slice (elem : Ty) (isConst : Bool)
  | manyPtr (elem : Ty) (isConst : Bool)
  | array (elem : Ty) (size : Nat)
  | fn (ret : Ty) (params : List Ty) (modifiers comptimeBits typevaluedBits : Nat) (effectRow : Row)
  | other (index : Nat)

namespace Ty

def varId : Ty → Option Nat
  | .var i => some i
  | _ => .none

/-- The component types the recursive walkers enter. -/
def children : Ty → List Ty
  | .optional e | .ptr e _ | .slice e _ | .manyPtr e _ | .array e _ => [e]
  | .fn ret params _ _ _ _ => ret :: params
  | _ => []

theorem sizeOf_child {c t : Ty} (h : c ∈ t.children) : sizeOf c < sizeOf t := by
  cases t with
  | none | prim | var | other => simp [children] at h
  | optional | ptr | slice | manyPtr | array =>
      simp only [children, List.mem_singleton] at h
      subst h
      simp <;> omega
  | fn ret params =>
      simp only [children, List.mem_cons] at h
      rcases h with rfl | hc
      · simp
        omega
      · have := List.sizeOf_lt_of_mem hc
        simp
        omega

theorem inductOn {P : Ty → Prop} (step : ∀ t, (∀ c ∈ t.children, P c) → P t) (t : Ty) : P t :=
  step t fun c hc => have := sizeOf_child hc; inductOn step c
termination_by sizeOf t

mutual

/-- Types are canonical: equal indices are equal keys. -/
def same : Ty → Ty → Bool
  | .none, .none => true
  | .prim p, .prim p' => p = p'
  | .var i, .var i' => i = i'
  | .optional e, .optional e' => same e e'
  | .ptr e k, .ptr e' k' | .slice e k, .slice e' k' | .manyPtr e k, .manyPtr e' k' => same e e' && k == k'
  | .array e n, .array e' n' => same e e' && n == n'
  | .fn r ps m c v row, .fn r' ps' m' c' v' row' =>
      same r r' && sameAll ps ps' && m == m' && c == c' && v == v' && decide (row = row')
  | .other i, .other i' => i = i'
  | _, _ => false

def sameAll : List Ty → List Ty → Bool
  | [], [] => true
  | t :: ts, t' :: ts' => same t t' && sameAll ts ts'
  | _, _ => false

end

theorem sameAll_iff {ts : List Ty} (h : ∀ t ∈ ts, ∀ u, same t u = true ↔ t = u) (us : List Ty) :
    sameAll ts us = true ↔ ts = us := by
  induction ts generalizing us with
  | nil => cases us <;> simp [sameAll]
  | cons t ts ih =>
      cases us with
      | nil => simp [sameAll]
      | cons u us =>
          have ht := h t List.mem_cons_self u
          have hts := ih (fun v hv => h v (List.mem_cons_of_mem _ hv)) us
          simp [sameAll, ht, hts]

theorem same_iff (t u : Ty) : same t u = true ↔ t = u := by
  induction t using inductOn generalizing u with
  | step t ih =>
      cases t with
      | none | prim | var | other => cases u <;> simp [same]
      | optional e | ptr e | slice e | manyPtr e | array e =>
          have he := ih e (by simp [children])
          cases u <;> simp [same, he]
      | fn r ps =>
          have hr := ih r (by simp [children])
          have hps : ∀ us, sameAll ps us = true ↔ ps = us :=
            sameAll_iff fun p hp => ih p (by simp [children, hp])
          cases u <;> simp [same, hr, hps, and_assoc]

instance : DecidableEq Ty := fun t u => decidable_of_iff _ (same_iff t u)

mutual

def holes : Ty → List Nat
  | .var i => [i]
  | .optional e | .ptr e _ | .slice e _ | .manyPtr e _ | .array e _ => holes e
  | .fn ret params _ _ _ _ => holes ret ++ holesAll params
  | _ => []

def holesAll : List Ty → List Nat
  | [] => []
  | t :: ts => holes t ++ holesAll ts

end

theorem mem_holesAll {i : Nat} {ts : List Ty} : i ∈ holesAll ts ↔ ∃ t ∈ ts, i ∈ holes t := by
  induction ts with
  | nil => simp [holesAll]
  | cons t ts ih => simp [holesAll, ih]

theorem holes_child {c t : Ty} (h : c ∈ t.children) {i : Nat} (hi : i ∈ c.holes) : i ∈ t.holes := by
  cases t with
  | none | prim | var | other => simp [children] at h
  | optional | ptr | slice | manyPtr | array =>
      simp only [children, List.mem_singleton] at h
      subst h
      simpa [holes] using hi
  | fn ret params =>
      simp only [children, List.mem_cons] at h
      simp only [holes, List.mem_append, mem_holesAll]
      rcases h with rfl | hc
      · exact .inl hi
      · exact .inr ⟨c, hc, hi⟩

end Ty

/-- The bindings of the holes, newest first. -/
abbrev TypeSubst := List (Nat × Ty)

/-- A binding to IP_NONE is stored as the null pointer and reads as unbound. -/
def binding (σ : TypeSubst) (id : Nat) : Option Ty :=
  match σ.lookup id with
  | some .none => none
  | r => r

def typeSubstBind (σ : TypeSubst) (id : Nat) (bound : Ty) : TypeSubst := (id, bound) :: σ

def chase (σ : TypeSubst) : Nat → Ty → Ty
  | 0, idx => idx
  | hops + 1, .var id => match binding σ id with
    | none => .var id
    | some bound => chase σ hops bound
  | _ + 1, idx => idx

def typeResolve (σ : TypeSubst) (idx : Ty) : Ty := chase σ 64 idx

/-- `depth` bounds the calls on components, `none` when it is used up. -/
def applyTypeSubst : Nat → TypeSubst → Ty → Option Ty
  | 0, _, _ => none
  | depth + 1, σ, t => match typeResolve σ t with
    | .optional e => (applyTypeSubst depth σ e).map .optional
    | .ptr e isConst => (applyTypeSubst depth σ e).map (.ptr · isConst)
    | .slice e isConst => (applyTypeSubst depth σ e).map (.slice · isConst)
    | .manyPtr e isConst => (applyTypeSubst depth σ e).map (.manyPtr · isConst)
    | .array e size => (applyTypeSubst depth σ e).map (.array · size)
    | .fn ret params modifiers comptimeBits typevaluedBits effectRow => do
        let ret ← applyTypeSubst depth σ ret
        let params ← params.mapM (applyTypeSubst depth σ)
        return .fn ret params modifiers comptimeBits typevaluedBits effectRow
    | t => some t

def anyHole (holed : Ty → Option Bool) : List Ty → Option Bool
  | [] => some false
  | t :: ts => match holed t with
    | some false => anyHole holed ts
    | r => r

def sigHasUnboundHole : Nat → TypeSubst → Ty → Option Bool
  | 0, _, _ => none
  | depth + 1, σ, t => match typeResolve σ t with
    | .var _ => some true
    | r => anyHole (sigHasUnboundHole depth σ) r.children

def groundUnboundTypeVars : Nat → TypeSubst → Ty → Option TypeSubst
  | 0, _, _ => none
  | depth + 1, σ, t => match typeResolve σ t with
    | .var id => some (typeSubstBind σ id (.prim .error))
    | r => r.children.foldlM (groundUnboundTypeVars depth) σ

end Ore.TypeHoles
