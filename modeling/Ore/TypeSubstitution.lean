import Ore.TypeHoleCycles

namespace Ore.TypeSubstitution

open BindingGraph InternKeys TypeHoles TypeHoleCycles

section Rebuild

def rebuild : Ty → List Ty → Ty
  | .optional _, [e] => .optional e
  | .ptr _ isConst, [e] => .ptr e isConst
  | .slice _ isConst, [e] => .slice e isConst
  | .manyPtr _ isConst, [e] => .manyPtr e isConst
  | .array _ size, [e] => .array e size
  | .fn _ _ modifiers comptimeBits typevaluedBits row, ret :: params =>
      .fn ret params modifiers comptimeBits typevaluedBits row
  | t, _ => t

variable {t u : Ty} {cs : List Ty} {i : Nat}

theorem rebuild_children (t : Ty) : rebuild t t.children = t := by
  cases t <;> rfl

theorem children_rebuild (h : cs.length = t.children.length) : (rebuild t cs).children = cs := by
  cases t with
  | none | prim | var | other =>
      obtain rfl := List.length_eq_zero_iff.mp h
      rfl
  | optional | ptr | slice | manyPtr | array =>
      obtain ⟨e, rfl⟩ := List.length_eq_one_iff.mp h
      rfl
  | fn =>
      cases cs with
      | nil => cases h
      | cons ret params => rfl

theorem varId_rebuild (h : cs.length = t.children.length) : (rebuild t cs).varId = t.varId := by
  cases t with
  | none | prim | var | other =>
      obtain rfl := List.length_eq_zero_iff.mp h
      rfl
  | optional | ptr | slice | manyPtr | array =>
      obtain ⟨e, rfl⟩ := List.length_eq_one_iff.mp h
      rfl
  | fn =>
      cases cs with
      | nil => cases h
      | cons ret params => rfl

/-- A hole of a type is the type itself or one of a component. -/
theorem mem_holes : i ∈ t.holes ↔ t.varId = some i ∨ ∃ c ∈ t.children, i ∈ c.holes := by
  cases t <;> simp [Ty.holes, Ty.varId, Ty.children, Ty.mem_holesAll, eq_comm]

end Rebuild

section Chains

variable {σ : TypeSubst} {t u : Ty} {n i j : Nat}

/-- A chain of holes bound to holes. -/
inductive HoleChain (σ : TypeSubst) : Nat → Nat → Prop
  | single (i : Nat) : HoleChain σ 0 i
  | cons {n i j : Nat} (h : binding σ i = some (.var j)) (rest : HoleChain σ n j) : HoleChain σ (n + 1) i

/-- The chains of holes are shorter than the hop cap. -/
def ShortChains (σ : TypeSubst) : Prop := ∀ n i, HoleChain σ n i → n < 64

theorem holeChain_of_chase {u : Ty} (h : chase σ n (.var i) = .var j) (hj : binding σ j = some u) :
    HoleChain σ n i := by
  induction n generalizing i with
  | zero => exact .single i
  | succ n ih =>
      cases hb : binding σ i with
      | none =>
          have hij : i = j := by simpa [chase, hb] using h
          rw [hij, hj] at hb
          cases hb
      | some t =>
          have hnext : chase σ n t = .var j := by simpa [chase, hb] using h
          cases t with
          | var k => exact .cons hb (ih hnext)
          | _ => cases n <;> cases hnext

theorem typeResolve_unbound (h : ShortChains σ) (hi : (typeResolve σ t).varId = some i) : binding σ i = none := by
  have hr : typeResolve σ t = .var i := by
    cases hr : typeResolve σ t <;> rw [hr] at hi <;> cases hi
    rfl
  cases t with
  | var k =>
      cases hb : binding σ i with
      | none => rfl
      | some u => exact absurd (h 64 k (holeChain_of_chase hr hb)) (lt_irrefl 64)
  | _ => cases hr

theorem typeResolve_of_unbound (h : ∀ i, t.varId = some i → binding σ i = none) : typeResolve σ t = t := by
  cases t with
  | var i => simp [typeResolve, chase, h i rfl]
  | _ => rfl

end Chains

section Sharing

/-- The loop over the parameters of a function type. The new array is made at
the first parameter that changes, with those before it copied. -/
def substParams (subst : Ty → Option Ty) (params : List Ty) : List Ty → Nat → Option (List Ty) →
    Option (Option (List Ty))
  | [], _, newParams => some newParams
  | p :: rest, i, newParams => do
      let sub ← subst p
      let newParams := if sub ≠ p ∧ newParams = none then some (params.take i) else newParams
      substParams subst params rest (i + 1) (newParams.map (· ++ [sub]))

/-- `apply_type_subst` with its fast paths: a type none of whose components
changes is returned as it is. -/
def applyShared : Nat → TypeSubst → Ty → Option Ty
  | 0, _, _ => none
  | depth + 1, σ, t =>
    if t = .none then some t
    else match typeResolve σ t with
    | .optional elem => (applyShared depth σ elem).map fun e =>
        if e = elem then .optional elem else .optional e
    | .ptr elem isConst => (applyShared depth σ elem).map fun e =>
        if e = elem then .ptr elem isConst else .ptr e isConst
    | .slice elem isConst => (applyShared depth σ elem).map fun e =>
        if e = elem then .slice elem isConst else .slice e isConst
    | .manyPtr elem isConst => (applyShared depth σ elem).map fun e =>
        if e = elem then .manyPtr elem isConst else .manyPtr e isConst
    | .array elem size => (applyShared depth σ elem).map fun e =>
        if e = elem then .array elem size else .array e size
    | .fn ret params modifiers comptimeBits typevaluedBits row => do
        let newRet ← applyShared depth σ ret
        let newParams ← substParams (applyShared depth σ) params params 0 none
        if newRet = ret ∧ newParams = none then
          return .fn ret params modifiers comptimeBits typevaluedBits row
        else return .fn newRet (newParams.getD params) modifiers comptimeBits typevaluedBits row
    | t => some t

variable {σ : TypeSubst} {subst : Ty → Option Ty} {params before rest : List Ty}

theorem substParams_eq (hparams : params = before ++ rest) {done : List Ty} {newParams : Option (List Ty)}
    (hdone : newParams.getD before = done) :
    (substParams subst params rest before.length newParams).map (·.getD params) =
      (rest.mapM subst).map (done ++ ·) := by
  induction rest generalizing before done newParams with
  | nil =>
      cases newParams <;> simp_all [substParams]
  | cons p rest ih =>
      simp only [substParams, List.mapM_cons]
      cases hsub : subst p with
      | none => rfl
      | some sub =>
          have hlen : before.length + 1 = (before ++ [p]).length := by simp
          simp only [Option.bind_eq_bind, Option.bind_some, hlen]
          rw [ih (by rw [hparams, List.append_assoc]; rfl)
            (show Option.getD _ (before ++ [p]) = done ++ [sub] from ?_)]
          · cases rest.mapM subst <;> simp
          · cases newParams with
            | some l => simp_all
            | none =>
                obtain rfl : before = done := hdone
                by_cases hp : sub = p <;> simp [hp, hparams]

theorem substParams_map (subst : Ty → Option Ty) (params : List Ty) :
    (substParams subst params params 0 none).map (·.getD params) = params.mapM subst := by
  have h : (substParams subst params params ([] : List Ty).length none).map (·.getD params) =
      (params.mapM subst).map ([] ++ ·) :=
    substParams_eq (show params = [] ++ params from rfl) rfl
  simpa using h

theorem applyShared_eq (depth : Nat) (σ : TypeSubst) (t : Ty) : applyShared depth σ t = applyTypeSubst depth σ t := by
  induction depth generalizing t with
  | zero => rfl
  | succ depth ih =>
      rw [applyShared, applyTypeSubst, funext ih]
      split_ifs with hnone
      · subst hnone
        rfl
      · cases typeResolve σ t with
        | optional e | ptr e | slice e | manyPtr e | array e =>
            simp only
            congr 1
            funext u
            split_ifs with hu
            · rw [hu]
            · rfl
        | fn ret params =>
            simp only [← substParams_map (applyTypeSubst depth σ) params]
            cases applyTypeSubst depth σ ret with
            | none => rfl
            | some newRet =>
                cases substParams (applyTypeSubst depth σ) params params 0 none with
                | none => rfl
                | some newParams =>
                    simp
                    rintro rfl rfl
                    exact ⟨rfl, rfl⟩
        | _ => rfl

end Sharing

section Walkers

variable {σ : TypeSubst} {t u : Ty} {depth i : Nat}

theorem applyTypeSubst_succ (depth : Nat) (σ : TypeSubst) (t : Ty) :
    applyTypeSubst (depth + 1) σ t =
      ((typeResolve σ t).children.mapM (applyTypeSubst depth σ)).map (rebuild (typeResolve σ t)) := by
  rw [applyTypeSubst]
  cases typeResolve σ t with
  | none | prim | var | other => rfl
  | optional e | ptr e | slice e | manyPtr e | array e =>
      cases h : applyTypeSubst depth σ e <;> simp [Ty.children, h, rebuild]
  | fn ret params =>
      cases h : applyTypeSubst depth σ ret with
      | none => simp [Ty.children, h]
      | some r => cases h' : params.mapM (applyTypeSubst depth σ) <;> simp [Ty.children, h, h', rebuild]

theorem forall₂_of_mapM {f : Ty → Option Ty} {ts us : List Ty} (h : ts.mapM f = some us) :
    List.Forall₂ (fun t u => f t = some u) ts us := by
  induction ts generalizing us with
  | nil =>
      obtain rfl : [] = us := by simpa using h
      exact .nil
  | cons t ts ih =>
      cases ht : f t with
      | none => simp [ht] at h
      | some u =>
          cases hts : ts.mapM f with
          | none => simp [ht, hts] at h
          | some vs =>
              obtain rfl : u :: vs = us := by simpa [ht, hts] using h
              exact .cons ht (ih hts)

/-- What an application gives: the resolved type with its components replaced. -/
theorem applyTypeSubst_inv (h : applyTypeSubst (depth + 1) σ t = some u) :
    ∃ cs, List.Forall₂ (fun c c' => applyTypeSubst depth σ c = some c') (typeResolve σ t).children cs ∧
      cs.length = (typeResolve σ t).children.length ∧ u = rebuild (typeResolve σ t) cs := by
  rw [applyTypeSubst_succ] at h
  obtain ⟨cs, hcs, rfl⟩ := Option.map_eq_some_iff.mp h
  have hall := forall₂_of_mapM hcs
  exact ⟨cs, hall, hall.length_eq.symm, rfl⟩

theorem exists_of_forall₂ {R : Ty → Ty → Prop} {ts us : List Ty} (h : List.Forall₂ R ts us) {u : Ty} (hu : u ∈ us) :
    ∃ t ∈ ts, R t u := by
  induction h with
  | nil => cases hu
  | cons hR _ ih =>
      rcases List.mem_cons.mp hu with rfl | hu
      · exact ⟨_, List.mem_cons_self, hR⟩
      · obtain ⟨t, ht, hR⟩ := ih hu
        exact ⟨t, List.mem_cons_of_mem _ ht, hR⟩

theorem exists_right_of_forall₂ {R : Ty → Ty → Prop} {ts us : List Ty} (h : List.Forall₂ R ts us) {t : Ty}
    (ht : t ∈ ts) : ∃ u ∈ us, R t u := by
  induction h with
  | nil => cases ht
  | cons hR _ ih =>
      rcases List.mem_cons.mp ht with rfl | ht
      · exact ⟨_, List.mem_cons_self, hR⟩
      · obtain ⟨u, hu, hR⟩ := ih ht
        exact ⟨u, List.mem_cons_of_mem _ hu, hR⟩

theorem eq_of_forall₂ {R : Ty → Ty → Prop} {ts us : List Ty} (h : List.Forall₂ R ts us)
    (heq : ∀ t ∈ ts, ∀ u, R t u → u = t) : us = ts := by
  induction h with
  | nil => rfl
  | cons hR _ ih =>
      rw [heq _ List.mem_cons_self _ hR, ih fun t ht => heq t (List.mem_cons_of_mem _ ht)]

theorem applyTypeSubst_holes (hshort : ShortChains σ) (h : applyTypeSubst depth σ t = some u) :
    ∀ i ∈ u.holes, binding σ i = none := by
  induction depth generalizing t u with
  | zero => cases h
  | succ depth ih =>
      intro i hi
      obtain ⟨cs, hcs, hlen, rfl⟩ := applyTypeSubst_inv h
      rcases mem_holes.mp hi with hvar | ⟨c', hc', hic⟩
      · rw [varId_rebuild hlen] at hvar
        exact typeResolve_unbound hshort hvar
      · rw [children_rebuild hlen] at hc'
        obtain ⟨c, -, hc⟩ := exists_of_forall₂ hcs hc'
        exact ih hc i hic

theorem applyTypeSubst_unbound (hfree : ∀ i ∈ t.holes, binding σ i = none) (h : applyTypeSubst depth σ t = some u) :
    u = t := by
  induction depth generalizing t u with
  | zero => cases h
  | succ depth ih =>
      obtain ⟨cs, hcs, -, rfl⟩ := applyTypeSubst_inv h
      have hr : typeResolve σ t = t := typeResolve_of_unbound fun i hi => hfree i (mem_holes.mpr (.inl hi))
      rw [hr] at hcs ⊢
      have hsame : cs = t.children := eq_of_forall₂ hcs fun c hc c' hc' =>
        ih (fun i hi => hfree i (mem_holes.mpr (.inr ⟨c, hc, hi⟩))) hc'
      rw [hsame, rebuild_children]

theorem anyHole_eq {f : Ty → Option Bool} {P : Ty → Prop} {ts : List Ty} {b : Bool} (h : anyHole f ts = some b)
    (hf : ∀ t ∈ ts, ∀ b, f t = some b → (b = true ↔ P t)) : b = true ↔ ∃ t ∈ ts, P t := by
  induction ts with
  | nil =>
      cases h
      simp
  | cons t ts ih =>
      rw [anyHole] at h
      cases ht : f t with
      | none => simp [ht] at h
      | some b' =>
          have hP := hf t List.mem_cons_self b' ht
          cases b' with
          | true =>
              obtain rfl : true = b := by simpa [ht] using h
              exact iff_of_true rfl ⟨t, List.mem_cons_self, hP.mp rfl⟩
          | false =>
              have hts := ih (by simpa [ht] using h) fun u hu => hf u (List.mem_cons_of_mem _ hu)
              rw [hts]
              simpa using fun h => absurd (hP.mpr h) (by simp)

/-- The detector finds a hole exactly when the application keeps one. -/
theorem sigHasUnboundHole_iff {depth' : Nat} {b : Bool} (hdetect : sigHasUnboundHole depth σ t = some b)
    (h : applyTypeSubst depth' σ t = some u) : b = true ↔ ∃ i, i ∈ u.holes := by
  induction depth generalizing depth' t u b with
  | zero => cases hdetect
  | succ depth ih =>
      cases depth' with
      | zero => cases h
      | succ depth' =>
          obtain ⟨cs, hcs, hlen, rfl⟩ := applyTypeSubst_inv h
          have hholes : (∃ i, i ∈ (rebuild (typeResolve σ t) cs).holes) ↔
              (∃ i, (typeResolve σ t).varId = some i) ∨ ∃ c' ∈ cs, ∃ i, i ∈ c'.holes := by
            simp only [mem_holes (t := rebuild _ _), varId_rebuild hlen, children_rebuild hlen, exists_or]
            tauto
          rw [hholes]
          rw [sigHasUnboundHole] at hdetect
          split at hdetect
          · rename_i i hr
            obtain rfl := Option.some.inj hdetect
            exact iff_of_true rfl (.inl ⟨i, by rw [hr]; rfl⟩)
          · rename_i hvar
            have hnone : ¬ ∃ i, (typeResolve σ t).varId = some i := by
              rintro ⟨i, hi⟩
              cases hr : typeResolve σ t <;> rw [hr] at hi <;> cases hi
              exact hvar _ hr
            have hchild : ∀ c ∈ (typeResolve σ t).children, ∀ b, sigHasUnboundHole depth σ c = some b →
                (b = true ↔ ∃ c' ∈ cs, applyTypeSubst depth' σ c = some c' ∧ ∃ i, i ∈ c'.holes) := by
              intro c hc b hb
              obtain ⟨c', hc', happ⟩ := exists_right_of_forall₂ hcs hc
              rw [ih hb happ]
              refine ⟨fun hi => ⟨c', hc', happ, hi⟩, ?_⟩
              rintro ⟨c'', -, happ', hi⟩
              rwa [Option.some.inj (happ.symm.trans happ')]
            rw [anyHole_eq hdetect hchild]
            constructor
            · rintro ⟨c, -, c', hc', -, hi⟩
              exact .inr ⟨c', hc', hi⟩
            · rintro (h | ⟨c', hc', hi⟩)
              · exact absurd h hnone
              · obtain ⟨c, hc, happ⟩ := exists_of_forall₂ hcs hc'
                exact ⟨c, hc, c', hc', happ, hi⟩

theorem forall₂_unique {R S : Ty → Ty → Prop} {ts us vs : List Ty} (h : List.Forall₂ R ts us)
    (h' : List.Forall₂ S ts vs) (heq : ∀ t u v, R t u → S t v → u = v) : us = vs := by
  induction h generalizing vs with
  | nil =>
      cases h'
      rfl
  | cons hR _ ih =>
      cases h' with
      | cons hS hrest => rw [heq _ _ _ hR hS, ih hrest]

theorem applyTypeSubst_unique {depth' : Nat} {u' : Ty} (h : applyTypeSubst depth σ t = some u)
    (h' : applyTypeSubst depth' σ t = some u') : u = u' := by
  induction depth generalizing depth' t u u' with
  | zero => cases h
  | succ depth ih =>
      cases depth' with
      | zero => cases h'
      | succ depth' =>
          obtain ⟨cs, hcs, -, rfl⟩ := applyTypeSubst_inv h
          obtain ⟨cs', hcs', -, rfl⟩ := applyTypeSubst_inv h'
          rw [forall₂_unique hcs hcs' fun c v v' hv hv' => ih hv hv']

end Walkers

section Laws

variable {σ : TypeSubst}

/-- `apply_type_subst` returns `u` for `t`, with the depth it takes. -/
def Applies (σ : TypeSubst) (t u : Ty) : Prop := ∃ depth, applyShared depth σ t = some u

def Detects (σ : TypeSubst) (t : Ty) (b : Bool) : Prop := ∃ depth, sigHasUnboundHole depth σ t = some b

/-- Over an acyclic substitution the application returns, leaves no bound hole, is
idempotent, is the identity on types without bound holes, and keeps a hole
exactly when the detector finds one. -/
theorem application_laws (hacyclic : Acyclic (Follows σ)) (hshort : ShortChains σ) (t : Ty) :
    ∃ u, (∀ v, Applies σ t v ↔ v = u) ∧ (∀ i ∈ u.holes, binding σ i = none) ∧ (∀ v, Applies σ u v ↔ v = u) ∧
      ((∀ i ∈ t.holes, binding σ i = none) → u = t) ∧
      ∃ b, (∀ b', Detects σ t b' ↔ b' = b) ∧ (b = true ↔ ∃ i, i ∈ u.holes) := by
  have hunique : ∀ {t u : Ty} {depth : Nat}, applyTypeSubst depth σ t = some u → ∀ v, Applies σ t v ↔ v = u := by
    intro t u depth h v
    constructor
    · rintro ⟨depth', hv⟩
      rw [applyShared_eq] at hv
      exact applyTypeSubst_unique hv h
    · rintro rfl
      exact ⟨depth, by rw [applyShared_eq, h]⟩
  have hcoherent := coherent_of_acyclic hacyclic
  obtain ⟨depth, happ⟩ := hcoherent.applies t
  obtain ⟨u, hu⟩ := Option.isSome_iff_exists.mp happ
  have hfree := applyTypeSubst_holes hshort hu
  obtain ⟨depth', happ'⟩ := hcoherent.applies u
  obtain ⟨u', hu'⟩ := Option.isSome_iff_exists.mp happ'
  obtain rfl := applyTypeSubst_unbound hfree hu'
  obtain ⟨depth'', hdet⟩ := hcoherent.detects t
  obtain ⟨b, hb⟩ := Option.isSome_iff_exists.mp hdet
  have hiff := sigHasUnboundHole_iff hb hu
  refine ⟨u', hunique hu, hfree, hunique hu', fun h => applyTypeSubst_unbound h hu, b, fun b' => ?_, hiff⟩
  constructor
  · rintro ⟨d, hb'⟩
    have hiff' := sigHasUnboundHole_iff hb' hu
    rw [Bool.eq_iff_iff, hiff, hiff']
  · rintro rfl
    exact ⟨depth'', hb⟩

/-- The first hole is bound to the second, the second to an optional byte. -/
def linked : TypeSubst := [(1, .var 2), (2, .optional (.prim .u8))]

theorem linked_binding {i : Nat} {t : Ty} (h : binding linked i = some t) :
    i = 1 ∧ t = .var 2 ∨ i = 2 ∧ t = .optional (.prim .u8) := by
  by_cases h₁ : i = 1
  · subst h₁
    exact .inl ⟨rfl, (Option.some.inj h).symm⟩
  · by_cases h₂ : i = 2
    · subst h₂
      exact .inr ⟨rfl, (Option.some.inj h).symm⟩
    · have hne₁ : (i == 1) = false := by simpa using h₁
      have hne₂ : (i == 2) = false := by simpa using h₂
      simp [binding, linked, List.lookup_cons, hne₁, hne₂] at h

theorem application_laws_linked : ∃ u, (∀ v, Applies linked (.slice (.var 1) false) v ↔ v = u) ∧
    (∀ i ∈ u.holes, binding linked i = none) ∧ (∀ v, Applies linked u v ↔ v = u) ∧
      ((∀ i ∈ (Ty.slice (.var 1) false).holes, binding linked i = none) → u = .slice (.var 1) false) ∧
      ∃ b, (∀ b', Detects linked (.slice (.var 1) false) b' ↔ b' = b) ∧ (b = true ↔ ∃ i, i ∈ u.holes) := by
  refine application_laws (acyclic_of_increasing (f := id) ?_) ?_ _
  · rintro x y ⟨t, ht, hy⟩
    obtain ⟨rfl, rfl⟩ | ⟨rfl, rfl⟩ := linked_binding ht
    · obtain rfl : y = 2 := by simpa [Ty.holes] using hy
      decide
    · simp [Ty.holes] at hy
  · rintro n i (_ | ⟨h, _ | ⟨h', -⟩⟩)
    · decide
    · decide
    · obtain ⟨rfl, h⟩ | ⟨rfl, h⟩ := linked_binding h
      · cases h
        obtain ⟨hj, -⟩ | ⟨-, h'⟩ := linked_binding h'
        · cases hj
        · cases h'
      · cases h

end Laws

end Ore.TypeSubstitution
