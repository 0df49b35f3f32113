import Ore.BodyScopes

namespace Ore.ScopeGrowth

open GreenTree RedTree DeclAstPaths BodyScopes
open ParentLinks (chain Grounded)
open WorkspaceModel (Bytes)

/-- What the walk may do to a builder: every scope that it names is there. -/
inductive Step (b : BSBuilder) : BSBuilder → Prop
  | push {parent : Option Nat} (h : ∀ p, parent = some p → p < b.scopes.length) (n : Placed) :
      Step b (scopePush b parent n).2
  | bind {scope : Nat} (h : scope < b.scopes.length) (name : Bytes) (n : Placed) :
      Step b (bindPush b scope name n)
  | tag {scope : Nat} (h : scope < b.scopes.length) (n : Placed) : Step b (tagNode b n scope)

def Grows (b b' : BSBuilder) : Prop := Relation.ReflTransGen Step b b'

def Within (b : BSBuilder) : Visit → Prop
  | .skip => True
  | .plain scope | .bodyOf scope => scope < b.scopes.length
  | .withArgs outer contScope _ => outer < b.scopes.length ∧ contScope < b.scopes.length

section Runs

variable {b b' : BSBuilder} {scope : Nat} {n : Placed}

theorem Step.scopes_prefix (h : Step b b') : b.scopes <+: b'.scopes := by
  cases h with
  | push _ n => exact List.prefix_append _ _
  | bind _ _ _ => exact List.prefix_refl _
  | tag _ _ => exact List.prefix_refl _

theorem Step.grows (h : Step b b') : Grows b b' := Relation.ReflTransGen.single h

theorem Grows.refl (b : BSBuilder) : Grows b b := Relation.ReflTransGen.refl

theorem Grows.trans {b'' : BSBuilder} (h : Grows b b') (h' : Grows b' b'') : Grows b b'' :=
  Relation.ReflTransGen.trans h h'

theorem Grows.scopes_prefix (h : Grows b b') : b.scopes <+: b'.scopes := by
  induction h with
  | refl => exact List.prefix_refl _
  | tail _ hstep ih => exact ih.trans hstep.scopes_prefix

theorem Grows.lt (h : Grows b b') (hs : scope < b.scopes.length) : scope < b'.scopes.length :=
  Nat.lt_of_lt_of_le hs h.scopes_prefix.length_le

theorem Within.mono {visit : Visit} (hv : Within b visit) (h : Grows b b') : Within b' visit := by
  cases visit with
  | skip => trivial
  | plain s => exact h.lt hv
  | bodyOf s => exact h.lt hv
  | withArgs o c k => exact ⟨h.lt hv.1, h.lt hv.2⟩

theorem bindNamed_grows (h : scope < b.scopes.length) : Grows b (bindNamed b scope n) := by
  rw [bindNamed]
  cases nameOf n with
  | none => exact .refl b
  | some name => exact (Step.bind h name n).grows

theorem bindOptional_grows (opt : Option Placed) (h : scope < b.scopes.length) :
    Grows b (bindOptional b scope opt) := by
  cases opt with
  | none => exact .refl b
  | some p => exact bindNamed_grows h

theorem bindParams_grows (lambda : Placed) (h : scope < b.scopes.length) : Grows b (bindParams b scope lambda) := by
  rw [bindParams]
  induction paramNodes lambda generalizing b with
  | nil => exact .refl b
  | cons p ps ih =>
      rw [List.foldl_cons]
      split
      · have hp : Grows b (bindNamed b scope p) := bindNamed_grows h
        exact hp.trans (ih (hp.lt h))
      · exact ih h

theorem push_grows (h : scope < b.scopes.length) : Grows b (scopePush b (some scope) n).2 :=
  (Step.push (fun p hp => by rwa [← Option.some.inj hp]) n).grows

theorem pushed_lt (b : BSBuilder) (parent : Option Nat) (n : Placed) :
    (scopePush b parent n).1 < (scopePush b parent n).2.scopes.length := by
  simp [scopePush]

theorem pushOptional_grows (opener : Option Placed) (h : scope < b.scopes.length) :
    Grows b (scopePushOptional b scope opener).2 := by
  cases opener with
  | none => exact .refl b
  | some opener => exact push_grows h

theorem pushedOptional_lt (opener : Option Placed) (h : scope < b.scopes.length) :
    (scopePushOptional b scope opener).1 < (scopePushOptional b scope opener).2.scopes.length := by
  cases opener with
  | none => exact h
  | some opener => exact pushed_lt b (some scope) opener

end Runs

section Entries

variable {b : BSBuilder} {scope : Nat} {n : Placed}

/-- The walk may go on below a node. -/
def Ready (b : BSBuilder) (entry : Entry) : Prop := Grows b entry.1 ∧ ∀ c, Within entry.1 (entry.2 c)

theorem within_scoped {overrides : List (Option Placed × Nat)} (h : scope < b.scopes.length)
    (ho : ∀ o ∈ overrides, o.2 < b.scopes.length) (c : Placed) : Within b (walkChildrenScoped scope overrides c) := by
  rw [walkChildrenScoped, Within]
  cases hf : overrides.find? fun o => o.1.any (·.ptr = c.ptr) with
  | none => exact h
  | some o => exact ho o (List.mem_of_find?_eq_some hf)

theorem within_onlyBody (h : scope < b.scopes.length) (c : Placed) : Within b (onlyBody n scope c) := by
  rw [onlyBody]
  split
  · exact h
  · trivial

theorem enterBlock_ready (h : scope < b.scopes.length) : Ready b (enterBlock scope n b) :=
  ⟨push_grows h, fun _ => pushed_lt b (some scope) n⟩

theorem enterIf_ready (h : scope < b.scopes.length) : Ready b (enterIf scope n b) := by
  have hpush : Grows b _ := pushOptional_grows ((ifExprCapture n).or (ifExprThenBranch n)) h
  have hthen := pushedOptional_lt ((ifExprCapture n).or (ifExprThenBranch n)) h
  have hbound : Grows _ _ := bindOptional_grows (ifExprCapture n) hthen
  have hscope := (hpush.trans hbound).lt h
  have helse : Grows _ _ := pushOptional_grows (ifExprElseBranch n) hscope
  refine ⟨(hpush.trans hbound).trans helse, within_scoped (helse.lt hscope) ?_⟩
  simp only [List.mem_cons, List.not_mem_nil, or_false, forall_eq_or_imp, forall_eq]
  exact ⟨helse.lt (hbound.lt hthen), helse.lt (hbound.lt hthen), pushedOptional_lt _ hscope⟩

theorem enterLoop_ready (h : scope < b.scopes.length) : Ready b (enterLoop scope n b) := by
  have hpush : Grows b _ := push_grows (n := n) h
  have hbound : Grows _ _ := bindOptional_grows (astFirstChild n .capture) (pushed_lt b (some scope) n)
  refine ⟨hpush.trans hbound, within_scoped (hbound.lt (pushed_lt _ _ _)) ?_⟩
  simp only [List.mem_singleton, forall_eq]
  exact (hpush.trans hbound).lt h

theorem enterReturnClause_ready (h : scope < b.scopes.length) : Ready b (enterReturnClause scope n b) := by
  have hpush : Grows b _ := push_grows (n := n) h
  have hbound : Grows _ _ := bindOptional_grows
    ((astFirstChild n .paramList).bind (astFirstChild · .param)) (pushed_lt b (some scope) n)
  refine ⟨hpush.trans hbound, fun c => ?_⟩
  simp only [enterReturnClause, Within]
  split
  · exact (hpush.trans hbound).lt h
  · exact hbound.lt (pushed_lt _ _ _)

theorem enterLambda_ready (h : scope < b.scopes.length) : Ready b (enterLambda scope n b) := by
  have hpush : Grows b _ := push_grows (n := n) h
  have hbound : Grows _ _ := bindParams_grows n (pushed_lt b (some scope) n)
  have hlam := hbound.lt (pushed_lt _ _ _)
  simp only [Ready, enterLambda]
  split
  · have hresume := (Step.bind hlam (NamespaceItems.word "resume") n).grows
    exact ⟨(hpush.trans hbound).trans hresume, within_onlyBody (hresume.lt hlam)⟩
  · exact ⟨hpush.trans hbound, within_onlyBody hlam⟩

theorem enterCall_ready (h : scope < b.scopes.length) : Ready b (enterCall scope n b) := by
  rw [enterCall]
  split
  · exact ⟨.refl b, fun _ => h⟩
  · rename_i cont _
    have hpush : Grows b _ := push_grows (n := cont) h
    have hbound : Grows _ _ := bindOptional_grows (callExprWithBinder n) (pushed_lt b (some scope) cont)
    have hscope := (hpush.trans hbound).lt h
    refine ⟨hpush.trans hbound, fun c => ?_⟩
    simp only
    split
    · exact ⟨hscope, hbound.lt (pushed_lt _ _ _)⟩
    · exact hscope

theorem enter_ready {visit : Visit} (n : Placed) (h : Within b visit) : Ready b (enter visit n b) := by
  cases visit with
  | skip => exact ⟨.refl b, fun _ => trivial⟩
  | bodyOf scope => exact ⟨.refl b, within_onlyBody h⟩
  | withArgs outer contScope cont =>
      refine ⟨.refl b, fun c => ?_⟩
      simp only [enter]
      split
      · exact h.2
      · exact h.1
  | plain scope =>
      have htag := (Step.tag h n).grows
      have hscope : scope < (tagNode b n scope).scopes.length := h
      suffices hready : Ready (tagNode b n scope) (enterPlain scope n (tagNode b n scope)) from
        ⟨htag.trans hready.1, hready.2⟩
      rw [enterPlain]
      split
      · exact enterBlock_ready hscope
      · exact enterBlock_ready hscope
      · exact enterIf_ready hscope
      · exact enterLoop_ready hscope
      · exact enterReturnClause_ready hscope
      · exact enterLambda_ready hscope
      · exact enterLambda_ready hscope
      · exact enterLambda_ready hscope
      · exact enterLambda_ready hscope
      · exact enterCall_ready hscope
      · exact ⟨.refl _, fun _ => h⟩

theorem leave_grows {visit : Visit} (h : Within b visit) : Grows b (leave visit n b) := by
  cases visit with
  | plain scope =>
      rw [leave]
      split
      · exact bindNamed_grows h
      · exact .refl b
  | skip => exact .refl b
  | bodyOf scope => exact .refl b
  | withArgs outer contScope cont => exact .refl b

end Entries

section Walks

mutual

theorem walk_grows (route : Placed → Visit) (start : Nat) (path : List Nat) : ∀ (g : Green) (b : BSBuilder),
    (∀ n, Within b (route n)) → Grows b (walk route start path g b)
  | .token _, b => fun _ => .refl b
  | .node kind children, b => fun h => by
      rw [walk]
      have hready := enter_ready ⟨path, ⟨kind, children, start⟩⟩ (h ⟨path, ⟨kind, children, start⟩⟩)
      have hinner := walkChildren_grows _ start path 0 children _ hready.2
      have hall := hready.1.trans hinner
      exact hall.trans (leave_grows ((h _).mono hall))

theorem walkChildren_grows (route : Placed → Visit) (start : Nat) (path : List Nat) (index : Nat) :
    ∀ (gs : List Green) (b : BSBuilder), (∀ n, Within b (route n)) → Grows b (walkChildren route start path index gs b)
  | [], b => fun _ => .refl b
  | c :: cs, b => fun h => by
      rw [walkChildren]
      have hfirst := walk_grows route start (path ++ [index]) c b h
      exact hfirst.trans (walkChildren_grows route _ path _ cs _ fun n => (h n).mono hfirst)

end

variable {b : BSBuilder} {scope : Nat}

theorem walkNode_grows (n : Placed) (h : scope < b.scopes.length) : Grows b (walkNode n scope b) :=
  walk_grows _ _ _ _ b fun _ => h

theorem walkParam_grows (p : Placed) (h : scope < b.scopes.length) : Grows b (walkParam scope b p) := by
  rw [walkParam]
  split
  · have hbound : Grows b (bindNamed b scope p) := bindNamed_grows h
    exact hbound.trans (walkNode_grows p (hbound.lt h))
  · exact walkNode_grows p h

theorem walkParams_grows (ps : List Placed) (h : scope < b.scopes.length) : Grows b (ps.foldl (walkParam scope) b) := by
  induction ps generalizing b with
  | nil => exact .refl b
  | cons p ps ih =>
      have hp := walkParam_grows p h
      exact hp.trans (ih (hp.lt h))

theorem walkOptional_grows (n : Option Placed) (h : scope < b.scopes.length) : Grows b (walkOptional scope b n) := by
  cases n with
  | none => exact .refl b
  | some n => exact walkNode_grows n h

theorem buildScopes_grows (lambda : Placed) : Grows .empty (buildScopes lambda) := by
  have hpush : Grows .empty (scopePush .empty none lambda).2 := (Step.push (by simp) lambda).grows
  have hroot := pushed_lt .empty none lambda
  have htag := (Step.tag hroot lambda).grows
  have hparams := walkParams_grows (paramNodes lambda) (htag.lt hroot)
  have hsignature := (hpush.trans htag).trans hparams
  have hlt := hparams.lt (htag.lt hroot)
  have hreturned := walkOptional_grows (lambdaExprReturnType lambda) hlt
  exact (hsignature.trans hreturned).trans (walkOptional_grows (lambdaExprBody lambda) (hreturned.lt hlt))

end Walks

section Invariants

def parentOf (scopes : List ScopeRow) (s : Nat) : Option Nat := scopes[s]?.bind (·.parent)

/-- Parents stand before their scopes, and binds and tags name scopes that are there. -/
structure Formed (b : BSBuilder) : Prop where
  grounded : Grounded (parentOf b.scopes)
  binds : ∀ x ∈ b.binds, x.scopeId < b.scopes.length
  tags : ∀ t ∈ b.tags, t.2 < b.scopes.length

theorem formed_empty : Formed .empty :=
  ⟨fun s p h => by simp [parentOf, BSBuilder.empty] at h, by simp [BSBuilder.empty], by simp [BSBuilder.empty]⟩

theorem Formed.step {b b' : BSBuilder} (hb : Formed b) (h : Step b b') : Formed b' := by
  have hlen := h.scopes_prefix.length_le
  cases h with
  | push hparent n =>
      refine ⟨fun s p hp => ?_, fun x hx => Nat.lt_of_lt_of_le (hb.binds x hx) hlen,
        fun t ht => Nat.lt_of_lt_of_le (hb.tags t ht) hlen⟩
      rw [parentOf, scopePush, List.getElem?_append] at hp
      split at hp
      · exact hb.grounded s p hp
      · rename_i hge
        cases hs : s - b.scopes.length with
        | succ k => simp [hs] at hp
        | zero =>
            rw [hs] at hp
            have hlt := hparent p (by simpa using hp)
            omega
  | bind hs name n =>
      refine ⟨hb.grounded, fun x hx => ?_, hb.tags⟩
      rcases List.mem_append.mp hx with hx | hx
      · exact hb.binds x hx
      · rw [List.mem_singleton.mp hx]
        exact hs
  | tag hs n =>
      refine ⟨hb.grounded, hb.binds, fun t ht => ?_⟩
      rcases List.mem_append.mp ht with ht | ht
      · exact hb.tags t ht
      · rw [List.mem_singleton.mp ht]
        exact hs

theorem Formed.grows {b b' : BSBuilder} (hb : Formed b) (h : Grows b b') : Formed b' := by
  induction h with
  | refl => exact hb
  | tail _ hstep ih => exact ih.step hstep

theorem buildScopes_formed (lambda : Placed) : Formed (buildScopes lambda) :=
  formed_empty.grows (buildScopes_grows lambda)

end Invariants

section Lookups

variable {wrapper : SyntaxNode} {fb : FnBody}

theorem formed_of_query (h : dbQueryBodyScopes wrapper = some fb) :
    ∃ b, Formed b ∧ fb = ⟨b.scopes, b.binds, scopeMapOf wrapper b.tags⟩ := by
  rw [dbQueryBodyScopes, Option.map_eq_some_iff] at h
  obtain ⟨lambda, -, rfl⟩ := h
  exact ⟨buildScopes lambda, buildScopes_formed lambda, rfl⟩

theorem grounded_of_query (h : dbQueryBodyScopes wrapper = some fb) : Grounded fb.parent := by
  obtain ⟨b, hb, rfl⟩ := formed_of_query h
  exact hb.grounded

theorem bind_lt (h : dbQueryBodyScopes wrapper = some fb) {i : Nat} {x : ScopedBind} (hx : fb.binds[i]? = some x) :
    x.scopeId < fb.scopes.length := by
  obtain ⟨b, hb, rfl⟩ := formed_of_query h
  exact hb.binds x (List.mem_of_getElem? hx)

def isBindOf (name : Bytes) (scope : Nat) (x : ScopedBind) : Bool := x.scopeId = scope ∧ x.name = name

theorem bindIn_eq (binds : List ScopedBind) (name : Bytes) (scope : Nat) :
    bindIn binds name scope = (binds.filter (isBindOf name scope)).getLast? := by
  rw [bindIn]
  induction binds using List.reverseRecOn with
  | nil => rfl
  | append_singleton binds x ih =>
      rw [List.foldl_append, List.foldl_cons, List.foldl_nil, ih, List.filter_append]
      by_cases hx : x.scopeId = scope ∧ x.name = name
      · simp [isBindOf, hx]
      · rw [if_neg hx, List.filter_cons_of_neg (by simpa [isBindOf] using hx)]
        simp

theorem bindIn_some {binds : List ScopedBind} {name : Bytes} {scope : Nat} {x : ScopedBind}
    (h : bindIn binds name scope = some x) : x ∈ binds ∧ x.scopeId = scope ∧ x.name = name := by
  rw [bindIn_eq] at h
  simpa [isBindOf] using List.mem_filter.mp (List.mem_of_getLast? h)

theorem bindIn_none {binds : List ScopedBind} {name : Bytes} {scope : Nat} (h : bindIn binds name scope = none)
    {x : ScopedBind} (hx : x ∈ binds) (hscope : x.scopeId = scope) : x.name ≠ name := by
  rw [bindIn_eq, List.getLast?_eq_none_iff, List.filter_eq_nil_iff] at h
  intro hname
  exact h x hx (by simp [isBindOf, hscope, hname])

theorem bindFrom_eq (h : dbQueryBodyScopes wrapper = some fb) {scope : Nat} (hscope : scope < fb.scopes.length)
    (name : Bytes) : bindFrom fb name scope = (chain fb.parent scope).findSome? (bindIn fb.binds name) := by
  rw [bindFrom, ParentLinks.climb_eq (grounded_of_query h) _ (fun s hs => ?_) (by omega), Option.join_some,
    Option.elim_some]
  rw [← Option.some.inj hs]
  omega

theorem bindFrom_spec (h : dbQueryBodyScopes wrapper = some fb) {scope : Nat} (hscope : scope < fb.scopes.length)
    {name : Bytes} (hex : ∃ x ∈ fb.binds, x.name = name ∧ x.scopeId ∈ chain fb.parent scope) :
    ∃ y ∈ fb.binds, bindFrom fb name scope = some y ∧ y.name = name ∧ y.scopeId ∈ chain fb.parent scope ∧
      ∀ x ∈ fb.binds, x.name = name → x.scopeId ∈ chain fb.parent scope → x.scopeId ∈ chain fb.parent y.scopeId := by
  obtain ⟨x, hx, hname, hin⟩ := hex
  rw [bindFrom_eq h hscope]
  cases hfound : (chain fb.parent scope).findSome? (bindIn fb.binds name) with
  | none => exact absurd hname (bindIn_none (List.findSome?_eq_none_iff.mp hfound _ hin) hx rfl)
  | some y =>
      obtain ⟨inner, a, outer, hchain, hat, hnone⟩ := List.findSome?_eq_some_iff.mp hfound
      obtain ⟨hy, rfl, hyname⟩ := bindIn_some hat
      refine ⟨y, hy, rfl, hyname, by rw [hchain]; simp, fun x hx hname hin => ?_⟩
      rw [hchain, List.mem_append] at hin
      rcases hin with hin | hin
      · exact absurd hname (bindIn_none (hnone _ hin) hx rfl)
      · rwa [ParentLinks.chain_suffix (grounded_of_query h) hchain]

end Lookups

end Ore.ScopeGrowth
