import Ore.ScopeMarks

namespace Ore.BodyReferences

open SyntaxKinds GreenTree RedTree DeclAstIds DeclAstPaths BodyScopes ScopeGrowth ScopeMarks
open ParentLinks (chain above Grounded climb climb_eq)
open NamespaceItems (word)
open WorkspaceModel (Bytes)

section References

/-- The name that a reference to a value or a type uses. -/
def refName (n : Placed) : Option Bytes :=
  if n.node.kind = .refExpr ∨ n.node.kind = .refType then nameOf n else none

def isAt (c : Placed) (opt : Option Placed) : Bool := opt.any (·.path = c.path)

def rootWay (lambda c : Placed) : Way :=
  if isAt c (lambdaExprParams lambda) then .params
  else if isAt c (lambdaExprReturnType lambda) || isAt c (lambdaExprBody lambda) then .plain
  else .out

def rootContext (lambda : Placed) : Context := fun c => (rootWay lambda c, [lambda.ptr])

def bodyMarks (lambda : Placed) : List Mark :=
  marksAll (rootContext lambda) lambda.node.start lambda.path 0 lambda.node.children

def references (lambda : Placed) : List Mark := (bodyMarks lambda).filter fun m => (refName m.node).isSome

/-- The innermost bind of a name at a scope, found by the lookup. -/
def FindsLocal (wrapper : SyntaxNode) (fb : FnBody) (useNode : Placed) (name : Bytes) (scope : Nat) : Prop :=
  ∃ y ∈ fb.binds, y.name = name ∧ y.scopeId ∈ chain fb.parent scope ∧
    (∀ x ∈ fb.binds, x.name = name → x.scopeId ∈ chain fb.parent scope → x.scopeId ∈ chain fb.parent y.scopeId) ∧
    ∃ site, declAstIdResolve wrapper ((relOf wrapper y.bindSite).getD 0) = some site ∧
      dbBodyScopeLookup wrapper fb useNode name = some site.ptr

/-- Every reference is mapped to the innermost scope that it lies in, and a local
of its name in a scope around it is found. -/
def LocalsWin (wrapper : SyntaxNode) (fb : FnBody) (lambda : Placed) : Prop :=
  ∀ m ∈ references lambda, ∀ name, refName m.node = some name →
    ∃ scope, (relOf wrapper m.node).bind fb.scopeMap = some scope ∧ scopePtrs fb.scopes scope = m.scopes ∧
      ((∃ x ∈ fb.binds, x.name = name ∧ x.scopeId ∈ chain fb.parent scope) →
        FindsLocal wrapper fb m.node name scope)

def lastVisit (wrapper : SyntaxNode) (lambda n : Placed) : Option (List SyntaxNodePtr) :=
  (relOf wrapper n).bind fun rel =>
    ((bodyVisits lambda).reverse.find? (relOf wrapper ·.1 = some rel)).map (·.2)

end References

section Maps

variable {wrapper : SyntaxNode} {fb : FnBody} {lambda : Placed}

theorem scopeMapOf_eq (tags : List (Placed × Nat)) (rel : Nat) :
    scopeMapOf wrapper tags rel = (tags.reverse.find? (relOf wrapper ·.1 = some rel)).map (·.2) := by
  rw [scopeMapOf]
  induction tags using List.reverseRecOn with
  | nil => rfl
  | append_singleton tags t ih =>
      rw [List.foldl_append, List.foldl_cons, List.foldl_nil, List.reverse_append, List.reverse_singleton,
        List.singleton_append, List.find?_cons]
      by_cases ht : relOf wrapper t.1 = some rel
      · simp [ht]
      · rw [if_neg ht, ih]
        simp [ht]

theorem query_eq (h : lambdaNode wrapper = some lambda) (hfb : dbQueryBodyScopes wrapper = some fb) :
    fb = ⟨(buildScopes lambda).scopes, (buildScopes lambda).binds, scopeMapOf wrapper (buildScopes lambda).tags⟩ := by
  rw [dbQueryBodyScopes, h] at hfb
  exact (Option.some.inj hfb).symm

theorem mapped_scopes (h : lambdaNode wrapper = some lambda) (hfb : dbQueryBodyScopes wrapper = some fb) (n : Placed) :
    ((relOf wrapper n).bind fb.scopeMap).map (scopePtrs fb.scopes) = lastVisit wrapper lambda n := by
  rw [query_eq h hfb, lastVisit]
  cases relOf wrapper n with
  | none => rfl
  | some rel =>
      rw [Option.bind_some, Option.bind_some]
      dsimp only
      rw [scopeMapOf_eq, ← buildScopes_tagged, taggedAs, ← List.map_reverse,
        List.find?_map]
      simp only [Option.map_map]
      rfl

theorem mapped_lt (h : lambdaNode wrapper = some lambda) (hfb : dbQueryBodyScopes wrapper = some fb) {n : Placed}
    {scope : Nat} (hscope : (relOf wrapper n).bind fb.scopeMap = some scope) : scope < fb.scopes.length := by
  rw [query_eq h hfb] at hscope ⊢
  obtain ⟨rel, -, hmap⟩ := Option.bind_eq_some_iff.mp hscope
  dsimp only at hmap
  rw [scopeMapOf_eq, Option.map_eq_some_iff] at hmap
  obtain ⟨t, ht, rfl⟩ := hmap
  exact (buildScopes_formed lambda).tags t (List.mem_reverse.mp (List.mem_of_find?_eq_some ht))

end Maps

section Lookups

variable {wrapper : SyntaxNode} {fb : FnBody} {lambda : Placed}

theorem refName_ne_nil {n : Placed} {name : Bytes} (h : refName n = some name) : name ≠ [] := by
  rw [refName] at h
  split at h
  · rw [nameOf, Option.filter_eq_some_iff] at h
    simpa using h.2
  · exact absurd h (by simp)

theorem findsLocal_of_mapped (hfb : dbQueryBodyScopes wrapper = some fb) {useNode : Placed} {name : Bytes}
    {scope : Nat} (hlt : scope < fb.scopes.length) (hname : name ≠ [])
    (hscope : (relOf wrapper useNode).bind fb.scopeMap = some scope)
    (hex : ∃ x ∈ fb.binds, x.name = name ∧ x.scopeId ∈ chain fb.parent scope) :
    FindsLocal wrapper fb useNode name scope := by
  obtain ⟨y, hy, hfrom, hyname, hyin, hinner⟩ := bindFrom_spec hfb hlt hex
  obtain ⟨site, hsite⟩ := resolve_relOf wrapper y.bindSite
  refine ⟨y, hy, hyname, hyin, hinner, site, hsite, ?_⟩
  rw [dbBodyScopeLookup, if_neg hname, hscope, Option.bind_some, hfrom, Option.bind_some, hsite]
  rfl

theorem locals_win_of_visits (h : lambdaNode wrapper = some lambda) (hfb : dbQueryBodyScopes wrapper = some fb) :
    LocalsWin wrapper fb lambda ↔ ∀ m ∈ references lambda, lastVisit wrapper lambda m.node = some m.scopes := by
  constructor
  · intro hwin m hm
    obtain ⟨name, hname⟩ := Option.isSome_iff_exists.mp (List.mem_filter.mp hm).2
    obtain ⟨scope, hscope, hscopes, -⟩ := hwin m hm name hname
    rw [← mapped_scopes h hfb, hscope, Option.map_some, hscopes]
  · intro hvisit m hm name hname
    have hmapped := mapped_scopes h hfb m.node
    rw [hvisit m hm, Option.map_eq_some_iff] at hmapped
    obtain ⟨scope, hscope, hscopes⟩ := hmapped
    exact ⟨scope, hscope, hscopes,
      findsLocal_of_mapped hfb (mapped_lt h hfb hscope) (refName_ne_nil hname) hscope⟩

end Lookups

section Children

theorem placedAll_eq (start : Nat) (path : List Nat) (index : Nat) (gs : List Green) :
    placedAll start path index gs =
      (nodesIn (elementsAt start path index gs)).flatMap fun c => placed c.node.start c.path c.node.green := by
  induction gs generalizing start index with
  | nil => rfl
  | cons c cs ih =>
      rw [placedAll, ih]
      cases c with
      | node kind children => rfl
      | token tok =>
          rw [elementsAt, nextIndex, isTrivia, textLen]
          split <;> rfl

theorem marksAll_eq (context : Context) (start : Nat) (path : List Nat) (index : Nat) (gs : List Green) :
    marksAll context start path index gs =
      (nodesIn (elementsAt start path index gs)).flatMap fun c => marks context c.node.start c.path c.node.green := by
  induction gs generalizing start index with
  | nil => rfl
  | cons c cs ih =>
      rw [marksAll, ih]
      cases c with
      | node kind children => rfl
      | token tok =>
          rw [elementsAt, nextIndex, isTrivia, textLen]
          split <;> rfl

mutual

theorem marks_nodes (context : Context) (start : Nat) (path : List Nat) : ∀ g : Green,
    (marks context start path g).map Mark.node = placed start path g
  | .token _ => rfl
  | .node kind children => by
      rw [marks, placed, List.map_cons, marksAll_nodes]

theorem marksAll_nodes (context : Context) (start : Nat) (path : List Nat) (index : Nat) : ∀ gs : List Green,
    (marksAll context start path index gs).map Mark.node = placedAll start path index gs
  | [] => rfl
  | c :: cs => by
      rw [marksAll, placedAll, List.map_append, marks_nodes, marksAll_nodes]

end

mutual

/-- Below what the walk leaves out it visits nothing. -/
theorem marks_out {context : Context} {start : Nat} {path : List Nat} (h : ∀ n, (context n).1 = .out) :
    ∀ {g : Green}, ∀ m ∈ marks context start path g, m.way = .out
  | .token _ => fun m hm => absurd hm List.not_mem_nil
  | .node kind children => fun m hm => by
      rw [marks, List.mem_cons] at hm
      rcases hm with rfl | hm
      · exact h _
      · exact marksAll_out (fun c => by rw [below, h]; rfl) m hm

theorem marksAll_out {context : Context} {start : Nat} {path : List Nat} {index : Nat} (h : ∀ n, (context n).1 = .out) :
    ∀ {gs : List Green}, ∀ m ∈ marksAll context start path index gs, m.way = .out
  | [] => fun m hm => absurd hm List.not_mem_nil
  | c :: cs => fun m hm => by
      rw [marksAll, List.mem_append] at hm
      exact hm.elim (marks_out h m) (marksAll_out h m)

end

variable {n c d : Placed}

theorem placed_root (c : Placed) : placed c.node.start c.path c.node.green =
    c :: placedAll c.node.start c.path 0 c.node.children := rfl

theorem marks_root (context : Context) (c : Placed) : marks context c.node.start c.path c.node.green =
    ⟨c, (context c).2, (context c).1⟩ :: marksAll (below c (context c)) c.node.start c.path 0 c.node.children := rfl

theorem placed_child (hc : c ∈ childNodes n) {p : Placed} (hp : p ∈ placed c.node.start c.path c.node.green) :
    p ∈ placedAll n.node.start n.path 0 n.node.children := by
  rw [placedAll_eq]
  exact List.mem_flatMap.mpr ⟨c, hc, hp⟩

theorem marks_child {context : Context} {m : Mark} (hc : c ∈ childNodes n)
    (hm : m ∈ marks context c.node.start c.path c.node.green) :
    m ∈ marksAll context n.node.start n.path 0 n.node.children := by
  rw [marksAll_eq]
  exact List.mem_flatMap.mpr ⟨c, hc, hm⟩

theorem child_of_path (hc : c ∈ childNodes n) (hd : d ∈ childNodes n) (h : c.path = d.path) : c = d :=
  List.inj_on_of_nodup_map (pathsAll_nodup n.node.start n.path 0 n.node.children)
    (placed_child hc List.mem_cons_self) (placed_child hd List.mem_cons_self) h

theorem sublist_flatMap {f : Placed → List Placed} (hf : ∀ c, c ∈ f c) (l : List Placed) : l.Sublist (l.flatMap f) := by
  induction l with
  | nil => exact List.Sublist.refl []
  | cons c cs ih =>
      rw [List.flatMap_cons]
      exact (List.singleton_sublist.mpr (hf c)).append ih

theorem childNodes_nodup (n : Placed) : ((childNodes n).map Placed.path).Nodup := by
  refine List.Nodup.sublist (List.Sublist.map _ ?_) (pathsAll_nodup n.node.start n.path 0 n.node.children)
  rw [placedAll_eq]
  exact sublist_flatMap (fun c => List.mem_cons_self) _

theorem mem_nextSiblings {l : List Placed} (hl : (l.map Placed.path).Nodup) (h : c ∈ nextSiblings d l) :
    c ∈ l ∧ c.path ≠ d.path := by
  induction l with
  | nil => exact absurd h List.not_mem_nil
  | cons q qs ih =>
      rw [List.map_cons, List.nodup_cons] at hl
      rw [nextSiblings] at h
      split at h
      · rename_i hq
        refine ⟨List.mem_cons_of_mem q h, fun heq => hl.1 ?_⟩
        exact List.mem_map.mpr ⟨c, h, heq.trans hq.symm⟩
      · obtain ⟨hmem, hne⟩ := ih hl.2 h
        exact ⟨List.mem_cons_of_mem q hmem, hne⟩

end Children

section Roots

variable {lambda params ret body : Placed}

theorem params_mem (h : lambdaExprParams lambda = some params) :
    params ∈ childNodes lambda ∧ params.node.kind = .paramList :=
  ⟨List.mem_of_find?_eq_some h, by simpa using List.find?_some h⟩

theorem body_mem (h : lambdaExprBody lambda = some body) :
    body ∈ childNodes lambda ∧ kindIsValueNode body.node.kind = true :=
  ⟨List.mem_reverse.mp (List.mem_of_find?_eq_some h), by simpa using List.find?_some h⟩

theorem ret_mem (h : lambdaExprReturnType lambda = some ret) : ∃ params, lambdaExprParams lambda = some params ∧
    ret ∈ childNodes lambda ∧ ret.path ≠ params.path := by
  rw [lambdaExprReturnType, Option.bind_eq_some_iff] at h
  obtain ⟨params, hparams, hret⟩ := h
  rw [Option.filter_eq_some_iff] at hret
  have hrest := List.mem_of_mem_head? hret.1
  have hmem : ret ∈ nextSiblings params (childNodes lambda) := by
    split at hrest
    · exact List.mem_of_mem_tail hrest
    · exact hrest
  exact ⟨params, hparams, mem_nextSiblings (childNodes_nodup lambda) hmem⟩

theorem rootWay_params (h : lambdaExprParams lambda = some params) : rootWay lambda params = .params := by
  rw [rootWay, h, isAt]
  simp

theorem rootWay_ret (h : lambdaExprReturnType lambda = some ret) : rootWay lambda ret = .plain := by
  obtain ⟨params, hparams, -, hne⟩ := ret_mem h
  simp [rootWay, isAt, hparams, h, Ne.symm hne]

theorem rootWay_body (h : lambdaExprBody lambda = some body) : rootWay lambda body = .plain := by
  have hne : isAt body (lambdaExprParams lambda) = false := by
    cases hparams : lambdaExprParams lambda with
    | none => rfl
    | some params =>
        obtain ⟨hmem, hkind⟩ := params_mem hparams
        obtain ⟨hbody, hvalue⟩ := body_mem h
        by_contra heq
        have hpath : params.path = body.path := by simpa [isAt] using heq
        rw [← child_of_path hmem hbody hpath, hkind] at hvalue
        exact absurd hvalue (by decide)
  have hat : isAt body (lambdaExprBody lambda) = true := by simp [isAt, h]
  simp [rootWay, hne, hat]

theorem mem_paramNodes {c : Placed} :
    c ∈ paramNodes lambda ↔ ∃ params, lambdaExprParams lambda = some params ∧ c ∈ childNodes params := by
  rw [paramNodes]
  cases lambdaExprParams lambda with
  | none => simp
  | some params => simp

theorem isAt_iff {c : Placed} {opt : Option Placed} : isAt c opt = true ↔ ∃ n, opt = some n ∧ n.path = c.path := by
  cases opt with
  | none => simp [isAt]
  | some n => simp [isAt]

theorem rootWay_cases (lambda c : Placed) :
    (rootWay lambda c = .params ∧ ∃ params, lambdaExprParams lambda = some params ∧ params.path = c.path) ∨
      (rootWay lambda c = .plain ∧ ((∃ ret, lambdaExprReturnType lambda = some ret ∧ ret.path = c.path) ∨
        ∃ body, lambdaExprBody lambda = some body ∧ body.path = c.path)) ∨
      rootWay lambda c = .out := by
  rw [rootWay]
  split
  · rename_i hat
    exact .inl ⟨rfl, isAt_iff.mp hat⟩
  · split
    · rename_i hat
      rw [Bool.or_eq_true, isAt_iff, isAt_iff] at hat
      exact .inr (.inl ⟨rfl, hat⟩)
    · exact .inr (.inr rfl)

theorem below_params (hkind : params.node.kind = .paramList) (c : Placed) :
    below params (.params, [lambda.ptr]) c = (.plain, [lambda.ptr]) := by
  simp [below, wayOf, openerOf, hkind]

theorem marks_of_context {context : Context} {c : Placed} (h : context c = (.plain, [lambda.ptr])) :
    marks context c.node.start c.path c.node.green =
      marks (fun _ => (.plain, [lambda.ptr])) c.node.start c.path c.node.green := by
  rw [marks_root, marks_root, h]

theorem mem_visited {ms : List Mark} {v : Placed × List SyntaxNodePtr} :
    v ∈ visited ms ↔ ∃ m ∈ ms, m.way = .plain ∧ (m.node, m.scopes) = v := by
  simp [visited, and_assoc]

theorem mem_bodyVisits {v : Placed × List SyntaxNodePtr} :
    v ∈ bodyVisits lambda ↔
      v = (lambda, [lambda.ptr]) ∨ ∃ m ∈ bodyMarks lambda, m.way = .plain ∧ (m.node, m.scopes) = v := by
  have hchild : ∀ c ∈ childNodes lambda, rootWay lambda c = .plain → v ∈ visitsIn lambda c →
      ∃ m ∈ bodyMarks lambda, m.way = .plain ∧ (m.node, m.scopes) = v := by
    intro c hc hway hv
    obtain ⟨m, hm, hvisited⟩ := mem_visited.mp hv
    refine ⟨m, marks_child hc ?_, hvisited⟩
    rwa [marks_of_context (by rw [rootContext, hway])]
  rw [bodyVisits, List.mem_append, List.mem_append, List.mem_cons, or_assoc, or_assoc]
  refine or_congr_right ?_
  constructor
  · rintro (hv | hv | hv)
    · obtain ⟨c, hc, hv⟩ := List.mem_flatMap.mp hv
      obtain ⟨params, hparams, hc⟩ := mem_paramNodes.mp hc
      obtain ⟨hmem, hkind⟩ := params_mem hparams
      obtain ⟨m, hm, hvisited⟩ := mem_visited.mp hv
      refine ⟨m, marks_child hmem ?_, hvisited⟩
      rw [marks_root, rootContext, rootWay_params hparams]
      refine List.mem_cons_of_mem _ (marks_child hc ?_)
      rwa [marks_of_context (below_params hkind c)]
    · obtain ⟨ret, hret, hv⟩ := List.mem_flatMap.mp hv
      rw [Option.mem_toList] at hret
      obtain ⟨-, -, hmem, -⟩ := ret_mem hret
      exact hchild ret hmem (rootWay_ret hret) hv
    · obtain ⟨body, hbody, hv⟩ := List.mem_flatMap.mp hv
      rw [Option.mem_toList] at hbody
      exact hchild body (body_mem hbody).1 (rootWay_body hbody) hv
  · rintro ⟨m, hm, hway, rfl⟩
    rw [bodyMarks, marksAll_eq] at hm
    obtain ⟨c, hc, hm⟩ := List.mem_flatMap.mp hm
    rcases rootWay_cases lambda c with ⟨hroot, params, hparams, hat⟩ | ⟨hroot, hat⟩ | hroot
    · obtain ⟨hmem, hkind⟩ := params_mem hparams
      obtain rfl := child_of_path hmem hc hat
      rw [marks_root, rootContext, hroot, List.mem_cons] at hm
      rcases hm with rfl | hm
      · exact absurd hway (by simp)
      · rw [marksAll_eq] at hm
        obtain ⟨d, hd, hm⟩ := List.mem_flatMap.mp hm
        rw [marks_of_context (below_params hkind d)] at hm
        have hvisit : (m.node, m.scopes) ∈ visitsIn lambda d := mem_visited.mpr ⟨m, hm, hway, rfl⟩
        exact .inl (List.mem_flatMap.mpr ⟨d, mem_paramNodes.mpr ⟨params, hparams, hd⟩, hvisit⟩)
    · rw [marks_of_context (by rw [rootContext, hroot])] at hm
      have hvisit : (m.node, m.scopes) ∈ visitsIn lambda c := mem_visited.mpr ⟨m, hm, hway, rfl⟩
      rcases hat with ⟨ret, hret, hat⟩ | ⟨body, hbody, hat⟩
      · obtain ⟨-, -, hmem, -⟩ := ret_mem hret
        obtain rfl := child_of_path hmem hc hat
        exact .inr (.inl (List.mem_flatMap.mpr ⟨ret, Option.mem_toList.mpr hret, hvisit⟩))
      · obtain rfl := child_of_path (body_mem hbody).1 hc hat
        exact .inr (.inr (List.mem_flatMap.mpr ⟨body, Option.mem_toList.mpr hbody, hvisit⟩))
    · rw [marks_root, rootContext, hroot, List.mem_cons] at hm
      rcases hm with rfl | hm
      · exact absurd hway (by simp)
      · exact absurd ((marksAll_out (fun d => rfl) m hm).symm.trans hway) (by decide)

end Roots

section Distinct

variable {wrapper : SyntaxNode} {lambda : Placed} {m m' : Mark}

theorem lambda_child (h : lambdaNode wrapper = some lambda) : lambda ∈ childNodes (wrapperNode wrapper) := by
  rw [lambdaNode] at h
  split at h
  · rw [Option.filter_eq_some_iff] at h
    exact List.mem_of_find?_eq_some h.1
  · exact absurd h (by simp)

theorem mark_placed (hm : m ∈ bodyMarks lambda) :
    m.node ∈ placedAll lambda.node.start lambda.path 0 lambda.node.children := by
  rw [← marksAll_nodes (rootContext lambda)]
  exact List.mem_map_of_mem hm

theorem mark_ne_lambda (hm : m ∈ bodyMarks lambda) : m.node ≠ lambda := by
  intro heq
  obtain ⟨i, -, hinit⟩ := path_placedAll (mark_placed hm)
  have hlen := hinit.length_le
  rw [heq, List.length_append, List.length_singleton] at hlen
  omega

theorem mark_unique (hm : m ∈ bodyMarks lambda) (hm' : m' ∈ bodyMarks lambda) (h : m.node = m'.node) : m = m' := by
  have hnodes : ((bodyMarks lambda).map Mark.node).Nodup := by
    rw [bodyMarks, marksAll_nodes]
    exact List.Nodup.of_map _ (pathsAll_nodup _ _ _ _)
  exact List.inj_on_of_nodup_map hnodes hm hm' h

theorem mark_in_wrapper (h : lambdaNode wrapper = some lambda) (hm : m ∈ bodyMarks lambda) :
    m.node ∈ nodesOf wrapper :=
  List.mem_cons_of_mem _ (placed_child (lambda_child h) (List.mem_cons_of_mem _ (mark_placed hm)))

theorem lambda_in_wrapper (h : lambdaNode wrapper = some lambda) : lambda ∈ nodesOf wrapper :=
  List.mem_cons_of_mem _ (placed_child (lambda_child h) List.mem_cons_self)

theorem visit_of_id (h : lambdaNode wrapper = some lambda) (hd : Distinct wrapper) (hm : m ∈ bodyMarks lambda)
    {v : Placed × List SyntaxNodePtr} (hv : v ∈ bodyVisits lambda) (hid : relOf wrapper v.1 = relOf wrapper m.node) :
    m.way = .plain ∧ v.2 = m.scopes := by
  have hin := mark_in_wrapper h hm
  rcases mem_bodyVisits.mp hv with rfl | ⟨m', hm', hway, rfl⟩
  · exact absurd (injective_of_distinct hd _ (lambda_in_wrapper h) _ hin hid).symm (mark_ne_lambda hm)
  · obtain rfl := mark_unique hm' hm (injective_of_distinct hd _ (mark_in_wrapper h hm') _ hin hid)
    exact ⟨hway, rfl⟩

theorem lastVisit_iff (h : lambdaNode wrapper = some lambda) (hd : Distinct wrapper) (hm : m ∈ bodyMarks lambda) :
    lastVisit wrapper lambda m.node = some m.scopes ↔ m.way = .plain := by
  obtain ⟨rel, hrel, -⟩ := survive_of_distinct hd wrapper rfl m.node (mark_in_wrapper h hm)
  rw [lastVisit, hrel, Option.bind_some]
  constructor
  · intro hlast
    obtain ⟨v, hv, -⟩ := Option.map_eq_some_iff.mp hlast
    have hid : relOf wrapper v.1 = some rel := by simpa using List.find?_some hv
    exact (visit_of_id h hd hm (List.mem_reverse.mp (List.mem_of_find?_eq_some hv)) (hid.trans hrel.symm)).1
  · intro hway
    have hvisit : (m.node, m.scopes) ∈ bodyVisits lambda := mem_bodyVisits.mpr (.inr ⟨m, hm, hway, rfl⟩)
    cases hfind : (bodyVisits lambda).reverse.find? (relOf wrapper ·.1 = some rel) with
    | none =>
        have hmiss := List.find?_eq_none.mp hfind _ (List.mem_reverse.mpr hvisit)
        exact absurd hrel (by simpa using hmiss)
    | some v =>
        have hid : relOf wrapper v.1 = some rel := by simpa using List.find?_some hfind
        have hv := List.mem_reverse.mp (List.mem_of_find?_eq_some hfind)
        exact congrArg some (visit_of_id h hd hm hv (hid.trans hrel.symm)).2

end Distinct

section Results

/-- Locals win at every reference exactly when the last visit under the id of each
reference is in the scopes around it. Where ids tell the nodes apart, this means
that no reference is in a part that the walk leaves out. -/
theorem locals_win_iff {wrapper : SyntaxNode} {fb : FnBody} {lambda : Placed}
    (h : lambdaNode wrapper = some lambda) (hfb : dbQueryBodyScopes wrapper = some fb) :
    (LocalsWin wrapper fb lambda ↔ ∀ m ∈ references lambda, lastVisit wrapper lambda m.node = some m.scopes) ∧
      (Distinct wrapper → (LocalsWin wrapper fb lambda ↔ ∀ m ∈ references lambda, m.way = .plain)) := by
  refine ⟨locals_win_of_visits h hfb, fun hd => (locals_win_of_visits h hfb).trans ?_⟩
  constructor
  · intro hlast m hm
    exact (lastVisit_iff h hd (List.mem_filter.mp hm).1).mp (hlast m hm)
  · intro hway m hm
    exact (lastVisit_iff h hd (List.mem_filter.mp hm).1).mpr (hway m hm)

def refTo (kind : SyntaxKind) (name : String) : Green := .node kind [.token ⟨.ident, word name⟩]

def paramOf (name : String) (type : Green) : Green :=
  .node .param [.token ⟨.ident, word name⟩, .token ⟨.colon, word ":"⟩, type]

def lambdaOf (param : Green) (stmts : List Green) : Green :=
  .node .lambdaExpr [.token ⟨.fnKw, word "fn"⟩, .token ⟨.lparen, word "("⟩,
    .node .paramList [param, .token ⟨.rparen, word ")"⟩],
    .node .blockStmt [.token ⟨.lbrace, word "\x7b"⟩, .node .stmtList stmts, .token ⟨.rbrace, word "\x7d"⟩]]

/-- `f::fn(n:usize)` with a block. -/
def functionOf (stmts : List Green) : SyntaxNode where
  kind := .bindDecl
  children := [.token ⟨.ident, word "f"⟩, .token ⟨.colonColon, word "::"⟩,
    lambdaOf (paramOf "n" (refTo .refType "usize")) stmts]
  start := 0

/-- `name:=init` -/
def bindOf (name : String) (init : Green) : Green :=
  .node .bindDecl [.token ⟨.ident, word name⟩, .token ⟨.colonEq, word ":="⟩, init]

/-- `g:=n` and a block with an `n` of its own, which a function in it reads. -/
def shadowing : List Green :=
  [bindOf "g" (refTo .refExpr "n"),
    .node .blockStmt [.token ⟨.lbrace, word "\x7b"⟩,
      .node .stmtList [bindOf "n" (refTo .refExpr "g"),
        bindOf "h" (lambdaOf (.node .param [.token ⟨.ident, word "g"⟩]) [refTo .refExpr "n", refTo .refExpr "g"])],
      .token ⟨.rbrace, word "\x7d"⟩],
    refTo .refExpr "n"]

/-- The block's `n` wins in the block, the `g` of the function in it there, and the parameter
behind the block. -/
theorem locals_win_shadowing : ∃ lambda fb, lambdaNode (functionOf shadowing) = some lambda ∧
    dbQueryBodyScopes (functionOf shadowing) = some fb ∧ LocalsWin (functionOf shadowing) fb lambda :=
  ⟨_, _, rfl, rfl, ((locals_win_iff rfl rfl).2 (by decide +kernel)).mpr (by decide +kernel)⟩

/-- `g:=fn(a:[n]u8){}` -/
def annotatedInside : Green :=
  bindOf "g" (lambdaOf (paramOf "a" (.node .arrayType [.token ⟨.lbracket, word "["⟩, refTo .refExpr "n",
    .token ⟨.rbracket, word "]"⟩, refTo .refType "u8"])) [])

/-- In `f::fn(n:usize){g:=fn(a:[n]u8){}}` the parameter does not win in the
annotation of the nested function. -/
theorem nested_annotation_unscoped : ∃ lambda fb, lambdaNode (functionOf [annotatedInside]) = some lambda ∧
    dbQueryBodyScopes (functionOf [annotatedInside]) = some fb ∧
      ¬LocalsWin (functionOf [annotatedInside]) fb lambda := by
  refine ⟨_, _, rfl, rfl, fun hwin => ?_⟩
  have hlast := (locals_win_of_visits rfl rfl).mp hwin
  have hvisited : ∀ m ∈ references _, m.way = .plain := fun m hm =>
    (lastVisit_iff rfl (by decide +kernel) (List.mem_filter.mp hm).1).mp (hlast m hm)
  exact absurd hvisited (by decide +kernel)

end Results

end Ore.BodyReferences
