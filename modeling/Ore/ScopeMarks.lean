import Ore.ScopeGrowth

namespace Ore.ScopeMarks

open SyntaxKinds GreenTree RedTree DeclAstPaths BodyScopes ScopeGrowth
open ParentLinks (chain above Grounded)

section Marks

/-- How the walk comes by a node: not at all, in its scope, or on the way to the
nodes below it that it visits. -/
inductive Way where
  | out
  | plain
  | params
  | args (cont : SyntaxNodePtr)
  | lambda
  deriving DecidableEq

def isChild (c : Placed) (opt : Option Placed) : Bool := opt.any (·.ptr = c.ptr)

def openerOf (n c : Placed) : Option Placed :=
  match n.node.kind with
  | .blockStmt | .switchArm | .ctlLambda | .finalCtlLambda | .directLambda | .lambdaExpr => some n
  | .ifExpr =>
      if isChild c (ifExprCapture n) || isChild c (ifExprThenBranch n) then (ifExprCapture n).or (ifExprThenBranch n)
      else if isChild c (ifExprElseBranch n) then ifExprElseBranch n
      else none
  | .loopExpr => if isChild c (loopExprElseBranch n) then none else some n
  | .returnClause => if c.node.kind = .paramList then none else some n
  | _ => none

def bodyWay (n c : Placed) : Way := if (lambdaExprBody n).any (·.path = c.path) then .plain else .out

def callWay (n c : Placed) : Way :=
  match if callExprIsWith n then callExprWithContinuation n else none with
  | some cont => if c.node.kind = .argList then .args cont.ptr else .plain
  | none => .plain

/-- How the walk comes by a child: it leaves out all but the body of a lambda. -/
def wayOf (way : Way) (n c : Placed) : Way :=
  match way with
  | .out => .out
  | .params => .plain
  | .lambda => bodyWay n c
  | .args cont => if c.ptr = cont then .lambda else .plain
  | .plain => match n.node.kind with
    | .ctlLambda | .finalCtlLambda | .directLambda | .lambdaExpr => bodyWay n c
    | .callExpr => callWay n c
    | _ => .plain

/-- A node, the nodes that open the scopes around it, from the inside out, and
how the walk comes by it. -/
structure Mark where
  node : Placed
  scopes : List SyntaxNodePtr
  way : Way

abbrev Context : Type := Placed → Way × List SyntaxNodePtr

def below (n : Placed) (outer : Way × List SyntaxNodePtr) : Context := fun c =>
  (wayOf outer.1 n c, ((openerOf n c).map Placed.ptr).toList ++ outer.2)

mutual

def marks (context : Context) (start : Nat) (path : List Nat) : Green → List Mark
  | .token _ => []
  | .node kind children =>
      let n : Placed := ⟨path, ⟨kind, children, start⟩⟩
      ⟨n, (context n).2, (context n).1⟩ :: marksAll (below n (context n)) start path 0 children

def marksAll (context : Context) (start : Nat) (path : List Nat) (index : Nat) : List Green → List Mark
  | [] => []
  | c :: cs =>
      marks context start (path ++ [index]) c ++ marksAll context (start + textLen c) path (nextIndex index c) cs

end

def visited (ms : List Mark) : List (Placed × List SyntaxNodePtr) :=
  (ms.filter (·.way = .plain)).map fun m => (m.node, m.scopes)

end Marks

section Scopes

/-- The nodes that open a scope and the scopes around it. -/
def scopePtrs (scopes : List ScopeRow) (s : Nat) : List SyntaxNodePtr :=
  (chain (parentOf scopes) s).filterMap fun i => scopes[i]?.map (·.blockNode.ptr)

def taggedAs (b : BSBuilder) : List (Placed × List SyntaxNodePtr) := b.tags.map fun t => (t.1, scopePtrs b.scopes t.2)

variable {b b' : BSBuilder} {s : Nat} {n : Placed}

theorem getElem_of_extends {scopes scopes' : List ScopeRow} (h : scopes <+: scopes') {i : Nat}
    (hi : i < scopes.length) :
    scopes'[i]? = scopes[i]? := by
  obtain ⟨rest, rfl⟩ := h
  exact List.getElem?_append_left hi

theorem scopePtrs_extends {scopes scopes' : List ScopeRow} (hup : Grounded (parentOf scopes)) (h : scopes <+: scopes')
    (hs : s < scopes.length) : scopePtrs scopes' s = scopePtrs scopes s := by
  have hchain : chain (parentOf scopes') s = chain (parentOf scopes) s :=
    ParentLinks.chainFrom_congr hup fun i hi => by
      rw [parentOf, parentOf, getElem_of_extends h (by omega)]
  rw [scopePtrs, scopePtrs, hchain]
  refine List.filterMap_congr fun i hi => ?_
  have hle := ParentLinks.le_of_mem_chain hup hi
  rw [getElem_of_extends h (by omega)]

theorem scopePtrs_grows (hb : Formed b) (h : Grows b b') (hs : s < b.scopes.length) :
    scopePtrs b'.scopes s = scopePtrs b.scopes s := scopePtrs_extends hb.grounded h.scopes_prefix hs

theorem taggedAs_of_tags (hb : Formed b) (h : Grows b b') (htags : b'.tags = b.tags) : taggedAs b' = taggedAs b := by
  rw [taggedAs, taggedAs, htags]
  exact List.map_congr_left fun t ht => congrArg _ (scopePtrs_grows hb h (hb.tags t ht))

theorem taggedAs_tagNode : taggedAs (tagNode b n s) = taggedAs b ++ [(n, scopePtrs b.scopes s)] := by
  simp [taggedAs, tagNode]

theorem pushed_ptrs (hb : Formed b) (parent : Option Nat) (hparent : ∀ p, parent = some p → p < b.scopes.length) :
    scopePtrs (scopePush b parent n).2.scopes (scopePush b parent n).1 =
      n.ptr :: parent.elim [] (scopePtrs b.scopes) := by
  have hstep : Step b (scopePush b parent n).2 := .push hparent n
  have hup := (hb.step hstep).grounded
  have hparentOf : parentOf (scopePush b parent n).2.scopes (scopePush b parent n).1 = parent := by
    simp [parentOf, scopePush]
  rw [scopePtrs, ParentLinks.chain_eq hup, above, hparentOf, List.filterMap_cons]
  have hnew : (scopePush b parent n).2.scopes[(scopePush b parent n).1]? = some ⟨parent, n⟩ := by
    simp [scopePush]
  simp only [hnew, Option.map_some]
  cases parent with
  | none => rfl
  | some p => exact congrArg (n.ptr :: ·) (scopePtrs_extends hb.grounded hstep.scopes_prefix (hparent p rfl))

end Scopes

section Agreement

/-- A treatment of a node by scope numbers is one by the scopes themselves. -/
def Agrees (b : BSBuilder) (n : Placed) : Visit → Way × List SyntaxNodePtr → Prop
  | .skip, (.out, _) => True
  | .plain s, (.plain, scopes) => s < b.scopes.length ∧ scopePtrs b.scopes s = scopes
  | .withArgs outer contScope cont, (.args cont', scopes) =>
      (n.node.kind = .argList ∧ cont.kind = .lambdaExpr ∧ cont = cont') ∧
        (outer < b.scopes.length ∧ scopePtrs b.scopes outer = scopes) ∧
        contScope < b.scopes.length ∧ scopePtrs b.scopes contScope = cont :: scopes
  | .bodyOf s, (.lambda, scopes) =>
      n.node.kind = .lambdaExpr ∧ s < b.scopes.length ∧ scopePtrs b.scopes s = n.ptr :: scopes
  | _, _ => False

variable {b b' : BSBuilder} {scope : Nat} {n : Placed} {scopes : List SyntaxNodePtr}

/-- A scope that is there, with the nodes that open it and those around it. -/
abbrev Stands (b : BSBuilder) (s : Nat) (scopes : List SyntaxNodePtr) : Prop :=
  s < b.scopes.length ∧ scopePtrs b.scopes s = scopes

theorem Stands.grows (h : Stands b scope scopes) (hb : Formed b) (hgrow : Grows b b') : Stands b' scope scopes :=
  ⟨hgrow.lt h.1, (scopePtrs_grows hb hgrow h.1).trans h.2⟩

theorem Agrees.within {visit : Visit} {way : Way × List SyntaxNodePtr} (h : Agrees b n visit way) : Within b visit := by
  obtain ⟨way, scopes⟩ := way
  cases visit with
  | skip => trivial
  | plain s => cases way <;> first | exact h.1 | exact h.elim
  | bodyOf s => cases way <;> first | exact h.2.1 | exact h.elim
  | withArgs o c k => cases way <;> first | exact ⟨h.2.1.1, h.2.2.1⟩ | exact h.elim

theorem Agrees.grows {visit : Visit} {way : Way × List SyntaxNodePtr} (h : Agrees b n visit way) (hb : Formed b)
    (hgrow : Grows b b') : Agrees b' n visit way := by
  obtain ⟨way, scopes⟩ := way
  cases visit with
  | skip => cases way <;> exact h
  | plain s => cases way <;> first | exact Stands.grows h hb hgrow | exact h.elim
  | bodyOf s => cases way <;> first | exact ⟨h.1, Stands.grows h.2 hb hgrow⟩ | exact h.elim
  | withArgs o c k =>
      cases way <;> first
        | exact ⟨h.1, Stands.grows h.2.1 hb hgrow, Stands.grows h.2.2 hb hgrow⟩
        | exact h.elim

theorem pushed_stands (hb : Formed b) (h : Stands b scope scopes) (n : Placed) :
    Stands (scopePush b (some scope) n).2 (scopePush b (some scope) n).1 (n.ptr :: scopes) := by
  refine ⟨pushed_lt b (some scope) n, ?_⟩
  rw [pushed_ptrs hb (some scope) fun p hp => Option.some.inj hp ▸ h.1, Option.elim_some, h.2]

theorem pushedOptional_stands (hb : Formed b) (h : Stands b scope scopes) (opener : Option Placed) :
    Stands (scopePushOptional b scope opener).2 (scopePushOptional b scope opener).1
      ((opener.map Placed.ptr).toList ++ scopes) := by
  cases opener with
  | none => exact h
  | some opener => exact pushed_stands hb h opener

/-- The walk goes on below a node as the marks say. -/
structure Matches (b : BSBuilder) (n : Placed) (way : Way) (scopes : List SyntaxNodePtr) (entry : Entry) : Prop where
  grows : Grows b entry.1
  tags : entry.1.tags = b.tags
  children : ∀ c, Agrees entry.1 c (entry.2 c) (below n (way, scopes) c)

theorem bindNamed_tags : (bindNamed b scope n).tags = b.tags := by
  rw [bindNamed]
  cases nameOf n <;> rfl

theorem bindOptional_tags (opt : Option Placed) : (bindOptional b scope opt).tags = b.tags := by
  cases opt with
  | none => rfl
  | some p => exact bindNamed_tags

theorem bindParams_tags (lambda : Placed) : (bindParams b scope lambda).tags = b.tags := by
  rw [bindParams]
  induction paramNodes lambda generalizing b with
  | nil => rfl
  | cons p ps ih =>
      rw [List.foldl_cons, ih]
      split
      · exact bindNamed_tags
      · rfl

theorem pushOptional_tags (opener : Option Placed) : (scopePushOptional b scope opener).2.tags = b.tags := by
  cases opener <;> rfl

theorem enterBlock_matches (hb : Formed b) (h : Stands b scope scopes)
    (hkind : n.node.kind = .blockStmt ∨ n.node.kind = .switchArm) :
    Matches b n .plain scopes (enterBlock scope n b) := by
  refine ⟨push_grows h.1, rfl, fun c => ?_⟩
  have hbelow : below n (.plain, scopes) c = (.plain, n.ptr :: scopes) := by
    rcases hkind with hk | hk <;> simp [below, wayOf, openerOf, hk]
  rw [hbelow]
  exact pushed_stands hb h n

theorem walkChildrenScoped_cons (s : Nat) (opt : Option Placed) (overrides : List (Option Placed × Nat)) (c : Placed) :
    walkChildrenScoped scope ((opt, s) :: overrides) c =
      if isChild c opt then .plain s else walkChildrenScoped scope overrides c := by
  rw [walkChildrenScoped, List.find?_cons, isChild]
  cases opt.any (·.ptr = c.ptr) <;> rfl

theorem enterIf_matches (hb : Formed b) (h : Stands b scope scopes) (hkind : n.node.kind = .ifExpr) :
    Matches b n .plain scopes (enterIf scope n b) := by
  have hready := enterIf_ready (n := n) h.1
  refine ⟨hready.1, (pushOptional_tags _).trans ((bindOptional_tags _).trans (pushOptional_tags _)), fun c => ?_⟩
  have hpush := pushOptional_grows ((ifExprCapture n).or (ifExprThenBranch n)) h.1
  have hthen := pushedOptional_stands hb h ((ifExprCapture n).or (ifExprThenBranch n))
  have hbound := bindOptional_grows (ifExprCapture n) hthen.1
  have hscope := h.grows hb (hpush.trans hbound)
  have helse := pushedOptional_stands (hb.grows (hpush.trans hbound)) hscope (ifExprElseBranch n)
  have hgrow := pushOptional_grows (ifExprElseBranch n) hscope.1
  have hthen' := (hthen.grows (hb.grows hpush) hbound).grows (hb.grows (hpush.trans hbound)) hgrow
  have hscope' := hscope.grows (hb.grows (hpush.trans hbound)) hgrow
  simp only [enterIf, walkChildrenScoped_cons, below, openerOf, hkind, wayOf]
  by_cases hcapture : isChild c (ifExprCapture n)
  · simp only [hcapture, Bool.true_or, if_true]
    exact hthen'
  · by_cases hbranch : isChild c (ifExprThenBranch n)
    · simp only [hcapture, hbranch, Bool.or_true, if_true]
      exact hthen'
    · by_cases hother : isChild c (ifExprElseBranch n)
      · simp only [hcapture, hbranch, hother, Bool.or_self, if_true]
        exact helse
      · simp only [hcapture, hbranch, hother, Bool.or_self]
        exact hscope'

theorem enterLoop_matches (hb : Formed b) (h : Stands b scope scopes) (hkind : n.node.kind = .loopExpr) :
    Matches b n .plain scopes (enterLoop scope n b) := by
  have hready := enterLoop_ready (n := n) h.1
  refine ⟨hready.1, bindOptional_tags _, fun c => ?_⟩
  have hpush := push_grows (n := n) h.1
  have hloop := pushed_stands hb h n
  have hbound := bindOptional_grows (astFirstChild n .capture) hloop.1
  simp only [enterLoop, walkChildrenScoped_cons, below, openerOf, hkind, wayOf]
  by_cases hother : isChild c (loopExprElseBranch n)
  · simp only [hother, if_true]
    exact h.grows hb (hpush.trans hbound)
  · simp only [hother]
    exact hloop.grows (hb.grows hpush) hbound

theorem enterReturnClause_matches (hb : Formed b) (h : Stands b scope scopes) (hkind : n.node.kind = .returnClause) :
    Matches b n .plain scopes (enterReturnClause scope n b) := by
  have hready := enterReturnClause_ready (n := n) h.1
  refine ⟨hready.1, bindOptional_tags _, fun c => ?_⟩
  have hpush := push_grows (n := n) h.1
  have hclause := pushed_stands hb h n
  have hbound := bindOptional_grows ((astFirstChild n .paramList).bind (astFirstChild · .param)) hclause.1
  simp only [enterReturnClause, below, openerOf, hkind, wayOf]
  by_cases hlist : c.node.kind = .paramList
  · simp only [hlist, if_true]
    exact h.grows hb (hpush.trans hbound)
  · simp only [hlist, if_false]
    exact hclause.grows (hb.grows hpush) hbound

theorem onlyBody_agrees {c : Placed} (h : Stands b scope scopes) :
    Agrees b c (onlyBody n scope c) (bodyWay n c, scopes) := by
  rw [onlyBody, bodyWay]
  split
  · exact h
  · trivial

def IsLambda (kind : SyntaxKind) : Prop :=
  kind = .ctlLambda ∨ kind = .finalCtlLambda ∨ kind = .directLambda ∨ kind = .lambdaExpr

theorem below_lambda {c : Placed} (hkind : IsLambda n.node.kind) :
    below n (.plain, scopes) c = (bodyWay n c, n.ptr :: scopes) := by
  rcases hkind with hk | hk | hk | hk <;> simp [below, wayOf, openerOf, hk]

theorem enterLambda_matches (hb : Formed b) (h : Stands b scope scopes) (hkind : IsLambda n.node.kind) :
    Matches b n .plain scopes (enterLambda scope n b) := by
  have hpush := push_grows (n := n) h.1
  have hlam := pushed_stands hb h n
  have hbound := bindParams_grows n hlam.1
  have hlam' := hlam.grows (hb.grows hpush) hbound
  refine ⟨(enterLambda_ready h.1).1, ?_, fun c => ?_⟩
  · simp only [enterLambda]
    split
    · exact bindParams_tags _
    · exact bindParams_tags _
  · rw [below_lambda hkind]
    simp only [enterLambda]
    split
    · exact onlyBody_agrees hlam'
    · exact onlyBody_agrees hlam'

theorem continuation_kind {cont : Placed} (h : callExprWithContinuation n = some cont) :
    cont.node.kind = .lambdaExpr := by
  rw [callExprWithContinuation, Option.bind_eq_some_iff] at h
  obtain ⟨args, -, hfind⟩ := h
  simpa using List.find?_some hfind

theorem enterCall_matches (hb : Formed b) (h : Stands b scope scopes) (hkind : n.node.kind = .callExpr) :
    Matches b n .plain scopes (enterCall scope n b) := by
  have hready := enterCall_ready (n := n) h.1
  refine ⟨hready.1, ?_, fun c => ?_⟩
  · rw [enterCall]
    split
    · rfl
    · exact bindOptional_tags _
  · simp only [below, openerOf, hkind, wayOf, enterCall, callWay]
    split
    · rename_i hcont
      rw [hcont]
      exact h
    · rename_i cont hcont
      have hpush := push_grows (n := cont) h.1
      have hnew := pushed_stands hb h cont
      have hbound := bindOptional_grows (callExprWithBinder n) hnew.1
      have hscope := h.grows hb (hpush.trans hbound)
      rw [hcont]
      simp only
      split
      · rename_i hargs
        have hcont' : callExprWithContinuation n = some cont := by
          split at hcont
          · exact hcont
          · exact absurd hcont (by simp)
        exact ⟨⟨hargs, continuation_kind hcont', rfl⟩, hscope, hnew.grows (hb.grows hpush) hbound⟩
      · exact hscope

theorem enterPlain_matches (hb : Formed b) (h : Stands b scope scopes) :
    Matches b n .plain scopes (enterPlain scope n b) := by
  rw [enterPlain]
  split
  · exact enterBlock_matches hb h (.inl (by assumption))
  · exact enterBlock_matches hb h (.inr (by assumption))
  · exact enterIf_matches hb h (by assumption)
  · exact enterLoop_matches hb h (by assumption)
  · exact enterReturnClause_matches hb h (by assumption)
  · exact enterLambda_matches hb h (.inl (by assumption))
  · exact enterLambda_matches hb h (.inr (.inl (by assumption)))
  · exact enterLambda_matches hb h (.inr (.inr (.inl (by assumption))))
  · exact enterLambda_matches hb h (.inr (.inr (.inr (by assumption))))
  · exact enterCall_matches hb h (by assumption)
  · refine ⟨.refl b, rfl, fun c => ?_⟩
    have hopener : openerOf n c = none := by
      rw [openerOf]
      split <;> first | contradiction | rfl
    have hway : wayOf .plain n c = .plain := by
      simp only [wayOf]
    simp only [below, hopener, hway]
    exact h

theorem enter_tagged {visit : Visit} {way : Way × List SyntaxNodePtr} (hb : Formed b) (h : Agrees b n visit way) :
    taggedAs (enter visit n b).1 = taggedAs b ++ visited [⟨n, way.2, way.1⟩] ∧
      ∀ c, Agrees (enter visit n b).1 c ((enter visit n b).2 c) (below n way c) := by
  obtain ⟨way, scopes⟩ := way
  cases visit with
  | skip =>
      cases way with
      | out => exact ⟨by simp [enter, visited], fun c => trivial⟩
      | _ => exact h.elim
  | plain s =>
      cases way with
      | plain =>
          have hstep := (Step.tag h.1 n).grows
          have htag : Stands (tagNode b n s) s scopes := Stands.grows h hb hstep
          have hmatch := enterPlain_matches (n := n) (hb.grows hstep) htag
          refine ⟨?_, hmatch.children⟩
          rw [enter, taggedAs_of_tags (hb.grows hstep) hmatch.grows hmatch.tags, taggedAs_tagNode]
          simp [visited, h.2]
      | _ => exact h.elim
  | bodyOf s =>
      cases way with
      | lambda =>
          refine ⟨by simp [enter, visited], fun c => ?_⟩
          have hopener : openerOf n c = some n := by rw [openerOf, h.1]
          simp only [enter, below, wayOf, hopener]
          exact onlyBody_agrees h.2
      | _ => exact h.elim
  | withArgs outer contScope cont =>
      cases way with
      | args cont' =>
          obtain ⟨⟨hargs, hlambda, rfl⟩, houter, hcont⟩ := h
          refine ⟨by simp [enter, visited], fun c => ?_⟩
          have hopener : openerOf n c = none := by rw [openerOf, hargs]
          simp only [enter, below, wayOf, hopener]
          split
          · rename_i hc
            refine ⟨?_, hc ▸ hcont⟩
            rw [← hlambda, ← hc]
            rfl
          · exact houter
      | _ => exact h.elim

theorem leave_tagged {visit : Visit} (hb : Formed b) (h : Within b visit) :
    taggedAs (leave visit n b) = taggedAs b := by
  refine taggedAs_of_tags hb (leave_grows h) ?_
  cases visit with
  | plain s =>
      rw [leave]
      split
      · exact bindNamed_tags
      · rfl
  | skip => rfl
  | bodyOf s => rfl
  | withArgs o c k => rfl

end Agreement

section Walks

theorem visited_append (ms ms' : List Mark) : visited (ms ++ ms') = visited ms ++ visited ms' := by
  rw [visited, List.filter_append, List.map_append]
  rfl

mutual

/-- The walk tags the nodes that the marks show as visited, each with the scopes
around it. -/
theorem walk_tagged (route : Placed → Visit) (context : Context) (start : Nat) (path : List Nat) :
    ∀ (g : Green) (b : BSBuilder), Formed b → (∀ n, Agrees b n (route n) (context n)) →
      taggedAs (walk route start path g b) = taggedAs b ++ visited (marks context start path g)
  | .token _, b => fun _ _ => (List.append_nil _).symm
  | .node kind children, b => fun hb h => by
      rw [walk, marks]
      obtain ⟨htagged, hinner⟩ := enter_tagged hb (h ⟨path, ⟨kind, children, start⟩⟩)
      have hready := enter_ready ⟨path, ⟨kind, children, start⟩⟩ (h ⟨path, ⟨kind, children, start⟩⟩).within
      have hformed := hb.grows hready.1
      have hgrow := walkChildren_grows _ start path 0 children _ hready.2
      have hwithin := (h ⟨path, ⟨kind, children, start⟩⟩).within.mono (hready.1.trans hgrow)
      rw [leave_tagged (hformed.grows hgrow) hwithin, walkChildren_tagged _ _ start path 0 children _ hformed hinner,
        htagged, List.append_assoc, ← visited_append]
      rfl

theorem walkChildren_tagged (route : Placed → Visit) (context : Context) (start : Nat) (path : List Nat) (index : Nat) :
    ∀ (gs : List Green) (b : BSBuilder), Formed b → (∀ n, Agrees b n (route n) (context n)) →
      taggedAs (walkChildren route start path index gs b) = taggedAs b ++ visited (marksAll context start path index gs)
  | [], b => fun _ _ => (List.append_nil _).symm
  | c :: cs, b => fun hb h => by
      have hgrow := walk_grows route start (path ++ [index]) c b fun n => (h n).within
      rw [walkChildren, marksAll, walkChildren_tagged route context _ path _ cs _ (hb.grows hgrow)
          fun n => (h n).grows hb hgrow,
        walk_tagged route context start (path ++ [index]) c b hb h, List.append_assoc, ← visited_append]

end

end Walks

section Bodies

/-- The visits to a subtree in the outermost scope of a lambda. -/
def visitsIn (lambda n : Placed) : List (Placed × List SyntaxNodePtr) :=
  visited (marks (fun _ => (.plain, [lambda.ptr])) n.node.start n.path n.node.green)

def bodyVisits (lambda : Placed) : List (Placed × List SyntaxNodePtr) :=
  (lambda, [lambda.ptr]) :: (paramNodes lambda).flatMap (visitsIn lambda) ++
    (lambdaExprReturnType lambda).toList.flatMap (visitsIn lambda) ++
    (lambdaExprBody lambda).toList.flatMap (visitsIn lambda)

variable {b : BSBuilder} {scope : Nat} {lambda : Placed}

theorem walkNode_tagged (n : Placed) (hb : Formed b) (h : Stands b scope [lambda.ptr]) :
    taggedAs (walkNode n scope b) = taggedAs b ++ visitsIn lambda n :=
  walk_tagged _ _ _ _ _ b hb fun _ => h

theorem walkParam_tagged (p : Placed) (hb : Formed b) (h : Stands b scope [lambda.ptr]) :
    taggedAs (walkParam scope b p) = taggedAs b ++ visitsIn lambda p := by
  rw [walkParam]
  split
  · have hgrow := bindNamed_grows (n := p) h.1
    rw [walkNode_tagged p (hb.grows hgrow) (h.grows hb hgrow), taggedAs_of_tags hb hgrow bindNamed_tags]
  · exact walkNode_tagged p hb h

theorem walkParams_tagged (ps : List Placed) (hb : Formed b) (h : Stands b scope [lambda.ptr]) :
    taggedAs (ps.foldl (walkParam scope) b) = taggedAs b ++ ps.flatMap (visitsIn lambda) := by
  induction ps generalizing b with
  | nil => exact (List.append_nil _).symm
  | cons p ps ih =>
      have hgrow := walkParam_grows p h.1
      rw [List.foldl_cons, ih (hb.grows hgrow) (h.grows hb hgrow), walkParam_tagged p hb h, List.flatMap_cons,
        List.append_assoc]

theorem walkOptional_tagged (n : Option Placed) (hb : Formed b) (h : Stands b scope [lambda.ptr]) :
    taggedAs (walkOptional scope b n) = taggedAs b ++ n.toList.flatMap (visitsIn lambda) := by
  cases n with
  | none => exact (List.append_nil _).symm
  | some n =>
      rw [walkOptional, Option.elim_some, walkNode_tagged n hb h]
      simp

theorem buildScopes_tagged (lambda : Placed) : taggedAs (buildScopes lambda) = bodyVisits lambda := by
  have hstep : Step .empty (scopePush .empty none lambda).2 := .push (by simp) lambda
  have hroot : Stands (scopePush .empty none lambda).2 (scopePush .empty none lambda).1 [lambda.ptr] :=
    ⟨pushed_lt _ _ _, pushed_ptrs formed_empty none (by simp)⟩
  have hformed := formed_empty.step hstep
  have htag := (Step.tag hroot.1 lambda).grows
  have hparams := walkParams_grows (paramNodes lambda) (htag.lt hroot.1)
  have hsignature := htag.trans hparams
  have hreturned := walkOptional_grows (lambdaExprReturnType lambda) (hsignature.lt hroot.1)
  have hroot' := hroot.grows hformed htag
  rw [buildScopes, bodyVisits, walkOptional_tagged (lambdaExprBody lambda) (hformed.grows (hsignature.trans hreturned))
      (hroot.grows hformed (hsignature.trans hreturned)),
    walkOptional_tagged (lambdaExprReturnType lambda) (hformed.grows hsignature) (hroot.grows hformed hsignature),
    walkParams_tagged _ (hformed.grows htag) hroot', taggedAs_tagNode, hroot.2]
  rfl

end Bodies

end Ore.ScopeMarks
