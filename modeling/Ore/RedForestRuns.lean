import Ore.RedForestSplices

namespace Ore.RedForestRuns

open BindingGraph RedForest RedForestLinks RedForestEdits RedForestSplices Relation
open RedTree (leavesAll textLenAll)
open GreenTree (GreenToken)

/-- The operations on mutable trees. `root` makes one of a green node, `clone` of
an immutable handle. -/
inductive Op where
  | root (addr : Nat) (kind : SyntaxKinds.SyntaxKind) (children : List Green)
  | clone {g : Green} (n : Fixed g)
  | child (parent i : Nat)
  | retain (c : Nat)
  | release (c : Nat)
  | detach (c : Nat)
  | splice (parent start stop : Nat) (replace : List Nat)
  | replaceNode (node : Nat) (replacement : Green)
  | replaceToken (tok : Nat) (replacement : Green)

def apply (depth : Nat) (f : Forest) : Op → Option Forest
  | .root addr kind children => some (newRoot f (.node addr kind children)).2
  | .clone n => (cloneForUpdate depth n f).map Prod.snd
  | .child parent i => (childOrToken f parent i).map Prod.snd
  | .retain c => some (retain f c)
  | .release c => release depth f c
  | .detach c => detachCommon depth f c
  | .splice parent start stop replace => syntaxNodeSpliceChildren depth f parent start stop replace
  | .replaceNode node replacement => (syntaxNodeReplaceWith depth f node replacement).map Prod.snd
  | .replaceToken tok replacement => (syntaxTokenReplaceWith depth f tok replacement).map Prod.snd

/-- What every caller keeps to: it releases only its own references, and a node
is replaced by a node and a token by a token. -/
def Allowed (f : Forest) : Op → Prop
  | .release c => 0 < held f c
  | .replaceNode _ g => g.isToken = false
  | .replaceToken _ g => g.isToken = true
  | _ => True

/-- The edits that leave no live handle behind: no token is detached for good,
nothing goes below itself, the handles of a replaced node's children fit the new
node, and a token is replaced only by itself. -/
def Safe (f : Forest) : Op → Prop
  | .detach c => ∀ x, f.cells c = some x → x.green.isToken = false
  | .splice p start stop replace => (∀ c ∈ replace, ¬ Chain f p c) ∧
      ∀ c x, f.cells c = some x → x.parent = some p → start ≤ x.index → x.index < stop →
        x.green.isToken = true → c ∈ replace
  | .replaceNode c g => ∀ d y, f.cells d = some y → y.parent = some c → g.children[y.index]? = some y.green
  | .replaceToken c g => ∀ x, f.cells c = some x → g = x.green
  | _ => True

/-- The operation detaches the handle `c`, which was `x`. -/
def Detaches (c : Nat) (x : Cell) : Op → Prop
  | .detach d => c = d
  | .splice p start stop replace => x.parent = some p ∧ start ≤ x.index ∧ x.index < stop ∧ c ∉ replace
  | _ => False

/-- The forests that operations of a kind lead to. -/
inductive Run (ok : Forest → Op → Prop) : Forest → Prop
  | start (next nextGreen : Nat) : Run ok ⟨fun _ => none, next, nextGreen⟩
  | step {f f' : Forest} {op : Op} (depth : Nat) (run : Run ok f) (allowed : Allowed f op) (held : ok f op)
      (step : apply depth f op = some f') : Run ok f'

def width (ts : List GreenToken) : Nat := (ts.map fun t => t.text.length).sum

inductive Before (f : Forest) : Nat → List GreenToken → Prop
  | root {c : Nat} {x : Cell} (live : f.cells c = some x) (top : x.parent = none) : Before f c []
  | child {c p : Nat} {x px : Cell} {before : List GreenToken} (live : f.cells c = some x) (below : x.parent = some p)
      (parent : f.cells p = some px) (up : Before f p before) :
      Before f c (before ++ leavesAll (Green.plainAll (px.green.children.take x.index)))

structure Coherent (f : Forest) : Prop where
  green : ∀ c x p, f.cells c = some x → x.parent = some p →
    ∃ px, f.cells p = some px ∧ px.green.children[x.index]? = some x.green
  offset : ∀ c x, f.cells c = some x → ∃ root before after, Before f c before ∧
    root.leaves = before ++ x.green.leaves ++ after ∧
    ∃ enough, ∀ depth, enough ≤ depth → rootGreen depth f c = some root ∧ absOffset depth f c = some (width before)
  apart : ∀ c d x y p, f.cells c = some x → f.cells d = some y → x.parent = some p → y.parent = some p → c ≠ d →
    x.index ≠ y.index

variable {f f' : Forest} {c p depth : Nat} {x y px : Cell}

section Offsets

mutual

theorem textLen_eq : ∀ g : GreenTree.Green, RedTree.textLen g = width (RedTree.leaves g)
  | .token tok => by simp [RedTree.textLen, RedTree.leaves, width]
  | .node _ children => by
      rw [RedTree.textLen, RedTree.leaves]
      exact textLenAll_eq children

theorem textLenAll_eq : ∀ gs : List GreenTree.Green, textLenAll gs = width (leavesAll gs)
  | [] => rfl
  | g :: gs => by
      rw [RedTree.textLenAll, RedTree.leavesAll, width, List.map_append, List.sum_append, textLen_eq g,
        textLenAll_eq gs]
      rfl

end

theorem plainAll_append (gs hs : List Green) : Green.plainAll (gs ++ hs) = Green.plainAll gs ++ Green.plainAll hs := by
  induction gs with
  | nil => rfl
  | cons g gs ih => rw [List.cons_append, Green.plainAll, Green.plainAll, ih, List.cons_append]

theorem leaves_child {parent child : Green} {i : Nat} (h : parent.children[i]? = some child) :
    parent.leaves = leavesAll (Green.plainAll (parent.children.take i)) ++ child.leaves ++
      leavesAll (Green.plainAll (parent.children.drop (i + 1))) := by
  cases parent with
  | token => simp [Green.children] at h
  | node addr kind children =>
      rw [Green.children] at h
      obtain ⟨hi, rfl⟩ := List.getElem?_eq_some_iff.mp h
      have hsplit : children = children.take i ++ children[i] :: children.drop (i + 1) := by
        rw [← List.drop_eq_getElem_cons hi, List.take_append_drop]
      have hplain := congrArg (fun gs => leavesAll (Green.plainAll gs)) hsplit
      simp only [plainAll_append, RedTree.leavesAll_append, Green.plainAll, RedTree.leavesAll] at hplain
      simp only [Green.leaves, Green.plain, RedTree.leaves, Green.children]
      rw [List.append_assoc]
      exact hplain

/-- Every handle has its place in the text of its root, and the walk up finds it. -/
theorem located (h : Linked f none none) (c : Nat) : ∀ x, f.cells c = some x → ∃ root before after, Before f c before ∧
    root.leaves = before ++ x.green.leaves ++ after ∧
    ∃ enough, ∀ depth, enough ≤ depth → rootGreen depth f c = some root ∧
      nodeAbsOffset depth f c = some (width before) := by
  induction c using h.rises.induction with
  | _ c ih =>
      intro x hx
      cases hp : x.parent with
      | none =>
          refine ⟨x.green, [], [], .root hx hp, by simp, 1, fun depth hle => ?_⟩
          obtain ⟨depth, rfl⟩ := Nat.exists_eq_add_of_le' hle
          simp [rootGreen, nodeAbsOffset, hx, hp, width]
      | some p =>
          obtain ⟨px, hpx, -⟩ := h.live hx hp (by simp)
          obtain ⟨root, before, after, hbefore, hroot, enough, hup⟩ := ih p ⟨x, hx, hp⟩ px hpx
          rw [leaves_child (h.green hx hp hpx (by simp) (by simp))] at hroot
          refine ⟨root, _, _, .child hx hp hpx hbefore, by simpa using hroot, enough + 1, fun depth hle => ?_⟩
          obtain ⟨depth, rfl⟩ := Nat.exists_eq_add_of_le' (le_trans (Nat.le_add_left 1 enough) hle)
          obtain ⟨hrootgreen, hoffset⟩ := hup depth (by omega)
          refine ⟨by simpa [rootGreen, hx, hp] using hrootgreen, ?_⟩
          simp only [nodeAbsOffset, hx, Option.bind_some, hp, hpx, hoffset, Option.map_some, Green.relOffset,
            textLenAll_eq, width, List.map_append, List.sum_append, Nat.add_comm]

theorem coherent_of_linked (h : Linked f none none) (hroots : RootNodes f) : Coherent f where
  green c x p hx hp := by
    obtain ⟨px, hpx, -⟩ := h.live hx hp (by simp)
    exact ⟨px, hpx, h.green hx hp hpx (by simp) (by simp)⟩
  offset c x hx := by
    obtain ⟨root, before, after, hbefore, hroot, enough, hup⟩ := located h c x hx
    refine ⟨root, before, after, hbefore, hroot, enough, fun depth hle => ⟨(hup depth hle).1, ?_⟩⟩
    have hnode : ¬ (x.green.isToken = true ∧ x.parent = none) := by
      rintro ⟨htok, hp⟩
      rw [hroots c x hx hp] at htok
      cases htok
    rw [absOffset, hx, Option.bind_some, if_neg hnode]
    exact (hup depth hle).2
  apart c d x y p hx hy hxp hyp hne := by
    obtain ⟨px, hpx, hc⟩ := h.live hx hxp (by simp)
    obtain ⟨qx, hqx, hd⟩ := h.live hy hyp (by simp)
    obtain rfl := Option.some.inj (hpx.symm.trans hqx)
    exact h.index_ne hpx hc hd hne hx hy

end Offsets

section Runs

/-- What holds between operations, and what one of them does to the references
and to the handles it detaches. -/
structure Stepped (f f' : Forest) (op : Op) : Prop where
  linked : Linked f' none none
  roots : RootNodes f'
  held : ∀ c, op ≠ .release c → held f c ≤ held f' c
  detached : ∀ c x y, f.cells c = some x → Detaches c x op → f'.cells c = some y → y.parent = none ∧ y.green = x.green

theorem detach_stepped (h : Linked f none none) (hroots : RootNodes f) (hsafe : Safe f (.detach c))
    (hr : detachCommon depth f c = some f') : Stepped f f' (.detach c) := by
  cases hx : f.cells c with
  | none => simp [detachCommon, hx] at hr
  | some x =>
      cases hp : x.parent with
      | none =>
          simp only [detachCommon, hx, hp] at hr
          cases hr
          refine ⟨h, hroots, fun _ _ => le_rfl, fun d y z hy hd hz => ?_⟩
          obtain rfl : d = c := hd
          obtain rfl := Option.some.inj (hx.symm.trans hy)
          obtain rfl := Option.some.inj (hx.symm.trans hz)
          exact ⟨hp, rfl⟩
      | some p =>
          have hd := detach_spec h hx hp hr
          obtain ⟨w, hw, hwp, hwg⟩ := hd.node
          refine ⟨hd.linked, fun e y hy hroot => ?_, fun e _ => (hd.held e).ge, fun e y z hy he hz => ?_⟩
          · by_cases hec : e = c
            · subst hec
              obtain rfl := Option.some.inj (hy.symm.trans hw)
              rw [hwg]
              exact hsafe x hx
            · obtain ⟨z, hz, hzp, -, hnode⟩ := hd.other hy
              exact hnode (hroots e z hz ((hzp hec).symm.trans hroot))
          · obtain rfl : e = c := he
            obtain rfl := Option.some.inj (hx.symm.trans hy)
            obtain rfl := Option.some.inj (hz.symm.trans hw)
            exact ⟨hwp, hwg⟩

theorem safe_stepped {op : Op} (h : Linked f none none) (hroots : RootNodes f) (hallowed : Allowed f op)
    (hsafe : Safe f op) (hr : apply depth f op = some f') : Stepped f f' op := by
  cases op with
  | root addr kind children =>
      cases hr
      obtain ⟨hl, hgrows, -, hheld⟩ := newRoot_spec h (g := .node addr kind children) rfl
      exact ⟨hl, Grows.rootNodes hgrows hroots, fun c _ => by rw [hheld]; omega, fun _ _ _ _ hd => hd.elim⟩
  | clone n =>
      obtain ⟨⟨d, f₁⟩, hclone, rfl⟩ := Option.map_eq_some_iff.mp hr
      obtain ⟨hl, hroots', hheld, -⟩ := clone_spec h n hclone
      exact ⟨hl, hroots' hroots, fun c _ => by rw [hheld]; omega, fun _ _ _ _ hd => hd.elim⟩
  | child parent i =>
      obtain ⟨⟨d, f₁⟩, hchild, rfl⟩ := Option.map_eq_some_iff.mp hr
      obtain ⟨hl, hgrows, hheld, -⟩ := childOrToken_spec h hchild
      exact ⟨hl, Grows.rootNodes hgrows hroots, fun c _ => by rw [hheld]; omega, fun _ _ _ _ hd => hd.elim⟩
  | retain c =>
      cases hr
      obtain ⟨hl, hgrows, hheld⟩ := retain_spec h c
      exact ⟨hl, Grows.rootNodes hgrows hroots, fun d _ => by rw [hheld]; omega, fun _ _ _ _ hd => hd.elim⟩
  | release c =>
      obtain ⟨hl, hs, hheld, -⟩ := release_spec h hallowed hr
      refine ⟨hl, Survives.rootNodes hs hroots, fun d hd => ?_, fun _ _ _ _ hd => hd.elim⟩
      have hdc : d ≠ c := fun hdc => hd (by rw [hdc])
      rw [hheld, if_neg hdc]
      omega
  | detach c => exact detach_stepped h hroots hsafe hr
  | splice p start stop replace =>
      obtain ⟨hl, hroots', hheld, hgone⟩ := splice_spec h hroots hsafe.1 hsafe.2 hr
      refine ⟨hl, hroots', fun c _ => (hheld c).ge, fun c x y hx hd hy => ?_⟩
      obtain ⟨hp, hle, hlt, hc⟩ := hd
      exact hgone c x y hx hp hle hlt hc hy
  | replaceNode c g =>
      obtain ⟨⟨up, f₁⟩, hreplace, rfl⟩ := Option.map_eq_some_iff.mp hr
      obtain ⟨hl, hheld, hroots'⟩ := replaceNode_spec h hsafe hreplace
      exact ⟨hl, hroots' hroots hallowed, fun c _ => (hheld c).ge, fun _ _ _ _ hd => hd.elim⟩
  | replaceToken c g =>
      obtain ⟨⟨up, f₁⟩, hreplace, rfl⟩ := Option.map_eq_some_iff.mp hr
      cases hx : f.cells c with
      | none => simp [syntaxTokenReplaceWith, hx] at hreplace
      | some x =>
          rw [hsafe x hx] at hreplace
          obtain ⟨hl, hheld, hroots'⟩ := replaceToken_spec h hx hreplace
          exact ⟨hl, hroots' hroots, fun c _ => (hheld c).ge, fun _ _ _ _ hd => hd.elim⟩

theorem start_linked (next nextGreen : Nat) : Linked ⟨fun _ => none, next, nextGreen⟩ none none where
  live hx := by cases hx
  ring hx := by cases hx
  sorted hx := by cases hx
  synced hx := by cases hx
  counted hx := by cases hx
  green hx := by cases hx
  fresh _ := rfl

theorem run_linked (h : Run Safe f) : Linked f none none ∧ RootNodes f := by
  induction h with
  | start next nextGreen => exact ⟨start_linked next nextGreen, fun c x hx => by cases hx⟩
  | step depth _ hallowed hsafe hr ih =>
      have hstep := safe_stepped ih.1 ih.2 hallowed hsafe hr
      exact ⟨hstep.linked, hstep.roots⟩

/-- After any safe run the live handles are coherent, and a further safe step
keeps every held handle alive and makes those it detaches roots of the same
subtrees. -/
theorem safe_coherent (h : Run Safe f) : Coherent f ∧
    ∀ depth op f', Allowed f op → Safe f op → apply depth f op = some f' →
      (∀ c, 0 < held f c → op ≠ .release c → ∃ y, f'.cells c = some y) ∧
        ∀ c x y, f.cells c = some x → Detaches c x op → f'.cells c = some y →
          y.parent = none ∧ y.green = x.green := by
  obtain ⟨hl, hroots⟩ := run_linked h
  refine ⟨coherent_of_linked hl hroots, fun depth op f' hallowed hsafe hr => ?_⟩
  have hstep := safe_stepped hl hroots hallowed hsafe hr
  exact ⟨fun c hc hne => live_of_held (lt_of_lt_of_le hc (hstep.held c hne)), hstep.detached⟩

/-- A declaration detached from its file is a root with its token below it. -/
theorem safe_coherent_detach : ∃ f f' y, Coherent f ∧ apply 3 f (.detach 1) = some f' ∧ f'.cells 1 = some y ∧
    y.parent = none ∧ y.green = .node 1 .bindDecl [.token 2 ⟨.ident, [97]⟩] := by
  have hroot : Run Safe _ := @Run.step _ _ _ (.root 0 .sourceFile [.node 1 .bindDecl [.token 2 ⟨.ident, [97]⟩]]) 0
    (.start 0 10) trivial trivial rfl
  have hchild : Run Safe _ := @Run.step _ _ _ (.child 0 0) 0 hroot trivial trivial rfl
  obtain ⟨hcoherent, hsteps⟩ := safe_coherent hchild
  have hdetached := (hsteps 3 (.detach 1) _ trivial (fun x hx => by cases hx; rfl) rfl).2
  exact ⟨_, _, _, hcoherent, rfl, rfl, hdetached 1 _ _ rfl rfl rfl⟩

/-- A token replaced in place leaves its handle on the token before. -/
theorem token_replaced : ∃ f, Run (fun _ _ => True) f ∧ ¬ Coherent f := by
  have hroot : Run (fun _ _ => True) _ := @Run.step _ _ _ (.root 0 .sourceFile [.token 1 ⟨.ident, [97]⟩]) 0
    (.start 0 10) trivial trivial rfl
  have hchild : Run (fun _ _ => True) _ := @Run.step _ _ _ (.child 0 0) 0 hroot trivial trivial rfl
  have hreplace : Run (fun _ _ => True) _ :=
    @Run.step _ _ _ (.replaceToken 1 (.token 2 ⟨.ident, [98]⟩)) 2 hchild rfl trivial rfl
  refine ⟨_, hreplace, fun h => ?_⟩
  obtain ⟨px, hpx, hgreen⟩ := h.green 1 _ 0 rfl rfl
  cases hpx
  cases hgreen

end Runs

end Ore.RedForestRuns
