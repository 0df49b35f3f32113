import Ore.RedTree

namespace Ore.NodePointers

open SyntaxKinds GreenTree RedTree

def childNode (n : SyntaxNode) (i : Nat) : Option SyntaxNode :=
  match n.children[i]? with
  | some (.node kind children) => some ⟨kind, children, n.childStart i⟩
  | _ => none

/-- A node below another, and the nodes on the way, the upper one first. -/
inductive Descends : SyntaxNode → List SyntaxNode → SyntaxNode → Prop
  | here (n : SyntaxNode) : Descends n [] n
  | step {a b n : SyntaxNode} {above : List SyntaxNode} (i : Nat) (hchild : childNode a i = some b)
      (h : Descends b above n) : Descends a (a :: above) n

variable {a b n : SyntaxNode} {above : List SyntaxNode} {i : Nat}

theorem childNode_green (h : childNode a i = some b) :
    a.children[i]? = some b.green ∧ b.start = a.childStart i := by
  unfold childNode at h
  split at h
  · rename_i kind children hchild
    obtain rfl := Option.some.inj h
    exact ⟨hchild, rfl⟩
  · cases h

theorem childNode_range (h : childNode a i = some b) : b.textRange = a.childRange i := by
  obtain ⟨hgreen, hstart⟩ := childNode_green h
  rw [SyntaxNode.textRange, SyntaxNode.childRange, hstart, hgreen]
  simp [textLenAll, SyntaxNode.green, textLen]

theorem childNode_depth (h : childNode a i = some b) : depth b.green < depth a.green := by
  have hmem := List.mem_of_getElem? (childNode_green h).1
  have hdepth : depth a.green = depthAll a.children + 1 := by rw [SyntaxNode.green, depth]
  rw [hdepth]
  exact Nat.lt_succ_of_le (depth_le_of_mem hmem)

theorem childNode_stop (h : childNode a i = some b) : b.textRange.stop = a.childStart (i + 1) := by
  rw [childNode_range h, childRange_stop]

theorem childStart_last (a : SyntaxNode) {j : Nat} (h : a.children.length ≤ j) :
    a.childStart j = a.textRange.stop := by
  rw [SyntaxNode.childStart, List.take_of_length_le h]
  rfl

theorem childNode_inside (h : childNode a i = some b) :
    a.start ≤ b.start ∧ b.textRange.stop ≤ a.textRange.stop := by
  have hstart := (childNode_green h).2
  have hlt := (List.getElem?_eq_some_iff.mp (childNode_green h).1).1
  refine ⟨hstart ▸ Nat.le_add_right .., ?_⟩
  rw [childNode_stop h, ← childStart_last a (Nat.le_refl _)]
  exact childStart_mono a hlt

theorem Descends.depth_lt (h : Descends a above n) : n = a ∨ depth n.green < depth a.green := by
  induction h with
  | here n => exact .inl rfl
  | step i hchild _ ih =>
      have hlt := childNode_depth hchild
      rcases ih with rfl | ih
      · exact .inr hlt
      · exact .inr (ih.trans hlt)

theorem Descends.ne (i : Nat) (hchild : childNode a i = some b) (h : Descends b above n) : n ≠ a := by
  rintro rfl
  have hlt := childNode_depth hchild
  rcases h.depth_lt with rfl | hlt'
  · exact absurd hlt (Nat.lt_irrefl _)
  · omega

theorem Descends.inside (h : Descends a above n) :
    a.start ≤ n.start ∧ n.textRange.stop ≤ a.textRange.stop := by
  induction h with
  | here n => exact ⟨Nat.le_refl _, Nat.le_refl _⟩
  | step i hchild _ ih =>
      have hinside := childNode_inside hchild
      exact ⟨hinside.1.trans ih.1, ih.2.trans hinside.2⟩

theorem holds_child (hchild : childNode a i = some b) (h : Descends b above n) (hpos : 0 < n.textRange.length) :
    Holds a n.textRange i := by
  have hinside := h.inside
  have hstart := (childNode_green hchild).2
  have hstop := childNode_stop hchild
  have hlen : n.textRange.stop = n.start + n.textRange.length := rfl
  have hbegin : n.textRange.start = n.start := rfl
  exact ⟨by omega, by omega, by omega⟩

theorem find_child (hchild : childNode a i = some b) (h : Descends b above n) (hpos : 0 < n.textRange.length) :
    findChildContaining a n.textRange = some i :=
  findChildContaining_eq (List.getElem?_eq_some_iff.mp (childNode_green hchild).1).1 (holds_child hchild h hpos)

theorem turn_child {ptr : SyntaxNodePtr} (hptr : ptr.range = n.textRange) (hchild : childNode a i = some b)
    (h : Descends b above n) (hpos : 0 < n.textRange.length) (hrange : a.textRange ≠ n.textRange) :
    resolveTurn ptr a = if syntaxNodePtrNew b = ptr then .inr (some b) else .inl b := by
  obtain ⟨hgreen, hstart⟩ := childNode_green hchild
  have hnext : (⟨b.kind, b.children, a.childStart i⟩ : SyntaxNode) = b := by rw [← hstart]
  rw [resolveTurn, hptr, if_neg hrange, find_child hchild h hpos]
  simp only [hgreen, SyntaxNode.green, hnext]

theorem descent {ptr : SyntaxNodePtr} (h : Descends a above n) (hptr : ptr.range = n.textRange)
    (hpos : 0 < n.textRange.length) (hrange : ∀ x ∈ above, x.textRange ≠ n.textRange) (hbelow : above ≠ [])
    {fuel : Nat} (hfuel : depth a.green < fuel) :
    Loop.run (resolveTurn ptr) fuel a = some (if syntaxNodePtrNew n = ptr then some n else none) := by
  induction h generalizing fuel with
  | here n => exact absurd rfl hbelow
  | @step a b n above i hchild h ih =>
      obtain ⟨fuel, rfl⟩ := Nat.exists_eq_succ_of_ne_zero (by omega : fuel ≠ 0)
      have hlt := childNode_depth hchild
      have hturn := turn_child hptr hchild h hpos (hrange a (List.mem_cons_self ..))
      rw [Loop.run, hturn]
      cases h with
      | here n =>
          by_cases hsame : syntaxNodePtrNew b = ptr
          · rw [if_pos hsame, if_pos hsame]
          · rw [if_neg hsame, if_neg hsame]
            obtain ⟨fuel, rfl⟩ := Nat.exists_eq_succ_of_ne_zero (by omega : fuel ≠ 0)
            exact Loop.run_exit (by rw [resolveTurn, if_pos hptr.symm]) fuel
      | @step b b' n above j hchild' h' =>
          have hb : b.textRange ≠ n.textRange := hrange b (List.mem_cons_of_mem _ (List.mem_cons_self ..))
          have hsame : syntaxNodePtrNew b ≠ ptr := fun heq => hb (hptr ▸ congrArg SyntaxNodePtr.range heq)
          rw [if_neg hsame]
          exact ih hptr hpos (fun x hx => hrange x (List.mem_cons_of_mem _ hx)) (List.cons_ne_nil _ _) (by omega)

theorem found_inside {parent : SyntaxNode} {target : TextRange} (h : findChildContaining parent target = some i) :
    (parent.childRange i).start ≤ target.start ∧ target.start < (parent.childRange i).stop := by
  obtain ⟨r, hr, hpost⟩ := Loop.run_spec (searchTurn parent target) (fun _ => True)
    (fun r => ∀ i ∈ r, (parent.childRange i).start ≤ target.start ∧ target.start < (parent.childRange i).stop)
    (fun bounds => bounds.2 - bounds.1)
    (by
      rintro ⟨lo, hi⟩ next - hturn
      rw [searchTurn] at hturn
      simp only at hturn ⊢
      split at hturn
      · split at hturn
        · cases hturn
          exact ⟨trivial, by omega⟩
        · split at hturn
          · cases hturn
            exact ⟨trivial, by omega⟩
          · split at hturn <;> cases hturn
      · cases hturn)
    (by
      rintro ⟨lo, hi⟩ r - hturn
      rw [searchTurn] at hturn
      simp only at hturn
      split at hturn
      · split at hturn
        · cases hturn
        · split at hturn
          · cases hturn
          · rename_i hstop hstart
            split at hturn
            · cases hturn
              rintro j ⟨⟩
              exact ⟨Nat.le_of_not_lt hstart, Nat.lt_of_not_le hstop⟩
            · cases hturn
              rintro j ⟨⟩
      · cases hturn
        rintro j ⟨⟩)
    (parent.children.length + 1) (0, parent.children.length) trivial (by simp)
  rw [findChildContaining, hr] at h
  exact hpost i h

theorem descent_sound {ptr : SyntaxNodePtr} {root : SyntaxNode} {fuel : Nat} {r : SyntaxNode}
    (h : Loop.run (resolveTurn ptr) fuel root = some (some r)) :
    syntaxNodePtrNew r = ptr ∧ 0 < r.textRange.length := by
  induction fuel generalizing root with
  | zero => cases h
  | succ fuel ih =>
      rw [Loop.run] at h
      cases hturn : resolveTurn ptr root with
      | inl next =>
          rw [hturn] at h
          exact ih h
      | inr r' =>
          rw [hturn] at h
          obtain rfl := Option.some.inj h
          rw [resolveTurn] at hturn
          split at hturn
          · cases hturn
          · split at hturn
            · cases hturn
            · rename_i idx hfind
              split at hturn
              · rename_i kind children hchild
                simp only at hturn
                split at hturn
                · rename_i hsame
                  cases hturn
                  have hfound := found_inside hfind
                  have hnode : childNode root idx = some ⟨kind, children, root.childStart idx⟩ := by
                    rw [childNode, hchild]
                  have hrange := childNode_range hnode
                  refine ⟨hsame, ?_⟩
                  rw [hrange]
                  rw [TextRange.stop] at hfound
                  omega
                · cases hturn
              · cases hturn

theorem Descends.first (h : Descends a above n) (hsome : ∃ x ∈ above, x.textRange = n.textRange) :
    ∃ above' m, Descends a above' m ∧ m.textRange = n.textRange ∧ m ≠ n ∧ ∀ x ∈ above', x.textRange ≠ n.textRange := by
  induction h with
  | here n =>
      obtain ⟨x, hx, -⟩ := hsome
      exact absurd hx List.not_mem_nil
  | @step a b n above i hchild h ih =>
      by_cases hrange : a.textRange = n.textRange
      · exact ⟨[], a, .here a, hrange, (h.ne i hchild).symm, nofun⟩
      · have hbelow : ∃ x ∈ above, x.textRange = n.textRange := by
          obtain ⟨x, hx, heq⟩ := hsome
          rcases List.mem_cons.mp hx with rfl | hx
          · exact absurd heq hrange
          · exact ⟨x, hx, heq⟩
        obtain ⟨above', m, hm, heq, hne, hfirst⟩ := ih hbelow
        refine ⟨a :: above', m, .step i hchild hm, heq, hne, fun x hx => ?_⟩
        rcases List.mem_cons.mp hx with rfl | hx
        · exact hrange
        · exact hfirst x hx

theorem resolve_first {ptr : SyntaxNodePtr} (h : Descends a above n) (hptr : ptr.range = n.textRange)
    (hpos : 0 < n.textRange.length) (hrange : ∀ x ∈ above, x.textRange ≠ n.textRange) :
    syntaxNodePtrResolve ptr a = if syntaxNodePtrNew n = ptr then some n else none := by
  cases h with
  | here n =>
      rw [syntaxNodePtrResolve]
      by_cases hsame : syntaxNodePtrNew a = ptr
      · rw [if_pos hsame, if_pos hsame]
      · rw [if_neg hsame, if_neg hsame, Loop.run_exit (by rw [resolveTurn, if_pos hptr.symm])]
        rfl
  | @step a b n above i hchild h =>
      have hne : a.textRange ≠ n.textRange := hrange a (List.mem_cons_self ..)
      have hsame : syntaxNodePtrNew a ≠ ptr := fun heq => hne (hptr ▸ congrArg SyntaxNodePtr.range heq)
      rw [syntaxNodePtrResolve, if_neg hsame,
        descent (.step i hchild h) hptr hpos hrange (List.cons_ne_nil _ _) (Nat.lt_succ_self _)]
      rfl

theorem resolve_cases {ptr : SyntaxNodePtr} {root r : SyntaxNode} (h : syntaxNodePtrResolve ptr root = some r) :
    r = root ∧ syntaxNodePtrNew r = ptr ∨ syntaxNodePtrNew r = ptr ∧ 0 < r.textRange.length := by
  rw [syntaxNodePtrResolve] at h
  split at h
  · rename_i hsame
    obtain rfl := Option.some.inj h
    exact .inl ⟨rfl, hsame⟩
  · rw [Option.join_eq_some_iff] at h
    exact .inr (descent_sound h)

theorem ptr_of_resolve {ptr : SyntaxNodePtr} {root r : SyntaxNode} (h : syntaxNodePtrResolve ptr root = some r) :
    syntaxNodePtrNew r = ptr :=
  (resolve_cases h).elim And.right And.left

/-- When a node comes back from its pointer, in the tree of a root; what comes back
has the kind and range of the pointer. -/
theorem resolve_iff (root n : SyntaxNode) (above : List SyntaxNode) (h : Descends root above n) :
    (syntaxNodePtrResolve (syntaxNodePtrNew n) root = some n ↔
      above = [] ∨ 0 < n.textRange.length ∧ ∀ x ∈ above, x.textRange ≠ n.textRange) ∧
    ∀ ptr r, syntaxNodePtrResolve ptr root = some r → syntaxNodePtrNew r = ptr := by
  refine ⟨⟨fun hres => ?_, fun hcond => ?_⟩, fun ptr r hr => ptr_of_resolve hr⟩
  · cases h with
    | here n => exact .inl rfl
    | @step a b n above i hchild h =>
        have hne : n ≠ root := h.ne i hchild
        have hpos : 0 < n.textRange.length := by
          rcases resolve_cases hres with hroot | hpos
          · exact absurd hroot.1 hne
          · exact hpos.2
        refine .inr ⟨hpos, fun x hx heq => ?_⟩
        obtain ⟨above', m, hm, hrange, hmn, hfirst⟩ := (Descends.step i hchild h).first ⟨x, hx, heq⟩
        have hptr : (syntaxNodePtrNew n).range = m.textRange := hrange.symm
        have hfound := resolve_first hm hptr (hrange ▸ hpos) (hrange ▸ hfirst)
        rw [hres] at hfound
        split at hfound
        · exact hmn (Option.some.inj hfound).symm
        · cases hfound
  · rcases hcond with rfl | ⟨hpos, hrange⟩
    · cases h
      rw [syntaxNodePtrResolve, if_pos rfl]
    · rw [resolve_first h rfl hpos hrange, if_pos rfl]

section Example

def wordToken (k : SyntaxKind) (c : UInt8) : Green := .token ⟨k, [c]⟩

/-- A statement list with one statement, the name `a`, and a list of no arguments
behind it. -/
def wrapped : SyntaxNode :=
  ⟨.sourceFile, [.node .stmtList [.node .refExpr [wordToken .ident 97]], .node .argList []], 0⟩

/-- The sum of `a` and `b` between two other statements. -/
def summed : SyntaxNode :=
  ⟨.sourceFile, [.node .stmtList [.node .refExpr [wordToken .ident 120], wordToken .newline 10,
    .node .binExpr [.node .refExpr [wordToken .ident 97], wordToken .plus 43, .node .refExpr [wordToken .ident 98]],
    wordToken .newline 10], .node .refExpr [wordToken .ident 121]], 0⟩

theorem resolve_iff_at : ∃ above n, Descends summed above n ∧ above.length = 3 ∧
    syntaxNodePtrNew n = ⟨.refExpr, ⟨4, 1⟩⟩ ∧ syntaxNodePtrResolve ⟨.refExpr, ⟨4, 1⟩⟩ summed = some n := by
  have hbelow : Descends summed [summed, _, _] _ := .step 0 rfl (.step 2 rfl (.step 2 rfl (.here _)))
  refine ⟨_, _, hbelow, rfl, rfl, (resolve_iff _ _ _ hbelow).1.mpr (.inr ⟨by decide, ?_⟩)⟩
  intro x hx
  simp only [List.mem_cons, List.not_mem_nil, or_false] at hx
  rcases hx with rfl | rfl | rfl <;> decide

/-- The statement, which is as long as the list, and the empty argument list are not
found. -/
theorem wrapped_lost : ∃ above stmt above' args, Descends wrapped above stmt ∧ Descends wrapped above' args ∧
    syntaxNodePtrResolve (syntaxNodePtrNew stmt) wrapped = none ∧
      syntaxNodePtrResolve (syntaxNodePtrNew args) wrapped = none :=
  ⟨_, _, _, _, .step 0 rfl (.step 0 rfl (.here _)), .step 1 rfl (.here _), rfl, rfl⟩

end Example

end Ore.NodePointers
