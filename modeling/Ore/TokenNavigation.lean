import Ore.RedHandles

namespace Ore.TokenNavigation

open SyntaxKinds GreenTree RedTree RedHandles

/-- A list as it is met from the left, or from the right. -/
def inOrder {α : Type} (back : Bool) (l : List α) : List α := if back then l.reverse else l

/-- The scan for an edge token stops at a child. -/
def stops (c : Red) : Bool := c.isToken || decide (0 < textLen c.green)

/-- One level of the descent to the first token of a subtree, or to the last one. -/
def edgeTurn (back : Bool) (current : Red) : Red ⊕ Option Red :=
  match (inOrder back (childHandles current)).find? stops with
  | none => .inr none
  | some c => if c.isToken then .inr (some c) else .inl c

def edgeToken (back : Bool) (n : Red) : Option Red := (Loop.run (edgeTurn back) (depth n.green + 1) n).join

def syntaxNodeFirstToken (n : Red) : Option Red := edgeToken false n

def syntaxNodeLastToken (n : Red) : Option Red := edgeToken true n

def elementEdgeToken (back : Bool) (e : Red) : Option Red := if e.isToken then some e else edgeToken back e

/-- The sibling of an element or of the nearest ancestor that has one. -/
def climb (sibling : Red → Option Red) : Red → Option Red
  | .root g => sibling (.root g)
  | .child p i g o => match sibling (.child p i g o) with
    | some s => some s
    | none => climb sibling p

def sibling (back : Bool) (e : Red) : Option Red := if back then prevSiblingOrToken e else nextSiblingOrToken e

def neighbourToken (back : Bool) (t : Red) : Option Red := (climb (sibling back) t).bind (elementEdgeToken back)

def syntaxTokenNextToken (t : Red) : Option Red := neighbourToken false t

def syntaxTokenPrevToken (t : Red) : Option Red := neighbourToken true t

/-- The tokens met from a first one on. -/
def walk (next : Red → Option Red) : Nat → Option Red → List Red
  | 0, _ => []
  | _ + 1, none => []
  | fuel + 1, some t => t :: walk next fuel (next t)

/-- What stands behind an element, or in front of it. -/
def around (back : Bool) (e : Red) : List Red := if back then preceding e else following e

/-- No node without text holds the first token of its parent (the last one). -/
def ClearEdge (back : Bool) (n : Red) : Prop :=
  ∀ c cs rest, inOrder back (childHandles n) = cs ++ c :: rest → c.isToken = false → textLen c.green = 0 →
    tokens c ≠ [] → cs.flatMap tokens ≠ []

variable {back : Bool} {e n p c d s t u root : Red} {l r xs ys cs rest : List Red} {fuel i : Nat}

@[simp] theorem mem_inOrder {α : Type} {a : α} {l : List α} : a ∈ inOrder back l ↔ a ∈ l := by
  cases back <;> simp [inOrder]

@[simp] theorem inOrder_eq_nil {α : Type} {l : List α} : inOrder back l = [] ↔ l = [] := by
  cases back <;> simp [inOrder]

theorem inOrder_flatMap (back : Bool) (cs : List Red) :
    inOrder back (cs.flatMap tokens) = (inOrder back cs).flatMap fun c => inOrder back (tokens c) := by
  cases back with
  | false => rfl
  | true => simp [inOrder, List.reverse_flatMap, Function.comp_def]

theorem inOrder_tokens (h : n.isToken = false) :
    inOrder back (tokens n) = (inOrder back (childHandles n)).flatMap fun c => inOrder back (tokens c) := by
  rw [tokens_of_node h, inOrder_flatMap]

theorem passed_silent (hclear : ClearEdge back n) (hsplit : inOrder back (childHandles n) = cs ++ rest)
    (hpass : ∀ c ∈ cs, stops c = false) : cs.flatMap tokens = [] := by
  induction cs using List.reverseRecOn generalizing rest with
  | nil => rfl
  | append_singleton cs c ih =>
      have hsplit' : inOrder back (childHandles n) = cs ++ c :: rest := by simpa using hsplit
      have hnil := ih hsplit' fun d hd => hpass d (List.mem_append_left _ hd)
      have hc := hpass c (by simp)
      simp only [stops, Bool.or_eq_false_iff, decide_eq_false_iff_not, Nat.not_lt, Nat.le_zero] at hc
      have hsilent : tokens c = [] := by
        by_contra hne
        exact hclear c cs rest hsplit' hc.1 hc.2 hne hnil
      simp [hnil, hsilent]

theorem silent_inOrder (back : Bool) (h : cs.flatMap tokens = []) :
    (cs.flatMap fun c => inOrder back (tokens c)) = [] := by
  rw [List.flatMap_eq_nil_iff] at h ⊢
  exact fun c hc => inOrder_eq_nil.mpr (h c hc)

theorem head_of_split (hnode : n.isToken = false) (hsplit : inOrder back (childHandles n) = cs ++ c :: rest)
    (hsilent : cs.flatMap tokens = []) (hne : tokens c ≠ []) :
    (inOrder back (tokens n)).head? = (inOrder back (tokens c)).head? := by
  have hne' : inOrder back (tokens c) ≠ [] := fun h => hne (inOrder_eq_nil.mp h)
  rw [inOrder_tokens hnode, hsplit, List.flatMap_append, silent_inOrder back hsilent,
    List.nil_append, List.flatMap_cons,
    List.head?_append_of_ne_nil _ hne']

theorem edge_run (hnode : n.isToken = false) (hclear : ∀ m, Below n m → ClearEdge back m)
    (hfuel : depth n.green < fuel) :
    Loop.run (edgeTurn back) fuel n = some (inOrder back (tokens n)).head? := by
  induction fuel generalizing n with
  | zero => exact absurd hfuel (Nat.not_lt_zero _)
  | succ fuel ih =>
      rw [Loop.run, edgeTurn]
      cases hfind : (inOrder back (childHandles n)).find? stops with
      | none =>
          have hsilent : (inOrder back (childHandles n)).flatMap tokens = [] :=
            passed_silent (hclear n .self) (List.append_nil _).symm fun c hc => by
              simpa using List.find?_eq_none.mp hfind c hc
          rw [inOrder_tokens hnode, silent_inOrder back hsilent]
          rfl
      | some c =>
          obtain ⟨hstops, cs, rest, hsplit, hpass⟩ := List.find?_eq_some_iff_append.mp hfind
          have hsilent := passed_silent (hclear n .self) hsplit fun d hd => by simpa using hpass d hd
          cases htoken : c.isToken with
          | true =>
              have hone := tokens_of_token htoken
              rw [head_of_split hnode hsplit hsilent (by simp [hone]), hone]
              cases back <;> simp [htoken, inOrder]
          | false =>
              have hpos : 0 < textLen c.green := by simpa [stops, htoken] using hstops
              obtain ⟨i, hchild⟩ := mem_childHandles.mp
                (mem_inOrder.mp
                  (hsplit ▸ List.mem_append_right cs (List.mem_cons_self ..) : c ∈ inOrder back (childHandles n)))
              have hdepth := wrapChild_depth hchild
              rw [head_of_split hnode hsplit hsilent (tokens_ne_nil hpos)]
              simp only [htoken, Bool.false_eq_true, if_false]
              exact ih htoken (fun m hm => hclear m ((Below.child i .self hchild).trans hm)) (by omega)

theorem edgeToken_eq (hnode : n.isToken = false) (hclear : ∀ m, Below n m → ClearEdge back m) :
    edgeToken back n = (inOrder back (tokens n)).head? := by
  rw [edgeToken, edge_run hnode hclear (Nat.lt_succ_self _)]
  rfl

theorem edge_found {r : Option Red} (h : Loop.run (edgeTurn back) fuel n = some r) (hr : r = some t) :
    t ∈ tokens n := by
  induction fuel generalizing n with
  | zero => cases h
  | succ fuel ih =>
      rw [Loop.run, edgeTurn] at h
      cases hfind : (inOrder back (childHandles n)).find? stops with
      | none =>
          rw [hfind] at h
          cases h
          cases hr
      | some c =>
          obtain ⟨i, hchild⟩ := mem_childHandles.mp (mem_inOrder.mp (List.mem_of_find?_eq_some hfind))
          have hsub (ht : t ∈ tokens c) : t ∈ tokens n := by
            obtain ⟨hbelow, htoken⟩ := mem_tokens.mp ht
            exact mem_tokens.mpr ⟨(Below.child i .self hchild).trans hbelow, htoken⟩
          rw [hfind] at h
          cases htoken : c.isToken with
          | true =>
              simp only [htoken, if_true] at h
              cases h
              cases hr
              exact hsub (by rw [tokens_of_token htoken]; exact List.mem_singleton_self _)
          | false =>
              simp only [htoken, Bool.false_eq_true, if_false] at h
              exact hsub (ih h)

theorem edge_stop (h : edgeToken back n = some t) : ∃ d ∈ childHandles n, stops d = true ∧ t ∈ tokens d := by
  rw [edgeToken, Option.join_eq_some_iff, Loop.run, edgeTurn] at h
  cases hfind : (inOrder back (childHandles n)).find? stops with
  | none =>
      rw [hfind] at h
      cases h
  | some d =>
      refine ⟨d, mem_inOrder.mp (List.mem_of_find?_eq_some hfind), List.find?_some hfind, ?_⟩
      rw [hfind] at h
      cases htoken : d.isToken with
      | true =>
          simp only [htoken, if_true, Option.some.injEq] at h
          rw [tokens_of_token htoken, h]
          exact List.mem_singleton_self _
      | false =>
          simp only [htoken, Bool.false_eq_true, if_false] at h
          exact edge_found h rfl

theorem edgeToken_clear (hnode : n.isToken = false) (h : edgeToken back n = (inOrder back (tokens n)).head?) :
    ClearEdge back n := by
  intro c cs rest hsplit htoken hlen hne hsilent
  rw [head_of_split hnode hsplit hsilent hne] at h
  obtain ⟨t, hhead⟩ : ∃ t, (inOrder back (tokens c)).head? = some t :=
    Option.isSome_iff_exists.mp (List.isSome_head?.mpr fun hnil => hne (inOrder_eq_nil.mp hnil))
  rw [hhead] at h
  have ht : t ∈ tokens c := mem_inOrder.mp (List.mem_of_head? hhead)
  obtain ⟨d, hd, hstops, ht'⟩ := edge_stop h
  have hc : c ∈ childHandles n :=
    mem_inOrder.mp (hsplit ▸ List.mem_append_right cs (List.mem_cons_self ..) : c ∈ inOrder back (childHandles n))
  obtain ⟨i, hi⟩ := mem_childHandles.mp hc
  obtain ⟨j, hj⟩ := mem_childHandles.mp hd
  obtain rfl := children_disjoint hi hj (mem_tokens.mp ht).1 (mem_tokens.mp ht').1
  obtain rfl : c = d := Option.some.inj (hi.symm.trans hj)
  simp [stops, htoken, hlen] at hstops

theorem around_root (back : Bool) (h : root.parent = none) : around back root = [] := by
  cases root with
  | root g => cases back <;> rfl
  | child p i g o => cases h

theorem sibling_some (hchild : wrapChild p i = some c) (h : sibling back c = some s) :
    (∃ j, wrapChild p j = some s) ∧ around back c = s :: around back s ∧
      around (!back) s = c :: around (!back) c := by
  obtain ⟨l, r, hsplit, rfl⟩ := childHandles_split hchild
  obtain ⟨-, hafter, hbefore⟩ := around_child hsplit
  obtain ⟨g, -, hc⟩ := wrapChild_eq hchild
  cases back with
  | false =>
      have hnext : (childHandles p)[l.length + 1]? = some s := by
        rw [childHandles_getElem?, ← h, hc]
        rfl
      obtain ⟨r, rfl⟩ : ∃ r', r = s :: r' := by
        cases r with
        | nil => simp [hsplit] at hnext
        | cons s' r =>
            rw [hsplit, List.getElem?_append_right (Nat.le_add_right ..), Nat.add_sub_cancel_left] at hnext
            exact ⟨r, by simpa using hnext⟩
      have hsplit' : childHandles p = (l ++ [c]) ++ s :: r := by simpa using hsplit
      obtain ⟨hs, hafter', hbefore'⟩ := around_child hsplit'
      refine ⟨⟨_, hs⟩, ?_, ?_⟩
      · simp [around, hafter, hafter']
      · simp [around, hbefore, hbefore']
  | true =>
      induction l using List.reverseRecOn with
      | nil =>
          rw [hc] at h
          cases h
      | append_singleton l s' _ =>
          have hsplit' : childHandles p = l ++ s' :: (c :: r) := by simpa using hsplit
          obtain ⟨hs, hafter', hbefore'⟩ := around_child hsplit'
          obtain rfl : s' = s := by
            have hprev : wrapChild p l.length = some s := by
              rw [← h, hc, List.length_append]
              rfl
            exact Option.some.inj (hs.symm.trans hprev)
          refine ⟨⟨_, hs⟩, ?_, ?_⟩
          · simp [around, hbefore, hbefore']
          · simp [around, hafter, hafter']

theorem sibling_none (hchild : wrapChild p i = some c) (h : sibling back c = none) : around back c = around back p := by
  obtain ⟨l, r, hsplit, rfl⟩ := childHandles_split hchild
  obtain ⟨-, hafter, hbefore⟩ := around_child hsplit
  obtain ⟨g, -, hc⟩ := wrapChild_eq hchild
  cases back with
  | false =>
      have hnext : (childHandles p)[l.length + 1]? = none := by
        rw [childHandles_getElem?, ← h, hc]
        rfl
      have hnil : r = [] := by
        rw [hsplit, List.getElem?_eq_none_iff, List.length_append, List.length_cons] at hnext
        exact List.eq_nil_of_length_eq_zero (by omega)
      simp [around, hafter, hnil]
  | true =>
      induction l using List.reverseRecOn with
      | nil => simp [around, hbefore]
      | append_singleton l s _ =>
          have hsplit' : childHandles p = l ++ s :: (c :: r) := by simpa using hsplit
          rw [hc, List.length_append] at h
          exact absurd h (by simp [sibling, prevSiblingOrToken, (around_child hsplit').1])

/-- Where the climb comes out: at the nearest of what stands around the element. -/
theorem climb_around (back : Bool) (h : Below root e) (hroot : root.parent = none) :
    (climb (sibling back) e).elim (around back e = []) fun s =>
      Below root s ∧ around back e = s :: around back s ∧ ∃ a, Below a e ∧ a ∈ around (!back) s := by
  induction h with
  | self =>
      cases root with
      | root g => cases back <;> rfl
      | child p i g o => cases hroot
  | @child p c i hp hchild ih =>
      have hclimb : climb (sibling back) c = match sibling back c with
          | some s => some s
          | none => climb (sibling back) p := by
        obtain ⟨g, -, rfl⟩ := wrapChild_eq hchild
        rfl
      rw [hclimb]
      cases hsibling : sibling back c with
      | some s =>
          obtain ⟨⟨j, hs⟩, haround, hback⟩ := sibling_some hchild hsibling
          exact ⟨.child j hp hs, haround, c, .self, by rw [hback]; exact List.mem_cons_self ..⟩
      | none =>
          rw [sibling_none hchild hsibling]
          cases hup : climb (sibling back) p with
          | none =>
              rw [hup] at ih
              exact ih
          | some s =>
              rw [hup] at ih
              obtain ⟨hs, haround, a, ha, hmem⟩ := ih
              exact ⟨hs, haround, a, ha.trans (.child i .self hchild), hmem⟩

def tokensAround (back : Bool) (e : Red) : List Red := (around back e).flatMap fun c => inOrder back (tokens c)

/-- No node without tokens lies between two tokens. -/
def Dense (root : Red) : Prop :=
  ∀ n, Below root n → tokens n = [] → (preceding n).flatMap tokens = [] ∨ (following n).flatMap tokens = []

theorem Dense.around (h : Dense root) (hn : Below root n) (hsilent : tokens n = []) :
    tokensAround back n = [] ∨ tokensAround (!back) n = [] := by
  have hboth := h n hn hsilent
  cases back with
  | false => exact hboth.symm.imp (silent_inOrder false) (silent_inOrder true)
  | true => exact hboth.imp (silent_inOrder true) (silent_inOrder false)

theorem elementEdgeToken_eq (hclear : ∀ m, Below root m → ClearEdge back m) (he : Below root e) :
    elementEdgeToken back e = (inOrder back (tokens e)).head? := by
  rw [elementEdgeToken]
  cases htoken : e.isToken with
  | true =>
      rw [tokens_of_token htoken]
      cases back <;> rfl
  | false =>
      rw [if_neg Bool.false_ne_true]
      exact edgeToken_eq htoken fun m hm => hclear m (he.trans hm)

theorem neighbourToken_eq (hroot : root.parent = none) (hclear : ∀ m, Below root m → ClearEdge back m)
    (hdense : Dense root) (ht : t ∈ tokens root) : neighbourToken back t = (tokensAround back t).head? := by
  obtain ⟨hbelow, htoken⟩ := mem_tokens.mp ht
  have hclimb := climb_around back hbelow hroot
  rw [neighbourToken, tokensAround]
  cases hup : climb (sibling back) t with
  | none =>
      rw [hup] at hclimb
      have hnil : around back t = [] := hclimb
      rw [hnil]
      rfl
  | some s =>
      rw [hup] at hclimb
      obtain ⟨hs, haround, a, ha, hmem⟩ := hclimb
      rw [haround, List.flatMap_cons, Option.bind_some, elementEdgeToken_eq hclear hs]
      by_cases hsilent : tokens s = []
      · have hback : tokensAround (!back) s ≠ [] := by
          intro hnil
          have hnone := List.flatMap_eq_nil_iff.mp hnil a hmem
          exact List.ne_nil_of_mem (mem_tokens.mpr ⟨ha, htoken⟩) (inOrder_eq_nil.mp hnone)
        have hon : tokensAround back s = [] := (hdense.around hs hsilent).resolve_right hback
        rw [tokensAround] at hon
        rw [hon, List.append_nil]
      · rw [List.head?_append_of_ne_nil _ fun h => hsilent (inOrder_eq_nil.mp h)]

theorem reverse_tokensAround (e : Red) :
    (tokensAround true e).reverse = (preceding e).reverse.flatMap tokens := by
  simp [tokensAround, around, inOrder, List.reverse_flatMap, Function.comp_def]

/-- The tokens of the tree, met from either side, around one of them. -/
theorem tokens_split (back : Bool) (hroot : root.parent = none) (ht : t ∈ tokens root) :
    inOrder back (tokens root) = (tokensAround (!back) t).reverse ++ t :: tokensAround back t := by
  obtain ⟨hbelow, htoken⟩ := mem_tokens.mp ht
  obtain ⟨xs, ys, hxs, hys, htokens⟩ := tokens_around hbelow
  have hafter : following root = [] := around_root false hroot
  have hbefore : preceding root = [] := around_root true hroot
  have hforward : tokens root = (tokensAround true t).reverse ++ t :: tokensAround false t := by
    rw [htokens, tokens_of_token htoken, reverse_tokensAround, hys, hbefore, List.append_nil, tokensAround, around,
      if_neg Bool.false_ne_true, hxs, hafter, List.append_nil, List.append_assoc]
    rfl
  cases back with
  | false => exact hforward
  | true =>
      rw [inOrder, if_pos rfl, hforward]
      simp

theorem split_unique (back : Bool) (hroot : root.parent = none) (h : inOrder back (tokens root) = xs ++ t :: ys) :
    xs = (tokensAround (!back) t).reverse ∧ ys = tokensAround back t := by
  have ht : t ∈ tokens root :=
    mem_inOrder.mp (h ▸ List.mem_append_right xs (List.mem_cons_self ..) : t ∈ inOrder back _)
  have hsplit := tokens_split back hroot ht
  have hnodup : (inOrder back (tokens root)).Nodup := by
    cases back with
    | false => exact tokens_nodup root
    | true => exact List.nodup_reverse.mpr (tokens_nodup root)
  have hnotin (as bs : List Red) (heq : inOrder back (tokens root) = as ++ t :: bs) : t ∉ as ∧ t ∉ bs := by
    rw [heq, List.nodup_middle, List.nodup_cons, List.mem_append, not_or] at hnodup
    exact hnodup.1
  rw [h] at hsplit
  have heq := (List.append_cons_inj_of_notMem (hnotin xs ys h).1 (hnotin xs ys h).2).mp hsplit
  exact ⟨heq.1, heq.2.2⟩

theorem neighbour_inverse (back : Bool) (hroot : root.parent = none) (hnext : ∀ back, ∀ t ∈ tokens root,
    neighbourToken back t = (tokensAround back t).head?) (ht : t ∈ tokens root) (hu : u ∈ tokens root)
    (h : neighbourToken back t = some u) : neighbourToken (!back) u = some t := by
  rw [hnext back t ht, List.head?_eq_some_iff] at h
  obtain ⟨ys, hys⟩ := h
  have hsplit := tokens_split back hroot ht
  rw [hys, List.append_cons] at hsplit
  have hback := (split_unique back hroot hsplit).1
  rw [hnext _ u hu, ← List.reverse_reverse (tokensAround (!back) u), ← hback]
  simp

theorem walk_from (hroot : root.parent = none) (hnext : ∀ t ∈ tokens root,
    syntaxTokenNextToken t = (tokensAround false t).head?)
    (h : tokens root = xs ++ t :: ys) (hfuel : ys.length + 1 < fuel) :
    walk syntaxTokenNextToken fuel (some t) = t :: ys := by
  induction ys generalizing xs t fuel with
  | nil =>
      obtain ⟨fuel, rfl⟩ := Nat.exists_eq_add_of_lt hfuel
      have hlast := (split_unique false hroot h).2
      rw [show [].length + 1 + fuel + 1 = fuel + 2 by simp; omega, walk,
        hnext t (by rw [h]; exact List.mem_append_right xs (List.mem_cons_self ..)), ← hlast]
      rfl
  | cons u ys ih =>
      obtain ⟨fuel, rfl⟩ := Nat.exists_eq_succ_of_ne_zero (by omega : fuel ≠ 0)
      have hrest := (split_unique false hroot h).2
      rw [walk, hnext t (by rw [h]; exact List.mem_append_right xs (List.mem_cons_self ..)), ← hrest, List.head?_cons,
        ih (by rw [h, List.append_cons]) (by rw [List.length_cons] at hfuel; omega)]

theorem walk_head {next : Red → Option Red} {start : Option Red} (hfuel : 0 < fuel) :
    (walk next fuel start).head? = start := by
  obtain ⟨fuel, rfl⟩ := Nat.exists_eq_succ_of_ne_zero (Nat.ne_of_gt hfuel)
  cases start <;> rfl

theorem walk_next {next : Red → Option Red} {start : Option Red} (h : walk next fuel start = xs ++ t :: ys)
    (hfuel : (xs ++ t :: ys).length < fuel) : next t = ys.head? := by
  induction xs generalizing fuel start with
  | nil =>
      obtain ⟨fuel, rfl⟩ := Nat.exists_eq_succ_of_ne_zero (Nat.ne_of_gt (Nat.zero_lt_of_lt hfuel))
      cases start with
      | none => cases h
      | some t' =>
          rw [walk, List.nil_append, List.cons.injEq] at h
          obtain ⟨rfl, hrest⟩ := h
          rw [← hrest, walk_head (Nat.zero_lt_of_lt (Nat.lt_of_succ_lt_succ hfuel))]
  | cons x xs ih =>
      obtain ⟨fuel, rfl⟩ := Nat.exists_eq_succ_of_ne_zero (Nat.ne_of_gt (Nat.zero_lt_of_lt hfuel))
      cases start with
      | none => cases h
      | some t' =>
          rw [walk, List.cons_append, List.cons.injEq] at h
          exact ih h.2 (Nat.lt_of_succ_lt_succ hfuel)

theorem first_with_tokens (h : cs.flatMap tokens ≠ []) :
    ∃ zs c ws, cs = zs ++ c :: ws ∧ zs.flatMap tokens = [] ∧ tokens c ≠ [] := by
  induction cs with
  | nil => exact absurd rfl h
  | cons c cs ih =>
      by_cases hc : tokens c = []
      · obtain ⟨zs, d, ws, rfl, hzs, hd⟩ := ih (by simpa [hc] using h)
        exact ⟨c :: zs, d, ws, rfl, by simp [hc, hzs], hd⟩
      · exact ⟨[], c, cs, rfl, rfl, hc⟩

theorem around_passed {zs ws : List Red} (h : inOrder (!back) (childHandles p) = zs ++ c :: ws) :
    (∃ i, wrapChild p i = some c) ∧ around back c = zs.reverse ++ around back p := by
  cases back with
  | false =>
      have hsplit : childHandles p = ws.reverse ++ c :: zs.reverse := by
        rw [← List.reverse_reverse (childHandles p)]
        simp only [Bool.not_false, inOrder, if_true] at h
        rw [h]
        simp
      obtain ⟨hc, hafter, -⟩ := around_child hsplit
      exact ⟨⟨_, hc⟩, hafter⟩
  | true =>
      have hsplit : childHandles p = zs ++ c :: ws := h
      obtain ⟨hc, -, hbefore⟩ := around_child hsplit
      exact ⟨⟨_, hc⟩, hbefore⟩

/-- A token of a subtree behind which there is none in the subtree. -/
theorem extreme_token (back : Bool) (h : tokens e ≠ []) :
    ∃ t zs, t ∈ tokens e ∧ around back t = zs ++ around back e ∧ zs.flatMap tokens = [] := by
  induction e using Red.below_induction with
  | h e ih =>
      cases htoken : e.isToken with
      | true => exact ⟨e, [], by rw [tokens_of_token htoken]; exact List.mem_singleton_self _, rfl, rfl⟩
      | false =>
          have hsome : (inOrder (!back) (childHandles e)).flatMap tokens ≠ [] := by
            intro hnil
            have hsilent := silent_inOrder (!back) hnil
            rw [← inOrder_tokens htoken, inOrder_eq_nil] at hsilent
            exact h hsilent
          obtain ⟨zs, c, ws, hsplit, hzs, hc⟩ := first_with_tokens hsome
          obtain ⟨⟨i, hchild⟩, haround⟩ := around_passed hsplit
          obtain ⟨t, zs', ht, hbehind, hzs'⟩ := ih i c hchild hc
          refine ⟨t, zs' ++ zs.reverse, ?_, by rw [hbehind, haround, List.append_assoc], ?_⟩
          · obtain ⟨hbelow, htoken⟩ := mem_tokens.mp ht
            exact mem_tokens.mpr ⟨(Below.child i .self hchild).trans hbelow, htoken⟩
          · rw [List.flatMap_append, hzs', List.nil_append, List.flatMap_eq_nil_iff]
            exact fun d hd => List.flatMap_eq_nil_iff.mp hzs d (List.mem_reverse.mp hd)

/-- Nothing without tokens stands between a token and the next. -/
def Reaches (root : Red) : Prop :=
  ∀ back, ∀ t ∈ tokens root, ∀ s rest, around back t = s :: rest → tokens s = [] → tokensAround back t = []

theorem Reaches.silent_ahead (h : Reaches root) {zs : List Red} (ht : t ∈ tokens root)
    (haround : around back t = zs ++ xs) (hzs : zs.flatMap tokens = []) (hne : zs ≠ []) :
    (xs.flatMap fun c => inOrder back (tokens c)) = [] := by
  obtain ⟨s, zs, rfl⟩ := List.exists_cons_of_ne_nil hne
  have hs : tokens s = [] := List.flatMap_eq_nil_iff.mp hzs s (List.mem_cons_self ..)
  have hnil := h back t ht s (zs ++ xs) haround hs
  rw [tokensAround, haround, List.flatMap_append] at hnil
  exact (List.append_eq_nil_iff.mp hnil).2

theorem Reaches.dense (h : Reaches root) (hroot : root.parent = none) (hn : Below root n) (hsilent : tokens n = []) :
    ∃ back, tokensAround back n = [] := by
  induction hn with
  | self => exact ⟨false, by rw [tokensAround, around_root false hroot]; rfl⟩
  | @child p n i hp hchild ih =>
      obtain ⟨l, r, hsplit, -⟩ := childHandles_split hchild
      obtain ⟨-, hafter, hbefore⟩ := around_child hsplit
      -- a token among the siblings on one side leaves nothing on the other
      have hside (back : Bool) (zs ws : List Red) (c : Red) (hc : tokens c ≠ []) (hzs : zs.flatMap tokens = [])
          (hsiblings : (if back then r else l.reverse) = zs ++ c :: ws) : tokensAround back n = [] := by
        have hwrap : (∃ j, wrapChild p j = some c) ∧ around back c = zs.reverse ++ n :: around back n := by
          cases back with
          | false =>
              have hl : l = ws.reverse ++ c :: zs.reverse := by
                rw [← List.reverse_reverse l]
                simp only [Bool.false_eq_true, if_false] at hsiblings
                rw [hsiblings]
                simp
              have hsplit' : childHandles p = ws.reverse ++ c :: (zs.reverse ++ n :: r) := by simp [hsplit, hl]
              obtain ⟨hc, hafter', -⟩ := around_child hsplit'
              exact ⟨⟨_, hc⟩, by simp [around, hafter, hafter']⟩
          | true =>
              have hsplit' : childHandles p = (l ++ n :: zs) ++ c :: ws := by
                simp only [if_true] at hsiblings
                simp [hsplit, hsiblings]
              obtain ⟨hc, -, hbefore'⟩ := around_child hsplit'
              exact ⟨⟨_, hc⟩, by simp [around, hbefore, hbefore']⟩
        obtain ⟨⟨j, hj⟩, haround⟩ := hwrap
        obtain ⟨t, zs', ht, hbehind, hzs'⟩ := extreme_token back hc
        have hzsr : zs.reverse.flatMap tokens = [] := by
          rw [List.flatMap_eq_nil_iff]
          exact fun d hd => List.flatMap_eq_nil_iff.mp hzs d (List.mem_reverse.mp hd)
        have htroot : t ∈ tokens root := by
          obtain ⟨hbelow, htoken⟩ := mem_tokens.mp ht
          exact mem_tokens.mpr ⟨(Below.child j hp hj).trans hbelow, htoken⟩
        have hahead : around back t = (zs' ++ zs.reverse ++ [n]) ++ around back n := by
          rw [hbehind, haround]
          simp
        exact h.silent_ahead htroot hahead (by simp [hzs', hzsr, hsilent]) (by simp)
      by_cases hr : r.flatMap tokens = []
      · by_cases hl : l.flatMap tokens = []
        · have hp' : tokens p = [] := by
            rw [tokens_of_node (wrapChild_node hchild), hsplit]
            simp [hl, hr, hsilent]
          obtain ⟨back, hback⟩ := ih hp'
          refine ⟨back, ?_⟩
          cases back with
          | false =>
              rw [tokensAround, around, if_neg Bool.false_ne_true] at hback ⊢
              rw [hafter, List.flatMap_append, hback, silent_inOrder false hr]
              rfl
          | true =>
              rw [tokensAround, around, if_pos rfl] at hback ⊢
              rw [hbefore, List.flatMap_append, hback, silent_inOrder true (by simpa using hl)]
              rfl
        · obtain ⟨zs, c, ws, hsiblings, hzs, hc⟩ :=
            first_with_tokens (show l.reverse.flatMap tokens ≠ [] by simpa using hl)
          exact ⟨false, hside false zs ws c hc hzs hsiblings⟩
      · obtain ⟨zs, c, ws, hsiblings, hzs, hc⟩ := first_with_tokens hr
        exact ⟨true, hside true zs ws c hc hzs hsiblings⟩

/-- Where the steps give all tokens, both ways, nothing without tokens stands between two. -/
theorem reaches_of_steps (hroot : root.parent = none)
    (hnext : ∀ back, ∀ t ∈ tokens root, tokensAround back t ≠ [] →
      neighbourToken back t = (tokensAround back t).head?) :
    Reaches root := by
  intro back t ht s rest haround hsilent
  by_contra hne
  have hstep := hnext back t ht hne
  have hclimb := climb_around back (mem_tokens.mp ht).1 hroot
  have htoken : s.isToken = false := by
    cases h : s.isToken with
    | false => rfl
    | true =>
        rw [tokens_of_token h] at hsilent
        cases hsilent
  rw [neighbourToken] at hstep
  cases hup : climb (sibling back) t with
  | none =>
      rw [hup] at hclimb
      have hnil : around back t = [] := hclimb
      rw [haround] at hnil
      cases hnil
  | some s' =>
      rw [hup] at hclimb hstep
      obtain ⟨-, haround', -⟩ := hclimb
      rw [haround] at haround'
      obtain ⟨rfl, -⟩ := List.cons.inj haround'
      rw [Option.bind_some, elementEdgeToken, if_neg (by simp [htoken])] at hstep
      cases hedge : edgeToken back s with
      | none =>
          rw [hedge] at hstep
          exact hne (List.head?_eq_none_iff.mp hstep.symm)
      | some u =>
          obtain ⟨d, hd, -, hu⟩ := edge_stop hedge
          rw [tokens_of_node htoken, List.flatMap_eq_nil_iff] at hsilent
          rw [hsilent d hd] at hu
          cases hu

theorem clearEdges_iff : (ClearEdge false n ∧ ClearEdge true n) ↔
    ∀ c l r, childHandles n = l ++ c :: r → c.isToken = false → textLen c.green = 0 → tokens c ≠ [] →
      l.flatMap tokens ≠ [] ∧ r.flatMap tokens ≠ [] := by
  constructor
  · rintro ⟨hfirst, hlast⟩ c l r hsplit htoken hlen hne
    have hreverse : inOrder true (childHandles n) = r.reverse ++ c :: l.reverse := by simp [inOrder, hsplit]
    refine ⟨hfirst c l r hsplit htoken hlen hne, ?_⟩
    have hr := hlast c _ _ hreverse htoken hlen hne
    rw [ne_eq, List.flatMap_eq_nil_iff] at hr ⊢
    exact fun h => hr fun d hd => h d (List.mem_reverse.mp hd)
  · intro h
    constructor
    · intro c cs rest hsplit htoken hlen hne
      exact (h c cs rest hsplit htoken hlen hne).1
    · intro c cs rest hsplit htoken hlen hne
      have hforward : childHandles n = rest.reverse ++ c :: cs.reverse := by
        rw [← List.reverse_reverse (childHandles n)]
        simp only [inOrder, if_true] at hsplit
        rw [hsplit]
        simp
      have hr := (h c _ _ hforward htoken hlen hne).2
      rw [ne_eq, List.flatMap_eq_nil_iff] at hr ⊢
      exact fun hcs => hr fun d hd => hcs d (List.mem_reverse.mp hd)

/-- When moving from token to token gives the tokens of a tree, there and back, and the
ends of every node are those of its tokens. -/
theorem token_navigation_iff (kind : SyntaxKind) (children : List Green) :
    (∀ n, Below (.root (.node kind children)) n → n.isToken = false →
        syntaxNodeFirstToken n = (tokens n).head? ∧ syntaxNodeLastToken n = (tokens n).getLast?) ∧
      (∀ fuel, (tokens (.root (.node kind children))).length < fuel →
        walk syntaxTokenNextToken fuel (syntaxNodeFirstToken (.root (.node kind children))) =
          tokens (.root (.node kind children))) ∧
      (∀ t ∈ tokens (.root (.node kind children)), ∀ u ∈ tokens (.root (.node kind children)),
        syntaxTokenNextToken t = some u ↔ syntaxTokenPrevToken u = some t) ↔
    (∀ n, Below (.root (.node kind children)) n → tokens n = [] →
        (preceding n).flatMap tokens = [] ∨ (following n).flatMap tokens = []) ∧
      ∀ n c l r, Below (.root (.node kind children)) n → childHandles n = l ++ c :: r → c.isToken = false →
        textLen c.green = 0 → tokens c ≠ [] → l.flatMap tokens ≠ [] ∧ r.flatMap tokens ≠ [] := by
  generalize hr : Red.root (.node kind children) = root
  have hroot : root.parent = none := by rw [← hr]; rfl
  have hnode : root.isToken = false := by rw [← hr]; rfl
  have hedges : (∀ n c l r, Below root n → childHandles n = l ++ c :: r → c.isToken = false → textLen c.green = 0 →
      tokens c ≠ [] → l.flatMap tokens ≠ [] ∧ r.flatMap tokens ≠ []) ↔
      ∀ n, Below root n → ∀ back, ClearEdge back n := by
    constructor
    · intro h n hn back
      obtain ⟨hfirst, hlast⟩ := clearEdges_iff.mpr fun c l r => h n c l r hn
      cases back with
      | false => exact hfirst
      | true => exact hlast
    · intro h n c l r hn
      exact clearEdges_iff.mp ⟨h n hn false, h n hn true⟩ c l r
  rw [hedges]
  constructor
  · rintro ⟨hends, hwalk, hinverse⟩
    have hclear (n : Red) (hn : Below root n) (back : Bool) : ClearEdge back n := by
      cases htoken : n.isToken with
      | true =>
          intro c cs rest hsplit
          rw [childHandles_of_token htoken] at hsplit
          cases back <;> simp [inOrder] at hsplit
      | false =>
          obtain ⟨hfirst, hlast⟩ := hends n hn htoken
          cases back with
          | false => exact edgeToken_clear htoken hfirst
          | true => exact edgeToken_clear htoken (by rw [inOrder, if_pos rfl, List.head?_reverse]; exact hlast)
    have hnext (t : Red) (ht : t ∈ tokens root) : neighbourToken false t = (tokensAround false t).head? := by
      have hsplit := tokens_split false hroot ht
      have hall := hwalk _ (Nat.lt_succ_self _)
      rw [show tokens root = _ from hsplit] at hall
      exact walk_next hall (by rw [← hsplit]; exact Nat.lt_succ_self _)
    refine ⟨fun n hn hsilent => ?_, fun n hn back => hclear n hn back⟩
    have hreaches : Reaches root := reaches_of_steps hroot fun back t ht hne => by
      cases back with
      | false => exact hnext t ht
      | true =>
          obtain ⟨u, ys, hys⟩ := List.exists_cons_of_ne_nil hne
          have hsplit := tokens_split false hroot ht
          rw [Bool.not_false, hys, List.reverse_cons, List.append_assoc, List.singleton_append] at hsplit
          have hu : u ∈ tokens root := by
            have hmem : u ∈ inOrder false (tokens root) := by rw [hsplit]; simp
            exact hmem
          rw [hys, List.head?_cons]
          refine (hinverse u hu t ht).mp ?_
          rw [syntaxTokenNextToken, hnext u hu, ← (split_unique false hroot hsplit).2]
          rfl
    obtain ⟨back, hnil⟩ := hreaches.dense hroot hn hsilent
    have hfree : (around back n).flatMap tokens = [] := by
      rw [List.flatMap_eq_nil_iff]
      exact fun c hc => inOrder_eq_nil.mp (List.flatMap_eq_nil_iff.mp hnil c hc)
    cases back with
    | false => exact .inr hfree
    | true => exact .inl hfree
  · rintro ⟨hdense, hclear⟩
    have hnext (back : Bool) (t : Red) (ht : t ∈ tokens root) : neighbourToken back t = (tokensAround back t).head? :=
      neighbourToken_eq hroot (fun m hm => hclear m hm back) hdense ht
    have hend (back : Bool) (n : Red) (hn : Below root n) (htoken : n.isToken = false) :
        edgeToken back n = (inOrder back (tokens n)).head? :=
      edgeToken_eq htoken fun m hm => hclear m (hn.trans hm) back
    refine ⟨fun n hn htoken => ⟨hend false n hn htoken, ?_⟩, fun fuel hfuel => ?_,
      fun t ht u hu => ⟨fun h => ?_, fun h => ?_⟩⟩
    · rw [syntaxNodeLastToken, hend true n hn htoken, inOrder, if_pos rfl, List.head?_reverse]
    · rw [syntaxNodeFirstToken, hend false root .self hnode, inOrder, if_neg Bool.false_ne_true]
      cases htokens : tokens root with
      | nil =>
          obtain ⟨fuel, rfl⟩ := Nat.exists_eq_succ_of_ne_zero (Nat.ne_of_gt (Nat.zero_lt_of_lt hfuel))
          rfl
      | cons t ys =>
          rw [htokens] at hfuel
          have hsplit : tokens root = [] ++ t :: ys := htokens
          exact walk_from hroot (hnext false) hsplit hfuel
    · exact neighbour_inverse false hroot hnext ht hu h
    · exact neighbour_inverse true hroot hnext hu ht h

section Example

def word (c : UInt8) : Green := .token ⟨.ident, [c]⟩

/-- Two names with an error node without tokens between them. -/
def gap : Red := .root (.node .sourceFile [word 97, .node .errorNode [], word 98])

/-- A node that holds only an empty token, and a name. -/
def hidden : Red := .root (.node .sourceFile [.node .errorNode [.token ⟨.ident, []⟩], word 97])

/-- The walk ends in front of the error node, and the first token is passed over. -/
theorem navigation_cut :
    (walk syntaxTokenNextToken 10 (syntaxNodeFirstToken gap)).length = 1 ∧ (tokens gap).length = 2 ∧
    (syntaxNodeFirstToken hidden).map Red.path = some [1] ∧ (tokens hidden).head?.map Red.path = some [0, 0] :=
  ⟨rfl, rfl, rfl, rfl⟩

end Example

end Ore.TokenNavigation
