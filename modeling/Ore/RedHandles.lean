import Mathlib.Data.List.Nodup
import Ore.RedTree

namespace Ore.RedHandles

open SyntaxKinds GreenTree RedTree

/-- A handle of a tree that is not edited: the root, or a child with the handle of its
parent, its index there, its green element and its offset. -/
inductive Red where
  | root (green : Green)
  | child (parent : Red) (index : Nat) (green : Green) (offset : Nat)

namespace Red

def green : Red → Green
  | root g => g
  | child _ _ g _ => g

def offset : Red → Nat
  | root _ => 0
  | child _ _ _ o => o

def children (e : Red) : List Green :=
  match e.green with
  | .token _ => []
  | .node _ cs => cs

def isToken (e : Red) : Bool :=
  match e.green with
  | .token _ => true
  | .node .. => false

def kind (e : Red) : SyntaxKind := kindOf e.green

def textRange (e : Red) : TextRange := ⟨e.offset, textLen e.green⟩

/-- The indices from an element up to the root, which tell the handles of a tree apart. -/
def path : Red → List Nat
  | root _ => []
  | child p i _ _ => i :: p.path

def parent : Red → Option Red
  | root _ => none
  | child p _ _ _ => some p

end Red

def wrapChild (n : Red) (i : Nat) : Option Red :=
  n.children[i]?.map fun g => .child n i g (n.offset + textLenAll (n.children.take i))

def nextSiblingOrToken : Red → Option Red
  | .root _ => none
  | .child p i _ _ => wrapChild p (i + 1)

def prevSiblingOrToken : Red → Option Red
  | .root _ => none
  | .child _ 0 _ _ => none
  | .child p (i + 1) _ _ => wrapChild p i

/-- The handles of green elements that stand side by side below a node. -/
def sideBySide (p : Red) : Nat → Nat → List Green → List Red
  | _, _, [] => []
  | i, o, g :: gs => .child p i g o :: sideBySide p (i + 1) (o + textLen g) gs

def childHandles (p : Red) : List Red := sideBySide p 0 p.offset p.children

/-- An element of the subtree of another. -/
inductive Below (e : Red) : Red → Prop
  | self : Below e e
  | child {p c : Red} (i : Nat) (h : Below e p) (hchild : wrapChild p i = some c) : Below e c

mutual

def tokensIn (e : Red) : Green → List Red
  | .token _ => [e]
  | .node _ cs => tokensAmong e 0 e.offset cs

def tokensAmong (p : Red) (i o : Nat) : List Green → List Red
  | [] => []
  | g :: gs => tokensIn (.child p i g o) g ++ tokensAmong p (i + 1) (o + textLen g) gs

end

def tokens (e : Red) : List Red := tokensIn e e.green

/-- The elements behind an element, from the nearest to the farthest and as large as
they can be. -/
def following : Red → List Red
  | .root _ => []
  | .child p i _ _ => (childHandles p).drop (i + 1) ++ following p

def preceding : Red → List Red
  | .root _ => []
  | .child p i _ _ => ((childHandles p).take i).reverse ++ preceding p

variable {e p c d t : Red} {i j o : Nat} {g : Green} {gs : List Green}

theorem sideBySide_getElem? (p : Red) (i o : Nat) (gs : List Green) (j : Nat) :
    (sideBySide p i o gs)[j]? = gs[j]?.map fun g => .child p (i + j) g (o + textLenAll (gs.take j)) := by
  induction gs generalizing i o j with
  | nil => rfl
  | cons g gs ih =>
      cases j with
      | zero => simp [sideBySide, textLenAll]
      | succ j =>
          rw [sideBySide, List.getElem?_cons_succ, ih, List.getElem?_cons_succ, List.take_succ_cons, textLenAll]
          simp only [Nat.add_assoc, Nat.add_comm 1 j]

theorem childHandles_getElem? (p : Red) (i : Nat) : (childHandles p)[i]? = wrapChild p i := by
  rw [childHandles, sideBySide_getElem?, Nat.zero_add]
  rfl

theorem wrapChild_eq (h : wrapChild p i = some c) :
    ∃ g, p.children[i]? = some g ∧ c = .child p i g (p.offset + textLenAll (p.children.take i)) := by
  obtain ⟨g, hg, rfl⟩ := Option.map_eq_some_iff.mp h
  exact ⟨g, hg, rfl⟩

theorem mem_childHandles : c ∈ childHandles p ↔ ∃ i, wrapChild p i = some c := by
  rw [List.mem_iff_getElem?]
  simp only [childHandles_getElem?]

theorem childHandles_of_token (h : p.isToken = true) : childHandles p = [] := by
  unfold Red.isToken at h
  split at h
  · rename_i hgreen
    rw [childHandles, Red.children, hgreen]
    rfl
  · cases h

theorem tokens_of_token (h : e.isToken = true) : tokens e = [e] := by
  unfold Red.isToken at h
  unfold tokens
  split at h
  · rename_i hgreen
    rw [hgreen, tokensIn]
  · cases h

theorem tokensAmong_eq (p : Red) (i o : Nat) (gs : List Green) :
    tokensAmong p i o gs = (sideBySide p i o gs).flatMap tokens := by
  induction gs generalizing i o with
  | nil => rfl
  | cons g gs ih =>
      rw [tokensAmong, ih, sideBySide, List.flatMap_cons]
      rfl

theorem tokens_of_node (h : e.isToken = false) : tokens e = (childHandles e).flatMap tokens := by
  unfold Red.isToken at h
  rw [tokens, childHandles, Red.children]
  split at h
  · cases h
  · rename_i hgreen
    rw [hgreen, tokensIn, tokensAmong_eq]

theorem wrapChild_depth (h : wrapChild p i = some c) : depth c.green < depth p.green := by
  obtain ⟨g, hg, rfl⟩ := wrapChild_eq h
  unfold Red.children at hg
  split at hg
  · cases hg
  · rename_i hgreen
    rw [hgreen, depth]
    exact Nat.lt_succ_of_le (depth_le_of_mem (List.mem_of_getElem? hg))

theorem wrapChild_node (h : wrapChild p i = some c) : p.isToken = false := by
  cases htoken : p.isToken with
  | false => rfl
  | true =>
      rw [← childHandles_getElem?, childHandles_of_token htoken] at h
      cases h

/-- A property that passes from all children to the element holds everywhere. -/
theorem Red.below_induction {P : Red → Prop} (h : ∀ e, (∀ i c, wrapChild e i = some c → P c) → P e) (e : Red) :
    P e := by
  induction hn : depth e.green using Nat.strong_induction_on generalizing e with
  | _ n ih =>
      subst hn
      exact h e fun i c hchild => ih _ (wrapChild_depth hchild) c rfl

theorem Below.trans (h : Below e p) (h' : Below p c) : Below e c := by
  induction h' with
  | self => exact h
  | child i _ hchild ih => exact .child i ih hchild

theorem Below.cases_child (h : Below e c) : c = e ∨ ∃ i d, wrapChild e i = some d ∧ Below d c := by
  induction h with
  | self => exact .inl rfl
  | @child p c i h hchild ih =>
      rcases ih with rfl | ⟨j, d, hd, hbelow⟩
      · exact .inr ⟨i, c, hchild, .self⟩
      · exact .inr ⟨j, d, hd, .child i hbelow hchild⟩

theorem Below.path_suffix (h : Below e c) : e.path <:+ c.path := by
  induction h with
  | self => exact List.suffix_refl _
  | child i _ hchild ih =>
      obtain ⟨g, -, rfl⟩ := wrapChild_eq hchild
      exact ih.trans (List.suffix_cons ..)

theorem mem_tokens : t ∈ tokens e ↔ Below e t ∧ t.isToken = true := by
  induction e using Red.below_induction with
  | h e ih =>
      cases htoken : e.isToken with
      | true =>
          rw [tokens_of_token htoken, List.mem_singleton]
          constructor
          · rintro rfl
            exact ⟨.self, htoken⟩
          · rintro ⟨hbelow, -⟩
            rcases hbelow.cases_child with rfl | ⟨i, d, hd, -⟩
            · rfl
            · exact absurd (wrapChild_node hd) (by simp [htoken])
      | false =>
          rw [tokens_of_node htoken, List.mem_flatMap]
          constructor
          · rintro ⟨d, hd, ht⟩
            obtain ⟨i, hchild⟩ := mem_childHandles.mp hd
            obtain ⟨hbelow, htoken⟩ := (ih i d hchild).mp ht
            exact ⟨(Below.child i .self hchild).trans hbelow, htoken⟩
          · rintro ⟨hbelow, ht⟩
            rcases hbelow.cases_child with rfl | ⟨i, d, hd, hbelow⟩
            · exact absurd ht (by simp [htoken])
            · exact ⟨d, mem_childHandles.mpr ⟨i, hd⟩, (ih i d hd).mpr ⟨hbelow, ht⟩⟩

theorem children_disjoint (hc : wrapChild p i = some c) (hd : wrapChild p j = some d) (ht : Below c t)
    (ht' : Below d t) : i = j := by
  obtain ⟨_, -, rfl⟩ := wrapChild_eq hc
  obtain ⟨_, -, rfl⟩ := wrapChild_eq hd
  have hsuffix := ht.path_suffix
  have hsuffix' := ht'.path_suffix
  have heq : i :: p.path = j :: p.path := by
    rcases List.suffix_or_suffix_of_suffix hsuffix hsuffix' with h | h
    · exact h.eq_of_length (by simp [Red.path])
    · exact (h.eq_of_length (by simp [Red.path])).symm
  exact (List.cons.inj heq).1

theorem childHandles_split (h : wrapChild p i = some c) :
    ∃ l r, childHandles p = l ++ c :: r ∧ l.length = i := by
  rw [← childHandles_getElem?] at h
  obtain ⟨hlt, rfl⟩ := List.getElem?_eq_some_iff.mp h
  refine ⟨(childHandles p).take i, (childHandles p).drop (i + 1), ?_, List.length_take_of_le hlt.le⟩
  rw [List.getElem_cons_drop, List.take_append_drop]

/-- What stands around a child: its siblings, then what stands around the parent. -/
theorem around_child {l r : List Red} (h : childHandles p = l ++ c :: r) :
    wrapChild p l.length = some c ∧ following c = r ++ following p ∧ preceding c = l.reverse ++ preceding p := by
  have hchild : wrapChild p l.length = some c := by
    rw [← childHandles_getElem?, h]
    simp
  obtain ⟨g, -, rfl⟩ := wrapChild_eq hchild
  refine ⟨hchild, ?_, ?_⟩
  · simp [following, h]
  · simp [preceding, h]

theorem tokens_around (h : Below e c) : ∃ xs ys, following c = xs ++ following e ∧ preceding c = ys ++ preceding e ∧
    tokens e = ys.reverse.flatMap tokens ++ tokens c ++ xs.flatMap tokens := by
  induction h with
  | self => exact ⟨[], [], rfl, rfl, by simp⟩
  | @child p c i _ hchild ih =>
      obtain ⟨xs, ys, hfollowing, hpreceding, htokens⟩ := ih
      obtain ⟨l, r, hsplit, -⟩ := childHandles_split hchild
      obtain ⟨-, hafter, hbefore⟩ := around_child hsplit
      refine ⟨r ++ xs, l.reverse ++ ys, by rw [hafter, hfollowing, List.append_assoc],
        by rw [hbefore, hpreceding, List.append_assoc], ?_⟩
      rw [htokens, tokens_of_node (wrapChild_node hchild), hsplit]
      simp

theorem tokens_nodup (e : Red) : (tokens e).Nodup := by
  induction e using Red.below_induction with
  | h e ih =>
      cases htoken : e.isToken with
      | true =>
          rw [tokens_of_token htoken]
          exact List.nodup_singleton e
      | false =>
          rw [tokens_of_node htoken, List.nodup_flatMap]
          constructor
          · intro c hc
            obtain ⟨i, hchild⟩ := mem_childHandles.mp hc
            exact ih i c hchild
          · rw [List.pairwise_iff_getElem]
            intro i j hi hj hij t ht ht'
            have hwrap (k : Nat) (hk : k < (childHandles e).length) : wrapChild e k = some (childHandles e)[k] := by
              rw [← childHandles_getElem?, List.getElem?_eq_getElem hk]
            exact absurd (children_disjoint (hwrap i hi) (hwrap j hj) (mem_tokens.mp ht).1 (mem_tokens.mp ht').1)
              (Nat.ne_of_lt hij)

theorem sideBySide_textLen (p : Red) (i o : Nat) (gs : List Green) :
    ((sideBySide p i o gs).map fun c => textLen c.green).sum = textLenAll gs := by
  induction gs generalizing i o with
  | nil => rfl
  | cons g gs ih =>
      rw [sideBySide, List.map_cons, List.sum_cons, ih, textLenAll]
      rfl

theorem node_textLen (h : e.isToken = false) : textLen e.green = textLenAll e.children := by
  unfold Red.isToken at h
  rw [Red.children]
  split at h
  · cases h
  · rename_i hgreen
    rw [hgreen, textLen]

theorem flatMap_textLen {cs : List Red}
    (h : ∀ c ∈ cs, ((tokens c).map fun t => textLen t.green).sum = textLen c.green) :
    ((cs.flatMap tokens).map fun t => textLen t.green).sum = (cs.map fun c => textLen c.green).sum := by
  induction cs with
  | nil => rfl
  | cons c cs ih =>
      rw [List.flatMap_cons, List.map_append, List.sum_append, List.map_cons, List.sum_cons,
        h c (List.mem_cons_self ..), ih fun d hd => h d (List.mem_cons_of_mem _ hd)]

theorem tokens_textLen (e : Red) : ((tokens e).map fun t => textLen t.green).sum = textLen e.green := by
  induction e using Red.below_induction with
  | h e ih =>
      cases htoken : e.isToken with
      | true => simp [tokens_of_token htoken]
      | false =>
          rw [tokens_of_node htoken, node_textLen htoken, flatMap_textLen, childHandles, sideBySide_textLen]
          intro c hc
          obtain ⟨i, hchild⟩ := mem_childHandles.mp hc
          exact ih i c hchild

theorem tokens_ne_nil (h : 0 < textLen e.green) : tokens e ≠ [] := by
  intro hnil
  have hlen := tokens_textLen e
  rw [hnil] at hlen
  exact absurd hlen (Nat.ne_of_lt h)

end Ore.RedHandles
