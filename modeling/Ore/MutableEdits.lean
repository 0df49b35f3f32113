import Ore.PersistentEdits
import Ore.RedForestRuns

namespace Ore.MutableEdits

open BindingGraph RedForest RedForestLinks RedForestEdits RedForestSplices RedForestRuns Relation
open PersistentEdits (Stored stored greenNodeAlloc bubbleUp replaceWith persistentSplice putAt stored_alloc rootOf
  placeOf)

variable {f f' f₁ : Forest} {c d p depth : Nat} {x y px : Cell} {g : Green} {around : Stored → Stored}

/-- The tree around the handle `c`, as a function of its element, and the number
of handles on the way up. -/
inductive Around (f : Forest) : Nat → Nat → (Stored → Stored) → Prop
  | root {c : Nat} {x : Cell} (live : f.cells c = some x) (top : x.parent = none) : Around f c 1 id
  | child {c p : Nat} {x px : Cell} {depth : Nat} {around : Stored → Stored} (live : f.cells c = some x)
      (below : x.parent = some p) (parent : f.cells p = some px) (slot : x.index < px.green.children.length)
      (up : Around f p depth around) :
      Around f c (depth + 1) fun new =>
        around (greenNodeAlloc px.green.kind ((px.green.children.map stored).set x.index new))

/-- The mutable handle stands where the immutable one does. -/
def Mirrors (f : Forest) : {g : Green} → Nat → Fixed g → Prop
  | _, c, .root addr kind children => ∃ x, f.cells c = some x ∧ x.parent = none ∧ x.green = .node addr kind children
  | _, c, .child up index green _ =>
    ∃ x p, f.cells c = some x ∧ x.parent = some p ∧ x.index = index ∧ x.green = green ∧ Mirrors f p up

section Around

theorem isToken_of_child {i : Nat} {child : Green} (h : g.children[i]? = some child) : g.isToken = false := by
  cases g with
  | token => simp [Green.children] at h
  | node => rfl

theorem parent_unique {a b : Nat} (ha : Parent f c a) (hb : Parent f c b) : a = b := by
  obtain ⟨x, hx, hxa⟩ := ha
  obtain ⟨y, hy, hyb⟩ := hb
  obtain rfl := Option.some.inj (hx.symm.trans hy)
  exact Option.some.inj (hxa.symm.trans hyb)

theorem Around.depth_unique {n m : Nat} {around' : Stored → Stored} (h : Around f c n around)
    (h' : Around f c m around') : n = m := by
  induction h generalizing m around' with
  | root live top =>
      cases h' with
      | root => rfl
      | child live' below =>
          obtain rfl := Option.some.inj (live.symm.trans live')
          rw [top] at below
          cases below
  | child live below _ _ _ ih =>
      cases h' with
      | root live' top =>
          obtain rfl := Option.some.inj (live.symm.trans live')
          rw [top] at below
          cases below
      | child live' below' _ _ up' =>
          obtain rfl := parent_unique ⟨_, live, below⟩ ⟨_, live', below'⟩
          rw [ih up']

theorem Around.above {n : Nat} (h : Around f c n around) (ha : TransGen (Parent f) c d) :
    ∃ m, m < n ∧ ∃ around', Around f d m around' := by
  have hparent : ∀ {c n around}, Around f c n around → ∀ {p}, Parent f c p →
      ∃ m, m < n ∧ ∃ around', Around f p m around' := by
    intro c n around h p hp
    cases h with
    | root live top =>
        obtain ⟨y, hy, hyp⟩ := hp
        obtain rfl := Option.some.inj (live.symm.trans hy)
        rw [top] at hyp
        cases hyp
    | child live below _ _ up =>
        obtain rfl := parent_unique ⟨_, live, below⟩ hp
        exact ⟨_, Nat.lt_succ_self _, _, up⟩
  induction ha with
  | single hp => exact hparent h hp
  | tail _ hp ih =>
      obtain ⟨m, hm, _, hup⟩ := ih
      obtain ⟨k, hk, hrest⟩ := hparent hup hp
      exact ⟨k, hk.trans hm, hrest⟩

theorem Around.not_above_self {n : Nat} (h : Around f c n around) : ¬ TransGen (Parent f) c c := fun hcc => by
  obtain ⟨m, hm, _, h'⟩ := h.above hcc
  rw [h.depth_unique h'] at hm
  exact Nat.lt_irrefl _ hm

/-- A child of `p` is not above it. -/
theorem Around.not_chain_child {n : Nat} (h : Around f p n around) (hc : Parent f c p) : ¬ Chain f p c := by
  intro hchain
  rcases reflTransGen_iff_eq_or_transGen.mp hchain with rfl | htrans
  · exact h.not_above_self (.single hc)
  · exact h.not_above_self (htrans.tail hc)

/-- The tree around a handle depends on the handles above it alone. -/
theorem Around.congr {n : Nat} (h : Around f c n around)
    (hkeep : ∀ d x, Chain f c d → f.cells d = some x →
      ∃ y, f'.cells d = some y ∧ y.parent = x.parent ∧ y.index = x.index ∧ (d ≠ c → y.green = x.green)) :
    Around f' c n around := by
  induction h with
  | @root c x live top =>
      obtain ⟨y, hy, hp, -⟩ := hkeep c x .refl live
      exact .root hy (hp.trans top)
  | @child c p x px n around live below parent slot up ih =>
      have hc : Parent f c p := ⟨x, live, below⟩
      have hne : ∀ {d}, Chain f p d → d ≠ c := by
        rintro d hd rfl
        exact up.not_chain_child hc hd
      obtain ⟨y, hy, hp, hi, -⟩ := hkeep c x .refl live
      obtain ⟨py, hpy, -, -, hpg⟩ := hkeep p px (.single hc) parent
      have hpg := hpg (hne .refl)
      have hup : Around f' p n around := by
        refine ih fun d z hd hz => ?_
        obtain ⟨w, hw, hwp, hwi, hwg⟩ := hkeep d z (.head hc hd) hz
        exact ⟨w, hw, hwp, hwi, fun _ => hwg (hne hd)⟩
      have hstep := Around.child hy (hp.trans below) hpy (by rw [hi, hpg]; exact slot) hup
      rw [hi, hpg] at hstep
      exact hstep

theorem Around.live {n : Nat} (h : Around f c n around) : 1 ≤ n ∧ ∃ x, f.cells c = some x := by
  cases h with
  | root live _ => exact ⟨le_rfl, _, live⟩
  | child live _ _ _ _ => exact ⟨by omega, _, live⟩

theorem exists_around (h : Linked f none none) (hx : f.cells c = some x) : ∃ n around, Around f c n around := by
  induction c using h.rises.induction generalizing x with
  | _ c ih =>
      cases hp : x.parent with
      | none => exact ⟨1, id, .root hx hp⟩
      | some p =>
          obtain ⟨px, hpx, -⟩ := h.live hx hp (by simp)
          obtain ⟨n, around, hup⟩ := ih p ⟨x, hx, hp⟩ hpx
          have hslot := (List.getElem?_eq_some_iff.mp (h.green hx hp hpx (by simp) (by simp))).1
          exact ⟨n + 1, _, .child hx hp hpx hslot hup⟩

theorem Around.rootGreen {n : Nat} (h : Around f c n around) (hl : Linked f none none) (hx : f.cells c = some x)
    (hn : n ≤ depth) : ∃ r, rootGreen depth f c = some r ∧ stored r = around (stored x.green) := by
  induction h generalizing x depth with
  | root live top =>
      obtain rfl := Option.some.inj (live.symm.trans hx)
      obtain ⟨depth, rfl⟩ := Nat.exists_eq_add_of_le' hn
      exact ⟨_, by simp [RedForest.rootGreen, hx, top], rfl⟩
  | @child c p z px n around live below parent slot up ih =>
      obtain rfl := Option.some.inj (live.symm.trans hx)
      obtain ⟨depth, rfl⟩ := Nat.exists_eq_add_of_le' (le_trans (Nat.le_add_left 1 n) hn)
      obtain ⟨r, hr, hstored⟩ := @ih depth px parent (by omega)
      have hgreen := hl.green hx below parent (by simp) (by simp)
      have hsame : (px.green.children.map stored).set z.index (stored z.green) = px.green.children.map stored := by
        rw [← List.map_set, ← Option.some.inj ((List.getElem?_eq_getElem slot).symm.trans hgreen),
          List.set_getElem_self]
      refine ⟨r, by simpa [RedForest.rootGreen, hx, below] using hr, ?_⟩
      simp only [hstored, hsame, stored_alloc (isToken_of_child hgreen)]

theorem Around.bubbleUp {n : Nat} (h : Around f c n around) (m : Fixed g) (hm : Mirrors f c m) (new : Stored) :
    bubbleUp m new = some (around new) := by
  induction h generalizing g new with
  | root live top =>
      cases m with
      | root => rfl
      | child =>
          obtain ⟨y, p, hy, hp, -⟩ := hm
          obtain rfl := Option.some.inj (live.symm.trans hy)
          rw [top] at hp
          cases hp
  | @child c p x px n around live below parent slot up ih =>
      cases m with
      | root =>
          obtain ⟨y, hy, hp, -⟩ := hm
          obtain rfl := Option.some.inj (live.symm.trans hy)
          rw [below] at hp
          cases hp
      | @child parentGreen upper index green held =>
          obtain ⟨y, q, hy, hq, hi, -, hup⟩ := hm
          obtain rfl := Option.some.inj (live.symm.trans hy)
          obtain rfl := Option.some.inj (below.symm.trans hq)
          have hpg : px.green = parentGreen := by
            cases upper with
            | root =>
                obtain ⟨z, hz, -, hzg⟩ := hup
                obtain rfl := Option.some.inj (parent.symm.trans hz)
                exact hzg
            | child =>
                obtain ⟨z, _, hz, -, -, hzg, -⟩ := hup
                obtain rfl := Option.some.inj (parent.symm.trans hz)
                exact hzg
          subst hpg
          rw [PersistentEdits.bubbleUp, PersistentEdits.greenNodeReplaceChild, if_pos (by simpa [← hi] using slot),
            Option.bind_some, ih upper hup, PersistentEdits.stored_kind, PersistentEdits.stored_elements, hi]

/-- Every node handle stands where some immutable handle does. -/
theorem exists_mirror (h : Linked f none none) (hx : f.cells c = some x) (hnode : x.green.isToken = false) :
    ∃ m : Fixed x.green, Mirrors f c m := by
  induction c using h.rises.induction generalizing x with
  | _ c ih =>
      cases hp : x.parent with
      | none =>
          cases hg : x.green with
          | token => simp [hg, Green.isToken] at hnode
          | node addr kind children => exact ⟨.root addr kind children, x, hx, hp, hg⟩
      | some p =>
          obtain ⟨px, hpx, -⟩ := h.live hx hp (by simp)
          have hgreen := h.green hx hp hpx (by simp) (by simp)
          obtain ⟨m, hm⟩ := ih p ⟨x, hx, hp⟩ hpx (isToken_of_child hgreen)
          exact ⟨.child m x.index x.green hgreen, x, p, hx, hp, rfl, rfl, hm⟩

end Around

section Respine

theorem respine_root (hx : f.cells c = some x) (hp : x.parent = none) :
    respine (depth + 1) f c g = some (f.modify c (regreen g)) := by
  rw [respine, hx]
  simp only [hp]
  rfl

theorem respine_child (hx : f.cells c = some x) (hp : x.parent = some p) (hpc : p ≠ c) (hpx : f.cells p = some px)
    (hslot : x.index < px.green.children.length) :
    respine (depth + 1) f c g = respine depth { f.modify c (regreen g) with nextGreen := f.nextGreen + 1 } p
      (.node f.nextGreen px.green.kind (px.green.children.set x.index g)) := by
  have hpx' : (f.modify c fun x => { x with green := g }).cells p = some px := by rw [modify_of_ne hpc, hpx]
  rw [respine, hx]
  simp only [hp, hpx', greenNodeReplaceChild, if_pos hslot, Option.bind_some]
  rfl

/-- The walk up succeeds, and the tree around the node stays. -/
theorem Around.respine {n : Nat} (h : Around f c n around) (hn : n ≤ depth) (g : Green) :
    ∃ f', respine depth f c g = some f' ∧ Around f' c n around ∧ ∃ y, f'.cells c = some y ∧ y.green = g := by
  induction n generalizing f c around depth g with
  | zero => exact absurd h.live.1 (by simp)
  | succ n ih =>
      obtain ⟨depth, rfl⟩ := Nat.exists_eq_add_of_le' (le_trans (Nat.le_add_left 1 n) hn)
      cases h with
      | @root _ x live top =>
          exact ⟨_, respine_root live top, .root (modify_self live _) top, _, modify_self live _, rfl⟩
      | @child _ p x px _ around live below parent slot up =>
          have hc : Parent f c p := ⟨x, live, below⟩
          have hne : ∀ {d}, Chain f p d → d ≠ c := by
            rintro d hd rfl
            exact up.not_chain_child hc hd
          have hup : Around { f.modify c (regreen g) with nextGreen := f.nextGreen + 1 } p n around :=
            up.congr fun d z hd hz => ⟨z, by rw [← hz]; exact modify_of_ne (hne hd) _, rfl, rfl, fun _ => rfl⟩
          obtain ⟨f', hr, hup', py, hpy, hpg⟩ :=
            ih hup (show n ≤ depth by omega) (.node f.nextGreen px.green.kind (px.green.children.set x.index g))
          have hcell : ({ f.modify c (regreen g) with nextGreen := f.nextGreen + 1 } : Forest).cells c =
              some (regreen g x) := modify_self live _
          obtain ⟨g', hc', hg'⟩ := (respine_regreened hr).at hcell
          obtain rfl : g' = g := hg' (hup.not_chain_child ⟨_, hcell, below⟩)
          have hslot : (regreen g' (regreen g' x)).index < py.green.children.length := by
            rw [hpg, Green.children, List.length_set]
            exact slot
          have hstep := Around.child hc' below hpy hslot hup'
          refine ⟨f', by rw [respine_child live below (hne .refl) parent slot, hr], ?_, _, hc', rfl⟩
          rw [hpg, Green.children, List.map_set] at hstep
          simpa only [Green.kind, regreen, List.set_set] using hstep

end Respine

/-- The node `p` with its kind, its children and the tree around it. -/
structure Stands (f : Forest) (p n : Nat) (around : Stored → Stored) (kind : SyntaxKinds.SyntaxKind)
    (children : List Green) : Prop where
  around : Around f p n around
  node : ∃ px, f.cells p = some px ∧ px.green.isToken = false ∧ px.green.kind = kind ∧ px.green.children = children

section Detach

variable {n : Nat} {kind : SyntaxKinds.SyntaxKind} {children : List Green}

theorem Stands.congr (h : Stands f p n around kind children)
    (hkeep : ∀ d x, Chain f p d → f.cells d = some x →
      ∃ y, f'.cells d = some y ∧ y.parent = x.parent ∧ y.index = x.index ∧ y.green = x.green) :
    Stands f' p n around kind children where
  around := h.around.congr fun d x hd hx => (hkeep d x hd hx).imp fun _ hy =>
    ⟨hy.1, hy.2.1, hy.2.2.1, fun _ => hy.2.2.2⟩
  node := by
    obtain ⟨px, hpx, hnode, hkind, hchildren⟩ := h.node
    obtain ⟨y, hy, -, -, hg⟩ := hkeep p px .refl hpx
    exact ⟨y, hy, by rw [hg, hnode], by rw [hg, hkind], by rw [hg, hchildren]⟩

theorem Stands.grows (h : Stands f p n around kind children) (hg : Grows f f') : Stands f' p n around kind children :=
  h.congr fun _ _ _ hx => (hg.cells hx).imp fun _ hy => ⟨hy.1, hy.2.1, hy.2.2.1, hy.2.2.2.1⟩

theorem release_shared (hx : f.cells c = some x) (hmore : 1 < x.refcount) :
    release (depth + 1) f c = some (f.modify c fun x => { x with refcount := x.refcount - 1 }) := by
  rw [release, hx]
  simp only
  rw [if_neg (by omega), if_pos hmore]

theorem recount_cell (count : Nat → Nat) {e : Nat} (hz : f.cells e = some x) :
    ∃ y, (f.modify p fun x => { x with refcount := count x.refcount }).cells e = some y ∧ y.parent = x.parent ∧
      y.index = x.index ∧ y.green = x.green := by
  rw [modify_cells, hz]
  split_ifs <;> exact ⟨_, rfl, rfl, rfl, rfl⟩

theorem unlinked_cell (ring : List Nat) (c p i : Nat) {e : Nat} (hz : f.cells e = some x) :
    ∃ y, (unlinked f ring c p i).cells e = some y ∧ y.parent = x.parent ∧ y.green = x.green ∧
      y.refcount = x.refcount ∧ (e ∉ ring ∨ x.key ≤ i → x.key = x.index → y.index = x.index) := by
  simp only [unlinked, modify_cells, sllAdjustAndSync, hz]
  split_ifs with hmem hep hep <;> refine ⟨_, rfl, rfl, rfl, rfl, ?_⟩
  all_goals
    rintro hout hsync
    first | rfl | (rcases hout with hout | hle <;> [exact absurd ‹_› hout; (simp only; rw [if_neg (by omega), hsync])])

theorem Stands.detach (hs : Stands f p n around kind children) (h : Linked f none none) (hx : f.cells c = some x)
    (hp : x.parent = some p) (hheld : 0 < held f p) (hn : n ≤ depth) :
    ∃ f', detachCommon depth f c = some f' ∧
      Stands f' p n around kind (children.take x.index ++ children.drop (x.index + 1)) ∧
      ∀ e z, f.cells e = some z → e ≠ c → z.index ≤ x.index →
        ∃ y, f'.cells e = some y ∧ y.parent = z.parent ∧ y.index = z.index := by
  obtain ⟨px, hpx, hnode, rfl, rfl⟩ := hs.node
  obtain ⟨_, hpx', hcmem⟩ := h.live hx hp (by simp)
  obtain rfl := Option.some.inj (hpx.symm.trans hpx')
  have hcp : Parent f c p := ⟨x, hx, hp⟩
  have hself : p ∉ px.first := h.not_mem_self hpx
  have hne : c ≠ p := h.parent_ne hcp
  have hslot := (List.getElem?_eq_some_iff.mp (h.green hx hp hpx (by simp) (by simp))).1
  have houter : ∀ {d}, Chain f p d → d ∉ px.first := by
    intro d hd hmem
    obtain ⟨y, hy, hyp⟩ := h.ring hpx hmem
    exact h.not_chain_child ⟨y, hy, hyp⟩ hd
  have hun : Around (unlinked f px.first c p x.index) p n around := hs.around.congr fun d z hd hz => by
    obtain ⟨y, hy, hyp, hyg, -, hyi⟩ := unlinked_cell px.first c p x.index hz
    exact ⟨y, hy, hyp, hyi (.inl (houter hd)) (h.synced hz), fun _ => hyg⟩
  obtain ⟨f₁, hspine, ha₁, py, hpy, hpg⟩ := hun.respine hn (.node f.nextGreen px.green.kind
    (px.green.children.take x.index ++ [] ++ px.green.children.drop (x.index + 1)))
  have hpaint := respine_regreened hspine
  have hbelow : ¬ Chain f₁ p c := by
    rw [hpaint.chain_iff, Chain, unlinked_parent]
    exact h.not_chain_child hcp
  have hmore : 1 < py.refcount := by
    obtain ⟨y, hy, -, -, hyr, -⟩ := unlinked_cell px.first c p x.index hpx
    obtain ⟨_, hpy', -⟩ := hpaint.at hy
    obtain rfl := Option.some.inj (hpy.symm.trans hpy')
    have hpos := List.length_pos_of_mem hcmem
    rw [held_eq hpx] at hheld
    simp only [regreen, hyr]
    omega
  obtain ⟨depth, rfl⟩ := Nat.exists_eq_add_of_le' (hs.around.live.1.trans hn)
  have hpy₂ : (f₁.modify c fun x => { x with parent := none }).cells p = some py := by
    rw [modify_of_ne (Ne.symm hne), hpy]
  have hresult : detachCommon (depth + 1) f c = some ((f₁.modify c fun x => { x with parent := none }).modify p
      fun y => { y with refcount := y.refcount - 1 }) := by
    rw [detachCommon, hx]
    simp only [hp, hpx, greenNodeSpliceChildren]
    rw [if_pos ⟨Nat.le_succ _, hslot⟩, Option.bind_some]
    exact Option.bind_eq_some_iff.mpr ⟨f₁, hspine, release_shared hpy₂ hmore⟩
  refine ⟨_, hresult, ⟨?_, ?_⟩, ?_⟩
  · refine ha₁.congr fun d z hd hz => ?_
    have hdc : d ≠ c := by
      rintro rfl
      exact hbelow hd
    obtain ⟨y, hy, hyp, hyi, hyg⟩ := recount_cell (p := p) (· - 1) ((modify_of_ne hdc _).trans hz)
    exact ⟨y, hy, hyp, hyi, fun _ => hyg⟩
  · exact ⟨_, modify_self hpy₂ _, by simp [hpg, Green.isToken], by simp [hpg, Green.kind],
      by simp [hpg, Green.children]⟩
  · intro e z hz hec hle
    obtain ⟨y, hy, hyp, -, -, hyi⟩ := unlinked_cell px.first c p x.index hz
    obtain ⟨_, hy₁, -⟩ := hpaint.at hy
    obtain ⟨w, hw, hwp, hwi, -⟩ := recount_cell (p := p) (· - 1) ((modify_of_ne hec _).trans hy₁)
    have hsync := h.synced hz
    exact ⟨w, hw, hwp.trans hyp, hwi.trans (hyi (.inr (hsync.le.trans hle)) hsync)⟩

end Detach

section Lookup

theorem childOrToken_total {i : Nat} (h : Linked f none none) (hpx : f.cells p = some px)
    (hg : px.green.children[i]? = some g) : ∃ c f', childOrToken f p i = some (c, f') := by
  obtain ⟨r, hlink⟩ := sllLink_total f px.first i
  rw [childOrToken, hpx]
  simp only [hg]
  rw [childAt, hpx]
  simp only [hlink]
  cases r with
  | alreadyInSll d =>
      obtain ⟨hmem, hkey⟩ := sllLink_found hlink
      obtain ⟨y, hy, hyp⟩ := h.ring hpx hmem
      have hi : y.index = i := by rw [← h.synced hy, ← keyOf_eq hy, hkey]
      have hgreen := h.green hy hyp hpx (by simp) (by simp)
      rw [hi, hg] at hgreen
      simp only [hy]
      rw [if_pos (by rw [← Option.some.inj hgreen])]
      exact ⟨_, _, rfl⟩
  | _ => exact ⟨_, _, rfl⟩

/-- The snapshot holds the handles of a range, in order. -/
theorem snapshot_total {start count : Nat} (h : Linked f none none) (hpx : f.cells p = some px)
    (hrange : start + count ≤ px.green.children.length) :
    ∃ nodes f', snapshot f p start count = some (nodes, f') ∧ nodes.length = count ∧
      ∀ i c, nodes[i]? = some c → ∃ x, f'.cells c = some x ∧ x.parent = some p ∧ x.index = start + i := by
  induction count generalizing f px start with
  | zero => exact ⟨[], f, rfl, rfl, by simp⟩
  | succ count ih =>
      obtain ⟨c, f₁, hchild⟩ := childOrToken_total h hpx (List.getElem?_eq_getElem (show start < _ by omega))
      obtain ⟨hl, hgrows, -, x, hx, hxp, hxi⟩ := childOrToken_spec h hchild
      obtain ⟨py, hpy, -, -, hpg, -⟩ := hgrows.cells hpx
      obtain ⟨nodes, f', hsnap, hlen, hplace⟩ := ih hl hpy (by rw [hpg]; omega : start + 1 + count ≤ _)
      obtain ⟨-, hgrows', -⟩ := snapshot_spec hl hsnap
      refine ⟨c :: nodes, f', ?_, by rw [List.length_cons, hlen], fun i d hd => ?_⟩
      · rw [snapshot, hchild, Option.bind_some]
        simp only [hsnap, Option.map_some]
      · cases i with
        | zero =>
            obtain rfl : c = d := by simpa using hd
            obtain ⟨y, hy, hyp, hyi, -⟩ := hgrows'.cells hx
            exact ⟨y, hy, hyp.trans hxp, hyi.trans hxi⟩
        | succ i =>
            obtain ⟨y, hy, hyp, hyi⟩ := hplace i d (by simpa using hd)
            exact ⟨y, hy, hyp, by omega⟩

end Lookup

section Edits

variable {n : Nat} {kind : SyntaxKinds.SyntaxKind} {children : List Green}

/-- The handles of the range are detached from the last to the first. -/
theorem Stands.detachAll {start : Nat} {nodes : List Nat} (hs : Stands f p n around kind children)
    (h : Linked f none none) (hheld : 0 < held f p) (hn : n ≤ depth)
    (hplace : ∀ i c, nodes[i]? = some c → ∃ x, f.cells c = some x ∧ x.parent = some p ∧ x.index = start + i) :
    ∃ f', detachAll depth f nodes.reverse = some f' ∧
      Stands f' p n around kind (children.take start ++ children.drop (start + nodes.length)) := by
  induction nodes using List.reverseRecOn generalizing f children with
  | nil => exact ⟨f, rfl, by simpa using hs⟩
  | append_singleton nodes c ih =>
      obtain ⟨x, hx, hxp, hxi⟩ := hplace nodes.length c (by simp)
      obtain ⟨f₁, hdetach, hs₁, hkeep⟩ := hs.detach h hx hxp hheld hn
      have hd := detach_spec h hx hxp hdetach
      have hrest : ∀ i d, nodes[i]? = some d → ∃ y, f₁.cells d = some y ∧ y.parent = some p ∧ y.index = start + i := by
        intro i d hid
        have hi : i < nodes.length := (List.getElem?_eq_some_iff.mp hid).1
        obtain ⟨z, hz, hzp, hzi⟩ := hplace i d (by rw [List.getElem?_append_left hi, hid])
        have hne : d ≠ c := by
          rintro rfl
          obtain rfl := Option.some.inj (hx.symm.trans hz)
          omega
        obtain ⟨y, hy, hyp, hyi⟩ := hkeep d z hz hne (by omega)
        exact ⟨y, hy, hyp.trans hzp, hyi.trans hzi⟩
      obtain ⟨f', hall, hs'⟩ := ih hs₁ hd.linked (by rw [hd.held]; exact hheld) hrest
      refine ⟨f', ?_, ?_⟩
      · rw [List.reverse_append, List.reverse_singleton, List.singleton_append, RedForest.detachAll, List.foldlM_cons,
          hdetach]
        exact hall
      · have hpx := hs.node
        obtain ⟨px, hpx, -, -, rfl⟩ := hpx
        have hslot := (List.getElem?_eq_some_iff.mp (h.green hx hxp hpx (by simp) (by simp))).1
        rw [hxi] at hs' hslot
        rw [List.length_append, List.length_singleton]
        convert hs' using 1
        have hlen : (px.green.children.take (start + nodes.length)).length = start + nodes.length := by
          rw [List.length_take]
          omega
        rw [List.take_append_of_le_length (by omega), List.take_take, min_eq_left (by omega), List.drop_left' hlen,
          Nat.add_assoc]

theorem releaseAll_total {nodes : List Nat} (h : Linked f none none) (hheld : ∀ d, nodes.count d ≤ held f d)
    (hroot : ∀ c ∈ nodes, ∀ x, f.cells c = some x → x.parent = none) :
    ∃ f', releaseAll (depth + 1) f nodes = some f' ∧ ∀ d ∉ nodes, f'.cells d = f.cells d := by
  induction nodes generalizing f with
  | nil => exact ⟨f, rfl, fun _ _ => rfl⟩
  | cons c nodes ih =>
      have hcount := hheld c
      rw [List.count_cons_self] at hcount
      obtain ⟨x, hx⟩ := live_of_held (f := f) (c := c) (by omega)
      have hp := hroot c List.mem_cons_self x hx
      have hrel : ∃ f₁, release (depth + 1) f c = some f₁ := by
        rw [held_eq hx] at hcount
        rw [release, hx]
        simp only [hp]
        split_ifs with hzero hmore hfirst
        · omega
        · exact ⟨_, rfl⟩
        · have hlen := List.length_pos_of_ne_nil hfirst
          omega
        · exact ⟨_, rfl⟩
      obtain ⟨f₁, hrel⟩ := hrel
      obtain ⟨hl, hs, hheld₁, hkeep⟩ := release_spec h (by omega) hrel
      have hrest : ∀ d, nodes.count d ≤ held f₁ d := by
        intro d
        have h₃ := hheld d
        rw [hheld₁]
        by_cases hd : d = c
        · subst hd
          rw [List.count_cons_self] at h₃
          rw [if_pos rfl]
          omega
        · rw [List.count_cons_of_ne (Ne.symm hd)] at h₃
          rw [if_neg hd]
          omega
      obtain ⟨f', hall, hsame⟩ := ih hl hrest fun d hd y hy => by
        obtain ⟨z, hz, hzp, -⟩ := hs.cells hy
        rw [hzp, hroot d (List.mem_cons_of_mem _ hd) z hz]
      refine ⟨f', ?_, fun d hd => ?_⟩
      · rw [releaseAll, List.foldlM_cons, hrel]
        exact hall
      · simp only [List.mem_cons, not_or] at hd
        rw [hsame d hd.2]
        refine hkeep d fun hch => ?_
        rcases hch.cases_head with heq | ⟨q, ⟨y, hy, hyq⟩, -⟩
        · exact hd.1 heq.symm
        · obtain rfl := Option.some.inj (hx.symm.trans hy)
          rw [hp] at hyq
          cases hyq

theorem hooked_cell {ring : List Nat} (ring' : List Nat) (i : Nat) {e : Nat} (hz : f.cells e = some x) (hec : e ≠ c)
    (hout : e ∉ ring) : ∃ y, (hooked f ring ring' c p i).cells e = some y ∧ y.parent = x.parent ∧ y.index = x.index ∧
      y.green = x.green := by
  by_cases hep : e = p
  · subst hep
    simp [hooked, spread, modify_cells, sllAdjustAndSync, hec, hout, hz]
  · simp [hooked, spread, modify_cells, sllAdjustAndSync, hec, hep, hout, hz]

theorem Stands.attach {i : Nat} (hs : Stands f p n around kind children) (h : Linked f none none)
    (hx : f.cells c = some x) (hroot : x.parent = none) (hchain : ¬ Chain f p c) (hi : i ≤ children.length)
    (hn : n ≤ depth) : ∃ f', attachChild depth f p i c = some f' ∧
      Stands f' p n around kind (children.take i ++ [x.green] ++ children.drop i) := by
  obtain ⟨px, hpx, hnode, rfl, rfl⟩ := hs.node
  have hcp : c ≠ p := fun hcp => hchain (hcp ▸ .refl)
  have hself : p ∉ px.first := h.not_mem_self hpx
  have hcout : c ∉ px.first := h.not_mem_ring hx hpx (by rw [hroot]; simp)
  obtain ⟨r, hlink⟩ := sllLink_total (spread f px.first c p i) px.first i
  have hnew : ∀ d, r ≠ .alreadyInSll d := by
    rintro d rfl
    obtain ⟨hd, hkey⟩ := sllLink_found hlink
    obtain ⟨z, hz, -⟩ := h.ring hpx hd
    have hdp : d ≠ p := fun hdp => hself (hdp ▸ hd)
    have hdc : d ≠ c := fun hdc => hcout (hdc ▸ hd)
    have hplace : (spread f px.first c p i).keyOf d = openGap i z.key := by
      simp [Forest.keyOf, spread, sllAdjustAndSync, modify_cells, hd, hdp, hdc, hz, openGap]
    rw [hplace, openGap] at hkey
    split_ifs at hkey <;> omega
  have hhooked : Around (hooked f px.first (sllAdd px.first c r) c p i) p n around := by
    refine hs.around.congr fun d z hd hz => ?_
    have hdc : d ≠ c := by
      rintro rfl
      exact hchain hd
    have hout : d ∉ px.first := by
      intro hmem
      obtain ⟨y, hy, hyp⟩ := h.ring hpx hmem
      exact h.not_chain_child ⟨y, hy, hyp⟩ hd
    obtain ⟨y, hy, hyp, hyi, hyg⟩ := hooked_cell (p := p) (sllAdd px.first c r) i hz hdc hout
    exact ⟨y, hy, hyp, hyi, fun _ => hyg⟩
  obtain ⟨f', hspine, ha, py, hpy, hpg⟩ := hhooked.respine hn (.node f.nextGreen px.green.kind
    (px.green.children.take i ++ [x.green] ++ px.green.children.drop i))
  refine ⟨f', by rw [attachChild_hooked hx hpx ⟨hroot, hi⟩ hself hcp hlink hnew, hspine], ha, py, hpy, ?_⟩
  rw [hpg]
  exact ⟨rfl, rfl, rfl⟩

def greens (f : Forest) (cs : List Nat) : List Green := cs.filterMap fun c => (f.cells c).map Cell.green

theorem Stands.attachAll {start : Nat} {replace : List Nat} (hs : Stands f p n around kind children)
    (h : Linked f none none) (hn : n ≤ depth) (hstart : start ≤ children.length) (hnodup : replace.Nodup)
    (hreplace : ∀ c ∈ replace, 0 < held f c ∧ ¬ Chain f p c ∧ ∀ x, f.cells c = some x → x.parent = none) :
    ∃ f', attachAll depth f p start replace = some f' ∧
      Stands f' p n around kind (children.take start ++ greens f replace ++ children.drop start) := by
  induction replace generalizing f children start with
  | nil => exact ⟨f, rfl, by simpa [greens] using hs⟩
  | cons c replace ih =>
      obtain ⟨hheld, hchain, hroot⟩ := hreplace c List.mem_cons_self
      obtain ⟨x, hx⟩ := live_of_held hheld
      obtain ⟨f₁, hattach, hs₁⟩ := hs.attach h hx (hroot x hx) hchain hstart hn
      have ha := attach_spec h hchain hattach
      have hedit := Attached.edits ha hchain
      obtain ⟨hc, hnodup⟩ := List.nodup_cons.mp hnodup
      have hrest : ∀ d ∈ replace, 0 < held f₁ d ∧ ¬ Chain f₁ p d ∧ ∀ y, f₁.cells d = some y → y.parent = none := by
        intro d hd
        obtain ⟨hpos, hnot, hnone⟩ := hreplace d (List.mem_cons_of_mem _ hd)
        refine ⟨by rw [ha.held]; exact hpos, fun hch => hnot (hedit.chain hch), fun y hy => ?_⟩
        obtain ⟨z, hz, hzp, -⟩ := ha.other hy
        rw [hzp (fun hdc => hc (hdc ▸ hd)), hnone z hz]
      have hsame : greens f₁ replace = greens f replace := by
        refine List.filterMap_congr fun d hd => ?_
        obtain ⟨y, hy⟩ := live_of_held (hrest d hd).1
        obtain ⟨z, hz, -, hgreen, -⟩ := ha.other hy
        rw [hy, hz, Option.map_some, Option.map_some, hgreen (hreplace d (List.mem_cons_of_mem _ hd)).2.1]
      have hlen : (children.take start ++ [x.green]).length = start + 1 := by
        rw [List.length_append, List.length_take, min_eq_left hstart, List.length_singleton]
      obtain ⟨f', hall, hs'⟩ := ih hs₁ ha.linked (by rw [List.length_append, hlen]; omega : start + 1 ≤ _) hnodup hrest
      refine ⟨f', ?_, ?_⟩
      · rw [RedForest.attachAll, hattach]
        exact hall
      · rw [List.take_left' hlen, List.drop_left' hlen, hsame] at hs'
        simpa [greens, hx] using hs'

end Edits

section Splice

/-- What a splice may put in: distinct handles that the caller holds, each without
a parent or itself a child in the range, and none of them above the node. -/
structure Insertable (f : Forest) (p start stop : Nat) (replace : List Nat) : Prop where
  distinct : replace.Nodup
  owned : ∀ c ∈ replace, 0 < held f c
  apart : ∀ c ∈ replace, ¬ Chain f p c
  free : ∀ c ∈ replace, ∀ x, f.cells c = some x →
    x.parent = none ∨ x.parent = some p ∧ start ≤ x.index ∧ x.index < stop

variable {n start stop : Nat} {replace : List Nat}

/-- The forest in which the range is gone and nothing is put in yet. -/
structure Cleared (f f' : Forest) (p start stop : Nat) : Prop where
  linked : Linked f' none none
  held : ∀ d, held f' d = held f d
  chain : ∀ {a}, Chain f' p a → Chain f p a
  green : ∀ {c x y}, f.cells c = some x → f'.cells c = some y → ¬ Chain f p c → y.green = x.green
  free : ∀ {c x y}, f.cells c = some x → f'.cells c = some y →
    x.parent = none ∨ x.parent = some p ∧ start ≤ x.index ∧ x.index < stop → y.parent = none

theorem clear_total (hs : Stands f p n around px.green.kind px.green.children) (h : Linked f none none)
    (hpx : f.cells p = some px) (hheld : 0 < held f p) (hrange : start ≤ stop ∧ stop ≤ px.green.children.length)
    (hn : n ≤ depth) : ∃ nodes f₁ f₂ f₃, snapshot f p start (stop - start) = some (nodes, f₁) ∧
      detachAll depth f₁ nodes.reverse = some f₂ ∧ releaseAll depth f₂ nodes = some f₃ ∧ Cleared f f₃ p start stop ∧
      Stands f₃ p n around px.green.kind (px.green.children.take start ++ px.green.children.drop stop) := by
  obtain ⟨depth, rfl⟩ := Nat.exists_eq_add_of_le' (hs.around.live.1.trans hn)
  have hcount : start + (stop - start) = stop := by omega
  obtain ⟨nodes, f₁, hsnap, hlen, hplace⟩ := snapshot_total h hpx (hcount.trans_le hrange.2)
  obtain ⟨hl₁, hgrows, hheld₁, hmem, hall⟩ := snapshot_spec h hsnap
  rw [hcount] at hall
  have hheldp : 0 < held f₁ p := by
    rw [hheld₁]
    omega
  have hnodes : ∀ c ∈ nodes.reverse, 0 < held f₁ c ∧
      ∀ x, f₁.cells c = some x → x.parent = none ∨ x.parent = some p := by
    intro c hc
    rw [List.mem_reverse] at hc
    obtain ⟨z, hz, hzp, -⟩ := hmem c hc
    refine ⟨?_, fun x hx => ?_⟩
    · rw [hheld₁]
      have := List.count_pos_iff.mpr hc
      omega
    · obtain rfl := Option.some.inj (hx.symm.trans hz)
      exact .inr hzp
  obtain ⟨f₂, hdetach, hs₂⟩ := (hs.grows hgrows).detachAll hl₁ hheldp (show n ≤ depth + 1 from hn) hplace
  obtain ⟨hl₂, hheld₂, hedit₂, hcells₂⟩ := detachAll_spec hl₁ hnodes hdetach
  simp only [List.mem_reverse] at hcells₂
  have hcounts : ∀ d, nodes.count d ≤ held f₂ d := by
    intro d
    rw [hheld₂, hheld₁]
    omega
  obtain ⟨f₃, hrelease, hsame⟩ : ∃ f₃, releaseAll (depth + 1) f₂ nodes = some f₃ ∧
      ∀ d ∉ nodes, f₃.cells d = f₂.cells d :=
    releaseAll_total hl₂ hcounts fun c hc x hx => (hcells₂ c x hx).elim fun _ hz => hz.2.2 hc
  obtain ⟨hl₃, hsurv, hheld₃⟩ := releaseAll_spec hl₂ hcounts hrelease
  have hedit := hedit₂.trans (Survives.edits hsurv p)
  have hchain : ∀ {a}, Chain f₁ p a → Chain f p a := Grows.chain hgrows h hpx
  refine ⟨nodes, f₁, f₂, f₃, hsnap, hdetach, hrelease, ⟨hl₃, fun d => ?_, fun hch => hchain (hedit.chain hch),
    fun {c x y} hx hy hc => ?_, fun {c x y} hx hy hfree => ?_⟩, ?_⟩
  · have := hheld₃ d
    rw [hheld₂, hheld₁] at this
    omega
  · obtain ⟨x₁, hx₁, -, -, hxg, -⟩ := hgrows.cells hx
    obtain ⟨w, hw, hgreen, -⟩ := hedit.cells hy
    obtain rfl := Option.some.inj (hx₁.symm.trans hw)
    exact (hgreen fun hch => hc (hchain hch)).trans hxg
  · obtain ⟨x₁, hx₁, hxp, hxi, -⟩ := hgrows.cells hx
    obtain ⟨y₂, hy₂, hyp, -⟩ := hsurv.cells hy
    obtain ⟨z, hz, hkeep, hgone⟩ := hcells₂ c y₂ hy₂
    obtain rfl := Option.some.inj (hx₁.symm.trans hz)
    rw [hyp]
    by_cases hc : c ∈ nodes
    · exact hgone hc
    · rw [hkeep hc, hxp]
      rcases hfree with hroot | ⟨hp, hle, hlt⟩
      · exact hroot
      · exact absurd (mem_of_position hl₁ hall hx₁ (hxp.trans hp) (by omega) (by omega)) hc
  · rw [hlen, hcount] at hs₂
    refine hs₂.congr fun d x hd hx => ⟨x, ?_, rfl, rfl, rfl⟩
    have hout : d ∉ nodes := by
      intro hd'
      obtain ⟨z, hz, hzp, -⟩ := hmem d hd'
      exact hl₁.not_chain_child ⟨z, hz, hzp⟩ (hedit₂.chain hd)
    rw [hsame d hout, hx]

/-- A splice succeeds and gives the node its new children, the tree around it
staying as it is. -/
theorem splice_total (h : Linked f none none) (hpx : f.cells p = some px) (hnode : px.green.isToken = false)
    (hheld : 0 < held f p) (hrange : start ≤ stop ∧ stop ≤ px.green.children.length)
    (hins : Insertable f p start stop replace) (ha : Around f p n around) (hn : n ≤ depth) :
    ∃ f', syntaxNodeSpliceChildren depth f p start stop replace = some f' ∧ Linked f' none none ∧
      Stands f' p n around px.green.kind
        (px.green.children.take start ++ greens f replace ++ px.green.children.drop stop) := by
  obtain ⟨nodes, f₁, f₂, f₃, hsnap, hdetach, hrelease, hclear, hs⟩ :=
    clear_total ⟨ha, px, hpx, hnode, rfl, rfl⟩ h hpx hheld hrange hn
  have hready : ∀ c ∈ replace, 0 < held f₃ c ∧ ¬ Chain f₃ p c ∧ ∀ y, f₃.cells c = some y → y.parent = none := by
    intro c hc
    obtain ⟨x, hx⟩ := live_of_held (hins.owned c hc)
    refine ⟨by rw [hclear.held]; exact hins.owned c hc, fun hch => hins.apart c hc (hclear.chain hch), fun y hy => ?_⟩
    exact hclear.free hx hy (hins.free c hc x hx)
  have hgreens : greens f₃ replace = greens f replace := by
    refine List.filterMap_congr fun c hc => ?_
    obtain ⟨x, hx⟩ := live_of_held (hins.owned c hc)
    obtain ⟨y, hy⟩ := live_of_held (hready c hc).1
    rw [hx, hy, Option.map_some, Option.map_some, hclear.green hx hy (hins.apart c hc)]
  have hlen : (px.green.children.take start).length = start := by
    rw [List.length_take]
    omega
  obtain ⟨f', hattach, hs'⟩ :=
    hs.attachAll hclear.linked hn (by rw [List.length_append]; omega : start ≤ _) hins.distinct hready
  rw [List.take_left' hlen, List.drop_left' hlen, hgreens] at hs'
  refine ⟨f', ?_, (attachAll_spec hclear.linked (fun c hc => (hready c hc).2.1) hattach).1, hs'⟩
  rw [syntaxNodeSpliceChildren, hpx]
  simp only
  rw [if_pos hrange, hsnap, Option.bind_some]
  simp only [hdetach, Option.bind_some, hrelease, hattach]

end Splice

section Runs

/-- The edits that leave every handle on the element that its parent lists: the
handles of a replaced node's children fit the new node, a token is replaced only
by itself, and nothing goes below itself. -/
def Fits (f : Forest) : Op → Prop
  | .splice p _ _ replace => ∀ c ∈ replace, ¬ Chain f p c
  | .replaceNode c g => ∀ d y, f.cells d = some y → y.parent = some c → g.children[y.index]? = some y.green
  | .replaceToken c g => ∀ x, f.cells c = some x → g = x.green
  | _ => True

theorem fits_linked {op : Op} (h : Linked f none none) (hallowed : Allowed f op) (hfits : Fits f op)
    (hr : apply depth f op = some f') : Linked f' none none := by
  cases op with
  | root addr kind children =>
      cases hr
      exact (newRoot_spec h (g := .node addr kind children) rfl).1
  | clone n =>
      obtain ⟨⟨d, f₁⟩, hclone, rfl⟩ := Option.map_eq_some_iff.mp hr
      exact (clone_spec h n hclone).1
  | child parent i =>
      obtain ⟨⟨d, f₁⟩, hchild, rfl⟩ := Option.map_eq_some_iff.mp hr
      exact (childOrToken_spec h hchild).1
  | retain c =>
      cases hr
      exact (retain_spec h c).1
  | release c => exact (release_spec h hallowed hr).1
  | detach c =>
      change detachCommon depth f c = some f' at hr
      cases hx : f.cells c with
      | none => simp [detachCommon, hx] at hr
      | some x =>
          cases hp : x.parent with
          | none =>
              simp only [detachCommon, hx, hp] at hr
              cases hr
              exact h
          | some p => exact (detach_spec h hx hp hr).linked
  | splice p start stop replace =>
      obtain ⟨_, _, hs⟩ := splice_phases h hfits hr
      exact hs.linked
  | replaceNode c g =>
      obtain ⟨⟨up, f₁⟩, hreplace, rfl⟩ := Option.map_eq_some_iff.mp hr
      exact (replaceNode_spec h hfits hreplace).1
  | replaceToken c g =>
      obtain ⟨⟨up, f₁⟩, hreplace, rfl⟩ := Option.map_eq_some_iff.mp hr
      cases hx : f.cells c with
      | none => simp [syntaxTokenReplaceWith, hx] at hreplace
      | some x =>
          rw [hfits x hx] at hreplace
          exact (replaceToken_spec h hx hreplace).1

theorem fits_run_linked (h : Run Fits f) : Linked f none none := by
  induction h with
  | start next nextGreen => exact start_linked next nextGreen
  | step depth _ hallowed hfits hr ih => exact fits_linked ih hallowed hfits hr

/-- The root above a handle holds the tree that the immutable handle is in. -/
theorem Mirrors.rootGreen {n : Nat} (ha : Around f c n around) (m : Fixed g) (hm : Mirrors f c m) (hn : n ≤ depth) :
    rootGreen depth f c = some (rootOf m) := by
  induction m generalizing c n around depth with
  | root addr kind children =>
      obtain ⟨x, hx, hp, hg⟩ := hm
      obtain ⟨depth, rfl⟩ := Nat.exists_eq_add_of_le' (ha.live.1.trans hn)
      simp [RedForest.rootGreen, hx, hp, hg, rootOf]
  | child up index green held ih =>
      obtain ⟨x, p, hx, hp, -, -, hup⟩ := hm
      cases ha with
      | root live top =>
          obtain rfl := Option.some.inj (hx.symm.trans live)
          rw [hp] at top
          cases top
      | child live below _ _ up' =>
          obtain rfl := parent_unique ⟨_, live, below⟩ ⟨_, hx, hp⟩
          obtain ⟨depth, rfl⟩ := Nat.exists_eq_add_of_le' (le_trans (Nat.le_add_left 1 _) hn)
          simp only [RedForest.rootGreen, hx, Option.bind_some, hp, rootOf]
          exact ih up' hup (by omega)

/-- After any run of edits that fit, a splice of any node gives the tree that the
persistent operations give for the same edit, and a node replaced by itself gives
the tree there was. -/
theorem splice_persistent (run : Run Fits f) (live : f.cells p = some px) (node : px.green.isToken = false)
    (owned : 0 < held f p) : ∃ m : Fixed px.green, Mirrors f p m ∧
      (∀ start stop replace, start ≤ stop → stop ≤ px.green.children.length → Insertable f p start stop replace →
        ∃ root, persistentSplice m start stop ((greens f replace).map stored) = some root ∧
          root = putAt (placeOf m) (greenNodeAlloc px.green.kind ((px.green.children.take start ++ greens f replace ++
            px.green.children.drop stop).map stored)) (stored (rootOf m)) ∧
          ∃ enough, ∀ depth, enough ≤ depth → ∃ f' r, syntaxNodeSpliceChildren depth f p start stop replace = some f' ∧
            rootGreen depth f' p = some r ∧ stored r = root) ∧
      replaceWith m (stored px.green) = some (stored (rootOf m)) ∧
      ∃ enough, ∀ depth, enough ≤ depth → ∃ f' r, syntaxNodeReplaceWith depth f p px.green = some (r, f') ∧
        stored r = stored (rootOf m) := by
  have hl := fits_run_linked run
  obtain ⟨n, around, ha⟩ := exists_around hl live
  obtain ⟨m, hm⟩ := exists_mirror hl live node
  have htop : around (stored px.green) = stored (rootOf m) := by
    obtain ⟨r, hr, hstored⟩ := ha.rootGreen hl live le_rfl
    rw [hm.rootGreen ha m le_rfl] at hr
    rw [← hstored, Option.some.inj hr]
  refine ⟨m, hm, fun start stop replace hle hlen hins => ?_, ?_, n, fun depth hn => ?_⟩
  · have hput := PersistentEdits.bubbleUp_putAt m (greenNodeAlloc px.green.kind
      ((px.green.children.take start ++ greens f replace ++ px.green.children.drop stop).map stored))
    refine ⟨_, ?_, rfl, n, fun depth hn => ?_⟩
    · rw [persistentSplice, PersistentEdits.greenNodeSpliceChildren, PersistentEdits.stored_elements,
        if_pos ⟨hle, by rwa [List.length_map]⟩, Option.bind_some, replaceWith, if_pos (by simp), ← hput]
      simp only [PersistentEdits.stored_kind, List.map_append, List.map_take, List.map_drop]
    · obtain ⟨f', hsplice, hl', hs⟩ := splice_total hl live node owned ⟨hle, hlen⟩ hins ha hn
      obtain ⟨py, hpy, hnode, hkind, hchildren⟩ := hs.node
      obtain ⟨r, hr, hstored⟩ := hs.around.rootGreen hl' hpy hn
      refine ⟨f', r, hsplice, hr, ?_⟩
      rw [hstored, ← stored_alloc hnode, hkind, hchildren]
      exact Option.some.inj ((ha.bubbleUp m hm _).symm.trans hput)
  · rw [replaceWith, if_pos (by simp), ha.bubbleUp m hm, htop]
  · obtain ⟨f', hspine, ha', py, hpy, hpg⟩ := ha.respine hn px.green
    have hl' : Linked f' none none :=
      (refit_spec hl (fun d y hy hyp => hl.green hy hyp live (by simp) (by simp)) hspine).1
    obtain ⟨r, hr, hstored⟩ := ha'.rootGreen hl' hpy hn
    refine ⟨f', r, ?_, by rw [hstored, hpg, htop]⟩
    rw [syntaxNodeReplaceWith, live]
    simp only [if_true]
    rw [hspine, Option.bind_some, hr, Option.map_some]

/-- The only declaration of a file spliced away. -/
theorem splice_persistent_file : ∃ f px, Run Fits f ∧ f.cells 0 = some px ∧ ∃ m : Fixed px.green, Mirrors f 0 m ∧
    ∃ root, persistentSplice m 0 1 [] = some root ∧ ∃ depth f' r,
      syntaxNodeSpliceChildren depth f 0 0 1 [] = some f' ∧ rootGreen depth f' 0 = some r ∧ stored r = root := by
  have hroot : Run Fits _ := @Run.step _ _ _ (.root 0 .sourceFile [.node 1 .bindDecl [.token 2 ⟨.ident, [97]⟩]]) 0
    (.start 0 10) trivial trivial rfl
  have hchild : Run Fits _ := @Run.step _ _ _ (.child 0 0) 0 hroot trivial trivial rfl
  obtain ⟨m, hm, hsplice, -⟩ := splice_persistent (p := 0) hchild rfl rfl (by decide)
  obtain ⟨root, hroot', -, enough, hall⟩ := hsplice 0 1 [] (by decide) (by decide)
    ⟨.nil, by simp, by simp, by simp⟩
  obtain ⟨f', r, hr⟩ := hall enough le_rfl
  exact ⟨_, _, hchild, rfl, m, hm, root, hroot', enough, f', r, hr⟩

/-- With a live handle to a token that was replaced, no splice of its place
succeeds. -/
theorem token_respliced : ∃ f px, Run (fun _ _ => True) f ∧ f.cells 0 = some px ∧ px.green.isToken = false ∧
    0 < held f 0 ∧ px.green.children.length = 1 ∧ Insertable f 0 0 1 [] ∧
    (∃ (m : Fixed px.green) (root : Stored), Mirrors f 0 m ∧ persistentSplice m 0 1 [] = some root) ∧
    ∀ depth, syntaxNodeSpliceChildren depth f 0 0 1 [] = none := by
  have hroot : Run (fun _ _ => True) _ := @Run.step _ _ _ (.root 0 .sourceFile [.token 1 ⟨.ident, [97]⟩]) 0
    (.start 0 10) trivial trivial rfl
  have hchild : Run (fun _ _ => True) _ := @Run.step _ _ _ (.child 0 0) 0 hroot trivial trivial rfl
  have hreplace : Run (fun _ _ => True) _ :=
    @Run.step _ _ _ (.replaceToken 1 (.token 2 ⟨.ident, [98]⟩)) 2 hchild rfl trivial rfl
  exact ⟨_, _, hreplace, rfl, rfl, by decide, rfl, ⟨.nil, by simp, by simp, by simp⟩,
    ⟨.root _ _ _, _, ⟨_, rfl, rfl, rfl⟩, rfl⟩, fun _ => rfl⟩

end Runs

end Ore.MutableEdits
