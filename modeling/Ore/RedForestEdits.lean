import Ore.RedForestLinks

namespace Ore.RedForestEdits

open RedForest RedForestLinks Relation

variable {f f' f₁ f₂ : Forest} {loose orphan : Option Nat} {c d p cur : Nat} {x y px : Cell} {g : Green}

section Respine

def regreen (g : Green) (x : Cell) : Cell := { x with green := g }

/-- Only the green elements of the handles in `painted` change. -/
structure Regreened (f f' : Forest) (painted : Nat → Prop) : Prop where
  next : f'.next = f.next
  cells : ∃ paint : Nat → Green → Green, (∀ c, f'.cells c = (f.cells c).map fun x => regreen (paint c x.green) x) ∧
    ∀ c, ¬ painted c → paint c = id

variable {painted painted' : Nat → Prop}

theorem Regreened.of_eq (hcells : f'.cells = f.cells) (hnext : f'.next = f.next) : Regreened f f' painted where
  next := hnext
  cells := ⟨fun _ => id, fun c => by simp [hcells, regreen], fun _ _ => rfl⟩

theorem Regreened.modify (f : Forest) (h : painted c) (g : Green) : Regreened f (f.modify c (regreen g)) painted where
  next := rfl
  cells := by
    refine ⟨fun d => if d = c then fun _ => g else id, fun d => ?_, fun d hd => ?_⟩
    · rw [modify_cells]
      split_ifs with hdc
      · simp only [hdc, if_true]
      · simp [hdc, regreen]
    · have hdc : d ≠ c := by
        rintro rfl
        exact hd h
      exact if_neg hdc

theorem Regreened.trans (h : Regreened f f₁ painted) (h' : Regreened f₁ f₂ painted) : Regreened f f₂ painted where
  next := h'.next.trans h.next
  cells := by
    obtain ⟨paint, hc, hp⟩ := h.cells
    obtain ⟨paint', hc', hp'⟩ := h'.cells
    refine ⟨fun c => paint' c ∘ paint c, fun c => ?_, fun c hn => ?_⟩
    · rw [hc', hc, Option.map_map]
      rfl
    · simp only [hp c hn, hp' c hn]
      rfl

theorem Regreened.weaken (h : Regreened f f' painted) (hsub : ∀ c, painted c → painted' c) :
    Regreened f f' painted' where
  next := h.next
  cells := by
    obtain ⟨paint, hc, hp⟩ := h.cells
    exact ⟨paint, hc, fun c hn => hp c fun h => hn (hsub c h)⟩

theorem Regreened.at (h : Regreened f f' painted) (hx : f.cells c = some x) :
    ∃ g, f'.cells c = some (regreen g x) ∧ (¬ painted c → g = x.green) := by
  obtain ⟨paint, hc, hp⟩ := h.cells
  exact ⟨paint c x.green, by rw [hc, hx]; rfl, fun hn => by rw [hp c hn]; rfl⟩

theorem Regreened.of (h : Regreened f f' painted) (hy : f'.cells c = some y) :
    ∃ x, f.cells c = some x ∧ y = regreen y.green x ∧ (¬ painted c → y.green = x.green) := by
  obtain ⟨paint, hc, hp⟩ := h.cells
  rw [hc] at hy
  obtain ⟨x, hx, rfl⟩ := Option.map_eq_some_iff.mp hy
  exact ⟨x, hx, rfl, fun hn => by simp [regreen, hp c hn]⟩

theorem Regreened.parent_iff (h : Regreened f f' painted) (c p : Nat) : Parent f' c p ↔ Parent f c p := by
  constructor
  · rintro ⟨y, hy, hp⟩
    obtain ⟨x, hx, hyx, -⟩ := h.of hy
    rw [hyx] at hp
    exact ⟨x, hx, hp⟩
  · rintro ⟨x, hx, hp⟩
    obtain ⟨g, hg, -⟩ := h.at hx
    exact ⟨_, hg, hp⟩

theorem Regreened.chain_iff (h : Regreened f f' painted) (c a : Nat) : Chain f' c a ↔ Chain f c a := by
  have heq : Parent f' = Parent f := by
    funext c p
    exact propext (h.parent_iff c p)
  rw [Chain, Chain, heq]

theorem Regreened.held (h : Regreened f f' painted) (c : Nat) : held f' c = held f c := by
  obtain ⟨paint, hc, -⟩ := h.cells
  cases hx : f.cells c with
  | none => rw [held_none hx, held_none (by rw [hc, hx]; rfl)]
  | some x => rw [held_eq hx, held_eq (by rw [hc, hx]; rfl)]; rfl

/-- One turn of the walk up: the node takes its element, and at a root the walk
ends. -/
theorem respine_turn {depth : Nat} (h : respine (depth + 1) f cur g = some f') :
    ∃ x, f.cells cur = some x ∧ ((x.parent = none ∧ f' = f.modify cur (regreen g)) ∨
      ∃ p px f₁, x.parent = some p ∧ f₁.cells = (f.modify cur (regreen g)).cells ∧ f₁.next = f.next ∧
        f₁.cells p = some px ∧ x.index < px.green.children.length ∧
        respine depth f₁ p (.node f.nextGreen px.green.kind (px.green.children.set x.index g)) = some f') := by
  rw [respine] at h
  cases hx : f.cells cur with
  | none => simp [hx] at h
  | some x =>
      refine ⟨x, rfl, ?_⟩
      simp only [hx] at h
      cases hp : x.parent with
      | none =>
          simp only [hp] at h
          exact .inl ⟨rfl, (Option.some.inj h).symm⟩
      | some p =>
          simp only [hp] at h
          cases hpx : (f.modify cur (regreen g)).cells p with
          | none =>
              rw [show (fun x : Cell => { x with green := g }) = regreen g from rfl, hpx] at h
              cases h
          | some px =>
              rw [show (fun x : Cell => { x with green := g }) = regreen g from rfl, hpx] at h
              simp only [greenNodeReplaceChild] at h
              split_ifs at h with hidx
              · exact .inr ⟨p, px, { f.modify cur (regreen g) with nextGreen := f.nextGreen + 1 }, rfl, rfl, rfl,
                  hpx, hidx, h⟩
              · cases h

/-- Respining paints the handles from `cur` up to the root. -/
theorem respine_regreened {depth : Nat} (h : respine depth f cur g = some f') :
    Regreened f f' (Chain f cur) := by
  induction depth generalizing f cur g with
  | zero => cases h
  | succ depth ih =>
      obtain ⟨x, hx, ⟨-, rfl⟩ | ⟨p, px, f₁, hp, hcells, hnext, -, -, hr⟩⟩ := respine_turn h
      · exact .modify f .refl g
      · have hstep : Regreened f (f.modify cur (regreen g)) (Chain f cur) := .modify f .refl g
        have hfirst : Regreened f f₁ (Chain f cur) := hstep.trans (.of_eq hcells hnext)
        refine hfirst.trans ((ih hr).weaken fun a ha => ?_)
        rw [hfirst.chain_iff] at ha
        exact .head ⟨x, hx, hp⟩ ha

/-- A handle on a node stays one. -/
theorem respine_nodes {depth : Nat} (h : respine depth f cur g = some f') (hg : g.isToken = false)
    (hx : f.cells c = some x) (hn : x.green.isToken = false) (hy : f'.cells c = some y) : y.green.isToken = false := by
  have hmodify : ∃ z, (f.modify cur (regreen g)).cells c = some z ∧ z.green.isToken = false := by
    by_cases hc : c = cur
    · subst hc
      exact ⟨_, modify_self hx _, hg⟩
    · exact ⟨x, by rw [modify_of_ne hc, hx], hn⟩
  obtain ⟨z, hz, hzn⟩ := hmodify
  induction depth generalizing f cur g x z with
  | zero => cases h
  | succ depth ih =>
      obtain ⟨_, -, ⟨-, rfl⟩ | ⟨p, px, f₁, -, hcells, -, -, -, hr⟩⟩ := respine_turn h
      · rw [hz] at hy
        cases hy
        exact hzn
      · rw [← hcells] at hz
        by_cases hc : c = p
        · subst hc
          exact ih hr rfl hz hzn _ (modify_self hz _) rfl
        · exact ih hr rfl hz hzn z (by rw [modify_of_ne hc, hz]) hzn

/-- The green elements of a handle's ring and of its parent agree again after the
walk. -/
theorem respine_linked {depth : Nat} (h : Linked (f.modify cur (regreen g)) (some cur) orphan)
    (havoid : ∀ a, Chain f cur a → some a ≠ orphan) (hr : respine depth f cur g = some f') :
    Linked f' none orphan := by
  induction depth generalizing f cur g with
  | zero => cases hr
  | succ depth ih =>
      have hstep : Regreened f (f.modify cur (regreen g)) (Chain f cur) := .modify f .refl g
      obtain ⟨x, hx, ⟨hp, rfl⟩ | ⟨p, px, f₁, hp, hcells, hnext, hpx, hidx, hr⟩⟩ := respine_turn hr
      · refine h.map (k := fun _ => id) (fun d => by simp) le_rfl (fun _ _ => ⟨rfl, rfl, rfl, rfl⟩)
          (fun d y hy => h.counted hy) fun d y q qx hy hq hqx _ ho => ?_
        by_cases hd : d = cur
        · subst hd
          rw [modify_self hx] at hy
          cases hy
          rw [show (regreen g x).parent = x.parent from rfl, hp] at hq
          cases hq
        · exact h.green hy hq hqx (by simpa using hd) ho
      · have hfirst : Regreened f f₁ (Chain f cur) := hstep.trans (.of_eq hcells hnext)
        have hcur : f₁.cells cur = some (regreen g x) := by rw [hcells, modify_self hx]
        have hl : Linked f₁ (some cur) orphan :=
          h.map (k := fun _ => id) (fun d => by simp [hcells]) (le_of_eq hnext.symm) (fun _ _ => ⟨rfl, rfl, rfl, rfl⟩)
            (fun d y hy => h.counted hy) fun d y q qx hy hq hqx hl ho => h.green hy hq hqx hl ho
        refine ih ?_ ?_ hr
        · refine hl.map (modify_map f₁ p _) le_rfl (fun d y => ?_) (fun d y hy => ?_)
            fun d y q qx hy hq hqx hdp ho => ?_
          · split_ifs <;> exact ⟨rfl, rfl, rfl, rfl⟩
          · split_ifs <;> exact hl.counted hy
          · rw [if_neg (fun h => hdp (congrArg some h))]
            by_cases hqp : q = p
            · subst hqp
              obtain rfl := Option.some.inj (hpx.symm.trans hqx)
              rw [if_pos rfl]
              by_cases hdc : d = cur
              · subst hdc
                obtain rfl := Option.some.inj (hcur.symm.trans hy)
                exact List.getElem?_set_self hidx
              · obtain ⟨_, hpx', hdmem⟩ := hl.live hy hq ho
                obtain rfl := Option.some.inj (hpx.symm.trans hpx')
                obtain ⟨_, hpx', hcmem⟩ := hl.live hcur hp (havoid cur .refl)
                obtain rfl := Option.some.inj (hpx.symm.trans hpx')
                have hne := hl.index_ne hpx hcmem hdmem (Ne.symm hdc) hcur hy
                have hgreen := hl.green hy hq hpx (by simpa using hdc) ho
                exact (List.getElem?_set_ne hne).trans hgreen
            · rw [if_neg hqp]
              have hdc : d ≠ cur := by
                rintro rfl
                obtain rfl := Option.some.inj (hcur.symm.trans hy)
                exact hqp (Option.some.inj (hq.symm.trans hp))
              exact hl.green hy hq hqx (by simpa using hdc) ho
        · intro a ha
          rw [hfirst.chain_iff] at ha
          exact havoid a (.head ⟨x, hx, hp⟩ ha)

end Respine

section Detach

/-- The place of a sibling once the child at `i` is gone. -/
def closeGap (i k : Nat) : Nat := if i + 1 ≤ k then k - 1 else k

/-- The handle `c` leaves the ring and the green element of its parent. -/
structure Unhooked (f f' : Forest) (c p i : Nat) (px : Cell) (up : Green) : Prop where
  next : f'.next = f.next
  parent : f'.cells p = some { px with first := px.first.erase c, green := up }
  sibling : ∀ {e z}, e ∈ px.first → f.cells e = some z →
    f'.cells e = some { z with key := closeGap i z.key, index := closeGap i z.key }
  other : ∀ {e}, e ≠ p → e ∉ px.first → f'.cells e = f.cells e

theorem closeGap_lt {i a b : Nat} (h : a < b) (ha : a ≠ i) : closeGap i a < closeGap i b := by
  unfold closeGap
  split_ifs <;> omega

theorem closeGap_getElem {l : List Green} {i k : Nat} (hk : k ≠ i) :
    (l.take i ++ [] ++ l.drop (i + 1))[closeGap i k]? = l[k]? := by
  have herase : l.take i ++ [] ++ l.drop (i + 1) = l.eraseIdx i := by
    rw [List.append_nil, List.eraseIdx_eq_take_drop_succ]
  rw [herase, List.getElem?_eraseIdx]
  unfold closeGap
  split_ifs with h₁ h₂ h₂
  · omega
  · congr 1
    omega
  · rfl
  · omega

section Unhooked

variable {i : Nat} {up : Green}

theorem Unhooked.back (hu : Unhooked f f' c p i px up) (h : Linked f none none) (hpx : f.cells p = some px) {e : Nat}
    (hy : f'.cells e = some y) : ∃ z, f.cells e = some z ∧ y.parent = z.parent ∧ y.key = y.index ∧
      (e = p ∧ y = { px with first := px.first.erase c, green := up } ∨
        e ≠ p ∧ y.first = z.first ∧ y.green = z.green ∧ y.refcount = z.refcount) := by
  by_cases hep : e = p
  · subst hep
    rw [hu.parent] at hy
    cases hy
    have hsynced := h.synced hpx
    exact ⟨px, hpx, rfl, hsynced, .inl ⟨rfl, rfl⟩⟩
  · by_cases hmem : e ∈ px.first
    · obtain ⟨z, hz, -⟩ := h.ring hpx hmem
      rw [hu.sibling hmem hz] at hy
      cases hy
      exact ⟨z, hz, rfl, rfl, .inr ⟨hep, rfl, rfl, rfl⟩⟩
    · rw [hu.other hep hmem] at hy
      exact ⟨y, hy, rfl, h.synced hy, .inr ⟨hep, rfl, rfl, rfl⟩⟩

theorem Unhooked.forth (hu : Unhooked f f' c p i px up) {e : Nat} (hy : f.cells e = some y) (hep : e ≠ p) :
    ∃ z, f'.cells e = some z ∧ z.parent = y.parent ∧ z.first = y.first ∧ z.green = y.green := by
  by_cases hmem : e ∈ px.first
  · exact ⟨_, hu.sibling hmem hy, rfl, rfl, rfl⟩
  · exact ⟨y, by rw [hu.other hep hmem, hy], rfl, rfl, rfl⟩

theorem Unhooked.place_other (hu : Unhooked f f' c p i px up) (hpx : f.cells p = some px) {e : Nat}
    (hmem : e ∉ px.first) : f'.keyOf e = f.keyOf e := by
  by_cases hep : e = p
  · subst hep
    rw [keyOf_eq hu.parent, keyOf_eq hpx]
  · rw [Forest.keyOf, Forest.keyOf, hu.other hep hmem]

theorem Unhooked.place_sibling (hu : Unhooked f f' c p i px up) (h : Linked f none none) (hpx : f.cells p = some px)
    {e : Nat} (hmem : e ∈ px.first) : f'.keyOf e = closeGap i (f.keyOf e) := by
  obtain ⟨z, hz, -⟩ := h.ring hpx hmem
  rw [keyOf_eq (hu.sibling hmem hz), keyOf_eq hz]

theorem Unhooked.linked (hu : Unhooked f f' c p i px up) (h : Linked f none none)
    (hx : f.cells c = some x) (hp : x.parent = some p) (hpx : f.cells p = some px) (hi : x.index = i)
    (hup : up.children = px.green.children.take i ++ [] ++ px.green.children.drop (i + 1)) :
    Linked f' (some p) (some c) := by
  have hcmem : c ∈ px.first := (h.mem_ring_iff hx hp hpx).mpr rfl
  have hplace : ∀ e ∈ px.first, e ≠ c → f.keyOf e ≠ i := by
    intro e hmem hne
    obtain ⟨z, hz, -⟩ := h.ring hpx hmem
    rw [keyOf_eq hz, h.synced hz, ← hi]
    exact h.index_ne hpx hmem hcmem hne hz hx
  refine ⟨?_, ?_, ?_, ?_, ?_, ?_, ?_⟩
  · intro e y q hy hq he
    obtain ⟨z, hz, hpar, -⟩ := hu.back h hpx hy
    rw [hpar] at hq
    obtain ⟨qx, hqx, hmem⟩ := h.live hz hq (by simp)
    by_cases hqp : q = p
    · subst hqp
      obtain rfl := Option.some.inj (hpx.symm.trans hqx)
      exact ⟨_, hu.parent, (List.mem_erase_of_ne (by simpa using he)).mpr hmem⟩
    · obtain ⟨w, hw, -, hfirst, -⟩ := hu.forth hqx hqp
      exact ⟨w, hw, by rw [hfirst]; exact hmem⟩
  · intro q y e hy hmem
    have hfirst : ∃ z, f.cells q = some z ∧ e ∈ z.first := by
      obtain ⟨z, hz, -, -, ⟨rfl, rfl⟩ | ⟨-, hfirst, -⟩⟩ := hu.back h hpx hy
      · exact ⟨px, hpx, List.mem_of_mem_erase hmem⟩
      · exact ⟨z, hz, by rw [← hfirst]; exact hmem⟩
    obtain ⟨z, hz, hmem⟩ := hfirst
    obtain ⟨w, hw, hwp⟩ := h.ring hz hmem
    by_cases hep : e = p
    · subst hep
      obtain rfl := Option.some.inj (hpx.symm.trans hw)
      exact ⟨_, hu.parent, hwp⟩
    · obtain ⟨v, hv, hpar, -⟩ := hu.forth hw hep
      exact ⟨v, hv, by rw [hpar, hwp]⟩
  · intro q y hy
    obtain ⟨z, hz, -, -, ⟨rfl, rfl⟩ | ⟨hqp, hfirst, -⟩⟩ := hu.back h hpx hy
    · refine ((h.sorted hpx).sublist List.erase_sublist).imp_of_mem fun ha hb hlt => ?_
      have hmem : ∀ {a}, a ∈ px.first.erase c → a ∈ px.first := List.mem_of_mem_erase
      have hne : ∀ {a}, a ∈ px.first.erase c → a ≠ c := fun ha => ((h.nodup hpx).mem_erase_iff.mp ha).1
      rw [hu.place_sibling h hpx (hmem ha), hu.place_sibling h hpx (hmem hb)]
      exact closeGap_lt hlt (hplace _ (hmem ha) (hne ha))
    · rw [hfirst]
      refine (h.sorted hz).imp_of_mem fun ha hb hlt => ?_
      rwa [hu.place_other hpx (h.rings_disjoint hz hpx hqp ha), hu.place_other hpx (h.rings_disjoint hz hpx hqp hb)]
  · intro e y hy
    obtain ⟨z, -, -, hsynced, -⟩ := hu.back h hpx hy
    exact hsynced
  · intro e y hy
    obtain ⟨z, hz, -, -, ⟨rfl, rfl⟩ | ⟨-, hfirst, -, hcount⟩⟩ := hu.back h hpx hy
    · exact ⟨List.length_erase_le.trans (h.counted hpx).1, (h.counted hpx).2⟩
    · rw [hfirst, hcount]
      exact h.counted hz
  · intro e y q qy hy hq hqy hep hec
    obtain ⟨z, hz, hpar, hsynced, ⟨rfl, -⟩ | ⟨-, -, hgreen, -⟩⟩ := hu.back h hpx hy
    · exact absurd rfl hep
    rw [hpar] at hq
    have hmem : e ∈ px.first ↔ q = p := h.mem_ring_iff hz hq hpx
    rw [← hsynced, ← keyOf_eq hy, hgreen]
    by_cases hqp : q = p
    · subst hqp
      rw [hu.parent] at hqy
      cases hqy
      have hold := h.green hz hq hpx (by simp) (by simp)
      rw [← h.synced hz, ← keyOf_eq hz] at hold
      rw [hu.place_sibling h hpx (hmem.mpr rfl), hup,
        closeGap_getElem (hplace e (hmem.mpr rfl) (by simpa using hec))]
      exact hold
    · obtain ⟨w, hw, -, -, ⟨rfl, -⟩ | ⟨-, -, hwg, -⟩⟩ := hu.back h hpx hqy
      · exact absurd rfl hqp
      rw [hwg, hu.place_other hpx (fun he => hqp (hmem.mp he)), keyOf_eq hz, h.synced hz]
      exact h.green hz hq hw (by simp) (by simp)
  · intro e he
    rw [hu.next] at he
    obtain ⟨hep, hmem⟩ := h.fresh_outside he hpx
    rw [hu.other hep hmem, h.fresh he]

end Unhooked

theorem held_modify {change : Cell → Cell} (c : Nat)
    (h : ∀ x, (change x).refcount = x.refcount ∧ (change x).first = x.first) (e : Nat) :
    held (f.modify c change) e = held f e := by
  rw [held, held, modify_cells]
  split_ifs
  · cases f.cells e <;> simp [h]
  · rfl

theorem Linked.forget (h : Linked f none (some c)) (hx : f.cells c = some x) (hp : x.parent = some p)
    (hpx : f.cells p = some px) (hgone : c ∉ px.first) :
    Linked (f.modify c fun x => { x with parent := none }) none none := by
  have hout : ∀ {q qx}, f.cells q = some qx → c ∉ qx.first := by
    intro q qx hq hc
    obtain ⟨y, hy, hyq⟩ := h.ring hq hc
    obtain rfl := Option.some.inj (hx.symm.trans hy)
    obtain rfl := Option.some.inj (hp.symm.trans hyq)
    obtain rfl := Option.some.inj (hpx.symm.trans hq)
    exact hgone hc
  have hback : ∀ {e y}, (f.modify c fun x => { x with parent := none }).cells e = some y → ∃ z, f.cells e = some z ∧
      y.first = z.first ∧ y.green = z.green ∧ y.index = z.index ∧ y.key = z.key ∧ y.refcount = z.refcount ∧
      (e = c ∧ y.parent = none ∨ e ≠ c ∧ y.parent = z.parent) := by
    intro e y hy
    rw [modify_cells] at hy
    split_ifs at hy with hec
    · obtain ⟨z, hz, rfl⟩ := Option.map_eq_some_iff.mp hy
      exact ⟨z, hz, rfl, rfl, rfl, rfl, rfl, .inl ⟨hec, rfl⟩⟩
    · exact ⟨y, hy, rfl, rfl, rfl, rfl, rfl, .inr ⟨hec, rfl⟩⟩
  have hforth : ∀ {e z}, f.cells e = some z → ∃ y, (f.modify c fun x => { x with parent := none }).cells e = some y ∧
      y.first = z.first ∧ y.key = z.key ∧ (e ≠ c → y.parent = z.parent) := by
    intro e z hz
    by_cases hec : e = c
    · subst hec
      exact ⟨_, modify_self hz _, rfl, rfl, fun hne => absurd rfl hne⟩
    · exact ⟨z, by rw [modify_of_ne hec, hz], rfl, rfl, fun _ => rfl⟩
  have hkey : ∀ e, (f.modify c fun x => { x with parent := none }).keyOf e = f.keyOf e := by
    intro e
    cases hz : f.cells e with
    | none => simp [Forest.keyOf, modify_cells, hz]
    | some z =>
        obtain ⟨y, hy, -, hk, -⟩ := hforth hz
        rw [keyOf_eq hy, keyOf_eq hz, hk]
  refine ⟨?_, ?_, ?_, ?_, ?_, ?_, ?_⟩
  · intro e y q hy hq _
    obtain ⟨z, hz, -, -, -, -, -, ⟨-, hnone⟩ | ⟨hec, hpar⟩⟩ := hback hy
    · rw [hnone] at hq
      cases hq
    · obtain ⟨qx, hqx, hmem⟩ := h.live hz (by rw [← hpar, hq]) (by simpa using hec)
      obtain ⟨w, hw, hfirst, -⟩ := hforth hqx
      exact ⟨w, hw, by rw [hfirst]; exact hmem⟩
  · intro q y e hy hmem
    obtain ⟨z, hz, hfirst, -⟩ := hback hy
    rw [hfirst] at hmem
    have hec : e ≠ c := by
      rintro rfl
      exact hout hz hmem
    obtain ⟨w, hw, hwp⟩ := h.ring hz hmem
    obtain ⟨v, hv, -, -, hpar⟩ := hforth hw
    exact ⟨v, hv, by rw [hpar hec, hwp]⟩
  · intro q y hy
    obtain ⟨z, hz, hfirst, -⟩ := hback hy
    rw [hfirst]
    simpa only [hkey] using h.sorted hz
  · intro e y hy
    obtain ⟨z, hz, -, -, hindex, hk, -⟩ := hback hy
    rw [hindex, hk, h.synced hz]
  · intro e y hy
    obtain ⟨z, hz, hfirst, -, -, -, hcount, -⟩ := hback hy
    rw [hfirst, hcount]
    exact h.counted hz
  · intro e y q qy hy hq hqy hl _
    obtain ⟨z, hz, -, hgreen, hindex, -, -, ⟨-, hnone⟩ | ⟨hec, hpar⟩⟩ := hback hy
    · rw [hnone] at hq
      cases hq
    · obtain ⟨w, hw, -, hwgreen, -⟩ := hback hqy
      rw [hgreen, hwgreen, hindex]
      exact h.green hz (by rw [← hpar, hq]) hw hl (by simpa using hec)
  · intro e he
    rw [modify_cells, h.fresh he]
    simp

/-- What a detachment of a child of `p` does. -/
structure Detached (f f' : Forest) (c p : Nat) (x : Cell) : Prop where
  linked : Linked f' none none
  next : f'.next = f.next
  held : ∀ e, held f' e = held f e
  node : ∃ y, f'.cells c = some y ∧ y.parent = none ∧ y.green = x.green
  other : ∀ {e y}, f'.cells e = some y → ∃ z, f.cells e = some z ∧ (e ≠ c → y.parent = z.parent) ∧
    (¬ Chain f p e → y.green = z.green) ∧ (z.green.isToken = false → y.green.isToken = false)

def unlinked (f : Forest) (ring : List Nat) (c p i : Nat) : Forest :=
  { (sllAdjustAndSync f ring (i + 1) (· - 1)).modify p fun px => { px with first := sllUnlink px.first c } with
    nextGreen := f.nextGreen + 1 }

theorem unlinked_unhooked {i : Nat} (up : Green) (hpx : f.cells p = some px) (hself : p ∉ px.first) :
    Unhooked f ((unlinked f px.first c p i).modify p (regreen up)) c p i px up where
  next := rfl
  parent := by simp [modify_cells, unlinked, sllAdjustAndSync, hself, hpx, sllUnlink, regreen]
  sibling {e z} hmem hz := by
    have hep : e ≠ p := fun hep => hself (hep ▸ hmem)
    simp [modify_cells, unlinked, sllAdjustAndSync, hep, hmem, hz, closeGap]
  other {e} hep hmem := by simp [modify_cells, unlinked, sllAdjustAndSync, hep, hmem]

theorem unlinked_held {i : Nat} (h : Linked f none none) (hpx : f.cells p = some px) (hself : p ∉ px.first)
    (hmem : c ∈ px.first) (e : Nat) :
    held (unlinked f px.first c p i) e = held f e + if e = p then 1 else 0 := by
  by_cases hep : e = p
  · subst hep
    have hcell : (unlinked f px.first c e i).cells e = some { px with first := px.first.erase c } := by
      simp [modify_cells, unlinked, sllAdjustAndSync, hself, hpx, sllUnlink]
    have hlen := List.length_erase_of_mem hmem
    have hpos := List.length_pos_of_mem hmem
    have hcount := (h.counted hpx).1
    rw [held_eq hcell, held_eq hpx, if_pos rfl]
    simp only [hlen]
    omega
  · cases hz : f.cells e with
    | none => simp [held, modify_cells, unlinked, sllAdjustAndSync, hep, hz]
    | some z => by_cases hmem : e ∈ px.first <;> simp [held, modify_cells, unlinked, sllAdjustAndSync, hep, hz, hmem]

theorem unlinked_back {ring : List Nat} {i e : Nat} (hy : (unlinked f ring c p i).cells e = some y) :
    ∃ z, f.cells e = some z ∧ y.parent = z.parent ∧ y.green = z.green := by
  simp only [unlinked, modify_cells, sllAdjustAndSync] at hy
  cases hz : f.cells e with
  | none => split_ifs at hy <;> simp [hz] at hy
  | some z =>
      rw [hz] at hy
      refine ⟨z, rfl, ?_⟩
      split_ifs at hy <;> (cases hy; exact ⟨rfl, rfl⟩)

theorem unlinked_parent {ring : List Nat} {i : Nat} : Parent (unlinked f ring c p i) = Parent f := by
  funext a b
  refine propext ⟨?_, ?_⟩
  · rintro ⟨y, hy, hyb⟩
    obtain ⟨z, hz, hpar, -⟩ := unlinked_back hy
    exact ⟨z, hz, by rw [← hpar, hyb]⟩
  · rintro ⟨z, hz, hzb⟩
    simp only [Parent, unlinked, modify_cells, sllAdjustAndSync, hz]
    split_ifs <;> exact ⟨_, rfl, hzb⟩

theorem detach_spec {depth : Nat} (h : Linked f none none) (hx : f.cells c = some x) (hp : x.parent = some p)
    (hr : detachCommon depth f c = some f') : Detached f f' c p x := by
  obtain ⟨px, hpx, hcmem⟩ := h.live hx hp (by simp)
  have hcp : Parent f c p := ⟨x, hx, hp⟩
  have hself : p ∉ px.first := h.not_mem_self hpx
  have hne : c ≠ p := h.parent_ne hcp
  have hbelow : ¬ Chain f p c := h.not_chain_child hcp
  rw [detachCommon, hx] at hr
  simp only [hp, hpx, greenNodeSpliceChildren] at hr
  split_ifs at hr with hidx
  · rw [Option.bind_some] at hr
    obtain ⟨f₁, hspine, hrel⟩ := Option.bind_eq_some_iff.mp hr
    change respine depth (unlinked f px.first c p x.index) p _ = some f₁ at hspine
    have hchain : ∀ a b, Chain (unlinked f px.first c p x.index) a b ↔ Chain f a b := by
      intro a b
      rw [Chain, unlinked_parent, Chain]
    have hu := unlinked_unhooked (c := c) (i := x.index) (.node f.nextGreen px.green.kind
      (px.green.children.take x.index ++ [] ++ px.green.children.drop (x.index + 1))) hpx hself
    have hl₁ : Linked f₁ none (some c) := respine_linked (hu.linked h hx hp hpx rfl rfl)
      (fun a ha hac => hbelow ((hchain p c).mp (by cases hac; exact ha))) hspine
    have hpaint := respine_regreened hspine
    have hpcell : (unlinked f px.first c p x.index).cells p = some { px with first := px.first.erase c } := by
      simp [unlinked, modify_cells, sllAdjustAndSync, hself, hpx, sllUnlink]
    have hccell := hu.sibling hcmem hx
    rw [modify_of_ne hne] at hccell
    obtain ⟨gp, hp₁, -⟩ := hpaint.at hpcell
    obtain ⟨gc, hc₁, hgc⟩ := hpaint.at hccell
    have hgc : gc = x.green := hgc fun hch => hbelow ((hchain p c).mp hch)
    have hl₂ := Linked.forget hl₁ hc₁ hp hp₁ fun hmem => ((h.nodup hpx).mem_erase_iff.mp hmem).1 rfl
    have hheld₂ : ∀ e, held (f₁.modify c fun x => { x with parent := none }) e = held f e + if e = p then 1 else 0 := by
      intro e
      rw [← unlinked_held h hpx hself hcmem e, ← hpaint.held e]
      rw [held_modify]
      exact fun _ => ⟨rfl, rfl⟩
    obtain ⟨hl, hs, hheld, hkeep⟩ := release_spec hl₂ (by rw [hheld₂, if_pos rfl]; omega) hrel
    have hback : ∀ {e y}, (f₁.modify c fun x => { x with parent := none }).cells e = some y →
        ∃ z, f.cells e = some z ∧ (e ≠ c → y.parent = z.parent) ∧ (e = c → y.parent = none) ∧
          (¬ Chain f p e → y.green = z.green) ∧ (z.green.isToken = false → y.green.isToken = false) := by
      intro e y hy
      rw [modify_map] at hy
      obtain ⟨y₁, hy₁, rfl⟩ := Option.map_eq_some_iff.mp hy
      obtain ⟨y₀, hy₀, hyg, hgreen⟩ := hpaint.of hy₁
      obtain ⟨z, hz, hzp, hzg⟩ := unlinked_back hy₀
      refine ⟨z, hz, fun hec => ?_, fun hec => by rw [if_pos hec], fun hch => ?_, fun hn => ?_⟩
      · rw [if_neg hec, hyg]
        exact hzp
      · have hgreen := hgreen fun h => hch ((hchain p e).mp h)
        split_ifs <;> exact hgreen.trans hzg
      · have hnode := respine_nodes hspine rfl hy₀ (by rw [hzg, hn]) hy₁
        split_ifs <;> exact hnode
    have hbelow₂ : ¬ Chain (f₁.modify c fun x => { x with parent := none }) p c := by
      refine fun hch => hbelow (hch.lift id fun a b hab => ?_)
      obtain ⟨y, hy, hyb⟩ := hab
      obtain ⟨z, hz, hpar, hnone, -⟩ := hback hy
      by_cases hac : a = c
      · rw [hnone hac] at hyb
        cases hyb
      · exact ⟨z, hz, by rw [← hpar hac, hyb]; rfl⟩
    have hnode := hkeep c hbelow₂
    rw [modify_self hc₁] at hnode
    refine ⟨hl, hs.next.trans hpaint.next, fun e => ?_, ⟨_, hnode, rfl, hgc⟩, fun {e y} hy => ?_⟩
    · rw [hheld, hheld₂]
      split_ifs <;> omega
    · obtain ⟨y₂, hy₂, hpar, -, hgreen⟩ := hs.cells hy
      obtain ⟨z, hz, hpar', -, hgreen', hnode⟩ := hback hy₂
      exact ⟨z, hz, fun hec => hpar.trans (hpar' hec), fun hch => hgreen.trans (hgreen' hch),
        fun hn => by rw [hgreen, hnode hn]⟩
  · cases hr

end Detach

section Attach

/-- The place of a sibling once there is a new child at `i`. -/
def openGap (i k : Nat) : Nat := if i ≤ k then k + 1 else k

theorem openGap_lt {i a b : Nat} (h : a < b) : openGap i a < openGap i b := by
  unfold openGap
  split_ifs <;> omega

theorem openGap_getElem {l : List Green} {i : Nat} (hi : i ≤ l.length) (g : Green) (k : Nat) :
    (l.take i ++ [g] ++ l.drop i)[openGap i k]? = l[k]? := by
  have hlen : (l.take i).length = i := by rw [List.length_take, min_eq_left hi]
  unfold openGap
  split_ifs with hk
  · obtain ⟨j, rfl⟩ := Nat.exists_eq_add_of_le hk
    rw [List.append_assoc, List.getElem?_append_right (by omega), hlen, show i + j + 1 - i = j + 1 by omega]
    simp
  · rw [List.append_assoc, List.getElem?_append_left (by omega), List.getElem?_take_of_lt (by omega)]

theorem openGap_self {l : List Green} {i : Nat} (hi : i ≤ l.length) (g : Green) :
    (l.take i ++ [g] ++ l.drop i)[i]? = some g := by
  rw [List.append_assoc, List.getElem?_append_right (by simp), List.length_take, min_eq_left hi]
  simp

/-- The handle `c` joins the ring and the green element of `p`. -/
structure Hooked (f f' : Forest) (c p i : Nat) (x px : Cell) (ring : List Nat) (up : Green) : Prop where
  next : f'.next = f.next
  parent : f'.cells p = some { px with refcount := px.refcount + 1, first := ring, green := up }
  child : f'.cells c = some { x with parent := some p, index := i, key := i }
  sibling : ∀ {e z}, e ∈ px.first → f.cells e = some z →
    f'.cells e = some { z with key := openGap i z.key, index := openGap i z.key }
  other : ∀ {e}, e ≠ p → e ≠ c → e ∉ px.first → f'.cells e = f.cells e

section Hooked

variable {i : Nat} {ring : List Nat} {up : Green}

theorem Hooked.back (hh : Hooked f f' c p i x px ring up) (h : Linked f none none) (hx : f.cells c = some x)
    (hpx : f.cells p = some px) {e : Nat} (hy : f'.cells e = some y) : ∃ z, f.cells e = some z ∧ y.key = y.index ∧
      (e = p ∧ y = { px with refcount := px.refcount + 1, first := ring, green := up } ∨
        e = c ∧ y = { x with parent := some p, index := i, key := i } ∨
        e ≠ p ∧ e ≠ c ∧ y.parent = z.parent ∧ y.first = z.first ∧ y.green = z.green ∧ y.refcount = z.refcount) := by
  by_cases hep : e = p
  · subst hep
    rw [hh.parent] at hy
    cases hy
    have hsynced := h.synced hpx
    exact ⟨px, hpx, hsynced, .inl ⟨rfl, rfl⟩⟩
  · by_cases hec : e = c
    · subst hec
      rw [hh.child] at hy
      cases hy
      exact ⟨x, hx, rfl, .inr (.inl ⟨rfl, rfl⟩)⟩
    · by_cases hmem : e ∈ px.first
      · obtain ⟨z, hz, -⟩ := h.ring hpx hmem
        rw [hh.sibling hmem hz] at hy
        cases hy
        exact ⟨z, hz, rfl, .inr (.inr ⟨hep, hec, rfl, rfl, rfl, rfl⟩)⟩
      · rw [hh.other hep hec hmem] at hy
        exact ⟨y, hy, h.synced hy, .inr (.inr ⟨hep, hec, rfl, rfl, rfl, rfl⟩)⟩

theorem Hooked.forth (hh : Hooked f f' c p i x px ring up) {e : Nat} (hy : f.cells e = some y) (hep : e ≠ p)
    (hec : e ≠ c) : ∃ z, f'.cells e = some z ∧ z.parent = y.parent ∧ z.first = y.first := by
  by_cases hmem : e ∈ px.first
  · exact ⟨_, hh.sibling hmem hy, rfl, rfl⟩
  · exact ⟨y, by rw [hh.other hep hec hmem, hy], rfl, rfl⟩

theorem Hooked.place_other (hh : Hooked f f' c p i x px ring up) (hpx : f.cells p = some px) {e : Nat}
    (hmem : e ∉ px.first) (hec : e ≠ c) : f'.keyOf e = f.keyOf e := by
  by_cases hep : e = p
  · subst hep
    rw [keyOf_eq hh.parent, keyOf_eq hpx]
  · rw [Forest.keyOf, Forest.keyOf, hh.other hep hec hmem]

theorem Hooked.place_sibling (hh : Hooked f f' c p i x px ring up) (h : Linked f none none)
    (hpx : f.cells p = some px) {e : Nat} (hmem : e ∈ px.first) : f'.keyOf e = openGap i (f.keyOf e) := by
  obtain ⟨z, hz, -⟩ := h.ring hpx hmem
  rw [keyOf_eq (hh.sibling hmem hz), keyOf_eq hz]

theorem Hooked.linked (hh : Hooked f f' c p i x px ring up)
    (h : Linked f none none) (hx : f.cells c = some x) (hroot : x.parent = none) (hpx : f.cells p = some px)
    (hcp : c ≠ p) (hi : i ≤ px.green.children.length)
    (hup : up.children = px.green.children.take i ++ [x.green] ++ px.green.children.drop i)
    (hring : ring.Pairwise (fun a b => f'.keyOf a < f'.keyOf b) ∧ ring.Perm (c :: px.first)) :
    Linked f' (some p) none := by
  have hcout : ∀ {q qx}, f.cells q = some qx → c ∉ qx.first := fun hq =>
    h.not_mem_ring hx hq (by rw [hroot]; simp)
  have hplace : ∀ {q z a}, f.cells q = some z → q ≠ p → a ∈ z.first → f'.keyOf a = f.keyOf a := by
    intro q z a hz hqp ha
    exact hh.place_other hpx (h.rings_disjoint hz hpx hqp ha) fun hac => hcout hz (hac ▸ ha)
  refine ⟨?_, ?_, ?_, ?_, ?_, ?_, ?_⟩
  · intro e y q hy hq _
    obtain ⟨z, hz, -, hcase⟩ := hh.back h hx hpx hy
    by_cases hec : e = c
    · subst hec
      obtain rfl : p = q := by
        rw [hh.child] at hy
        cases hy
        exact Option.some.inj hq
      exact ⟨_, hh.parent, hring.2.mem_iff.mpr List.mem_cons_self⟩
    · have hzq : z.parent = some q := by
        obtain ⟨rfl, rfl⟩ | ⟨hec', -⟩ | ⟨-, -, hpar, -⟩ := hcase
        · obtain rfl := Option.some.inj (hpx.symm.trans hz)
          exact hq
        · exact absurd hec' hec
        · rw [← hpar, hq]
      obtain ⟨qx, hqx, hmem⟩ := h.live hz hzq (by simp)
      by_cases hqp : q = p
      · subst hqp
        obtain rfl := Option.some.inj (hpx.symm.trans hqx)
        exact ⟨_, hh.parent, hring.2.mem_iff.mpr (List.mem_cons_of_mem _ hmem)⟩
      · by_cases hqc : q = c
        · subst hqc
          obtain rfl := Option.some.inj (hx.symm.trans hqx)
          exact ⟨_, hh.child, hmem⟩
        · obtain ⟨w, hw, -, hfirst⟩ := hh.forth hqx hqp hqc
          exact ⟨w, hw, by rw [hfirst]; exact hmem⟩
  · intro q y e hy hmem
    have hold : (q = p ∧ e = c) ∨ ∃ z, f.cells q = some z ∧ e ∈ z.first := by
      obtain ⟨z, hz, -, ⟨rfl, rfl⟩ | ⟨rfl, rfl⟩ | ⟨-, -, -, hfirst, -⟩⟩ := hh.back h hx hpx hy
      · rcases List.mem_cons.mp (hring.2.mem_iff.mp hmem) with rfl | hmem
        · exact .inl ⟨rfl, rfl⟩
        · exact .inr ⟨px, hpx, hmem⟩
      · exact .inr ⟨x, hx, hmem⟩
      · exact .inr ⟨z, hz, by rw [← hfirst]; exact hmem⟩
    rcases hold with ⟨rfl, rfl⟩ | ⟨z, hz, hmem⟩
    · exact ⟨_, hh.child, rfl⟩
    · obtain ⟨w, hw, hwp⟩ := h.ring hz hmem
      have hec : e ≠ c := by
        rintro rfl
        exact hcout hz hmem
      by_cases hep : e = p
      · subst hep
        obtain rfl := Option.some.inj (hpx.symm.trans hw)
        exact ⟨_, hh.parent, hwp⟩
      · obtain ⟨v, hv, hpar, -⟩ := hh.forth hw hep hec
        exact ⟨v, hv, by rw [hpar, hwp]⟩
  · intro q y hy
    obtain ⟨z, hz, -, ⟨rfl, rfl⟩ | ⟨rfl, rfl⟩ | ⟨hqp, -, -, hfirst, -⟩⟩ := hh.back h hx hpx hy
    · exact hring.1
    · refine (h.sorted hx).imp_of_mem fun ha hb hlt => ?_
      rwa [hplace hx hcp ha, hplace hx hcp hb]
    · rw [hfirst]
      refine (h.sorted hz).imp_of_mem fun ha hb hlt => ?_
      rwa [hplace hz hqp ha, hplace hz hqp hb]
  · intro e y hy
    obtain ⟨z, -, hsynced, -⟩ := hh.back h hx hpx hy
    exact hsynced
  · intro e y hy
    obtain ⟨z, hz, -, ⟨rfl, rfl⟩ | ⟨rfl, rfl⟩ | ⟨-, -, -, hfirst, -, hcount⟩⟩ := hh.back h hx hpx hy
    · have hlen := hring.2.length_eq
      have hcount := h.counted hpx
      simp only [List.length_cons] at hlen
      simp only [hlen]
      omega
    · have hcount := h.counted hx
      exact hcount
    · rw [hfirst, hcount]
      exact h.counted hz
  · intro e y q qy hy hq hqy hep _
    obtain ⟨z, hz, hsynced, ⟨rfl, -⟩ | ⟨rfl, rfl⟩ | ⟨hep, hec, hpar, -, hgreen, -⟩⟩ := hh.back h hx hpx hy
    · exact absurd rfl hep
    · cases hq
      rw [hh.parent] at hqy
      cases hqy
      simp only [hup]
      exact openGap_self hi x.green
    rw [hpar] at hq
    have hmem : e ∈ px.first ↔ q = p := h.mem_ring_iff hz hq hpx
    rw [← hsynced, ← keyOf_eq hy, hgreen]
    by_cases hqp : q = p
    · subst hqp
      rw [hh.parent] at hqy
      cases hqy
      have hold := h.green hz hq hpx (by simp) (by simp)
      rw [← h.synced hz, ← keyOf_eq hz] at hold
      rw [hh.place_sibling h hpx (hmem.mpr rfl), hup, openGap_getElem hi]
      exact hold
    · rw [hh.place_other hpx (fun he => hqp (hmem.mp he)) hec, keyOf_eq hz, h.synced hz]
      obtain ⟨w, hw, -, ⟨rfl, -⟩ | ⟨rfl, rfl⟩ | ⟨-, -, -, -, hwg, -⟩⟩ := hh.back h hx hpx hqy
      · exact absurd rfl hqp
      · have hgreen := h.green hz hq hx (by simp) (by simp)
        exact hgreen
      · rw [hwg]
        exact h.green hz hq hw (by simp) (by simp)
  · intro e he
    rw [hh.next] at he
    obtain ⟨hep, hmem⟩ := h.fresh_outside he hpx
    rw [hh.other hep (h.fresh_outside he hx).1 hmem, h.fresh he]

theorem Hooked.sorted {F : Forest} {r : SllAdd}
    (hh : Hooked f f' c p i x px (sllAdd px.first c r) up) (h : Linked f none none) (hpx : f.cells p = some px)
    (hkey : ∀ a ∈ px.first, F.keyOf a = openGap i (f.keyOf a)) (hlink : sllLink F px.first i = some r)
    (hnew : ∀ d, r ≠ .alreadyInSll d) :
    (sllAdd px.first c r).Pairwise (fun a b => f'.keyOf a < f'.keyOf b) ∧
      (sllAdd px.first c r).Perm (c :: px.first) := by
  have hsorted : px.first.Pairwise fun a b => f'.keyOf a < f'.keyOf b :=
    (h.sorted hpx).imp_of_mem fun ha hb hlt => by
      rw [hh.place_sibling h hpx ha, hh.place_sibling h hpx hb]
      exact openGap_lt hlt
  refine sllAdd_sorted hsorted (fun a ha => (hkey a ha).trans (hh.place_sibling h hpx ha).symm) ?_ hnew
  rw [keyOf_eq hh.child]
  exact hlink

end Hooked

/-- The forest in which the ring of `p` opens a gap for `c`, and the one in which
its green element is respined. -/
def spread (f : Forest) (ring : List Nat) (c p i : Nat) : Forest :=
  sllAdjustAndSync
    ((f.modify c fun x => { x with parent := some p, index := i, key := i }).modify p fun px =>
      { px with refcount := px.refcount + 1 }) ring i (· + 1)

def hooked (f : Forest) (ring ring' : List Nat) (c p i : Nat) : Forest :=
  { (spread f ring c p i).modify p fun px => { px with first := ring' } with nextGreen := f.nextGreen + 1 }

theorem hooked_hooked (i : Nat) (ring : List Nat) (up : Green) (hx : f.cells c = some x) (hpx : f.cells p = some px)
    (hcp : c ≠ p) (hself : p ∉ px.first) (hcout : c ∉ px.first) :
    Hooked f ((hooked f px.first ring c p i).modify p (regreen up)) c p i x px ring up where
  next := rfl
  parent := by simp [modify_cells, hooked, spread, sllAdjustAndSync, hself, hpx, Ne.symm hcp, regreen]
  child := by simp [modify_cells, hooked, spread, sllAdjustAndSync, hcout, hx, hcp]
  sibling {e z} hmem hz := by
    have hep : e ≠ p := fun hep => hself (hep ▸ hmem)
    have hec : e ≠ c := fun hec => hcout (hec ▸ hmem)
    simp [modify_cells, hooked, spread, sllAdjustAndSync, hep, hec, hmem, hz, openGap]
  other {e} hep hec hmem := by simp [modify_cells, hooked, spread, sllAdjustAndSync, hep, hec, hmem]

theorem hooked_back {i e : Nat} {ring ring' : List Nat} (hy : (hooked f ring ring' c p i).cells e = some y) :
    ∃ z, f.cells e = some z ∧ (e ≠ c → y.parent = z.parent) ∧ y.green = z.green := by
  simp only [hooked, spread, modify_cells, sllAdjustAndSync] at hy
  cases hz : f.cells e with
  | none => split_ifs at hy <;> simp [hz] at hy
  | some z =>
      rw [hz] at hy
      refine ⟨z, rfl, ?_⟩
      split_ifs at hy <;> (cases hy; simp_all)

theorem hooked_live {i e : Nat} {ring ring' : List Nat} (hz : f.cells e = some x) :
    ∃ y, (hooked f ring ring' c p i).cells e = some y ∧ (e ≠ c → y.parent = x.parent) ∧
      (e ≠ p → y.refcount = x.refcount ∧ y.first = x.first) := by
  simp only [hooked, spread, modify_cells, sllAdjustAndSync, hz]
  split_ifs <;> exact ⟨_, rfl, by simp_all, by simp_all⟩

theorem hooked_held {i : Nat} {ring : List Nat} (hpx : f.cells p = some px) (hself : p ∉ px.first)
    (hcp : c ≠ p) (hlen : ring.length = px.first.length + 1) (e : Nat) :
    held (hooked f px.first ring c p i) e = held f e := by
  by_cases hep : e = p
  · subst hep
    have hcell : (hooked f px.first ring c e i).cells e =
        some { px with refcount := px.refcount + 1, first := ring } := by
      simp [modify_cells, hooked, spread, sllAdjustAndSync, hself, hpx, Ne.symm hcp]
    rw [held_eq hcell, held_eq hpx]
    simp only [hlen]
    omega
  · cases hz : f.cells e with
    | none => simp [held, modify_cells, hooked, spread, sllAdjustAndSync, hep, hz]
    | some z =>
        obtain ⟨y, hy, -, hplace⟩ := hooked_live (c := c) (p := p) (i := i) hz
        rw [held_eq hy, held_eq hz, (hplace hep).1, (hplace hep).2]

/-- What the attachment of `c` to `p` does. -/
structure Attached (f f' : Forest) (c p : Nat) : Prop where
  linked : Linked f' none none
  next : f'.next = f.next
  held : ∀ e, held f' e = held f e
  node : ∃ y, f'.cells c = some y ∧ y.parent = some p
  other : ∀ {e y}, f'.cells e = some y → ∃ z, f.cells e = some z ∧ (e ≠ c → y.parent = z.parent) ∧
    (¬ Chain f p e → y.green = z.green) ∧ (z.green.isToken = false → y.green.isToken = false)

theorem attachChild_hooked {depth i : Nat} {r : SllAdd} (hx : f.cells c = some x) (hpx : f.cells p = some px)
    (hguard : x.parent = none ∧ i ≤ px.green.children.length) (hself : p ∉ px.first) (hcp : c ≠ p)
    (hlink : sllLink (spread f px.first c p i) px.first i = some r) (hnew : ∀ d, r ≠ .alreadyInSll d) :
    attachChild depth f p i c = respine depth (hooked f px.first (sllAdd px.first c r) c p i) p
      (.node f.nextGreen px.green.kind (px.green.children.take i ++ [x.green] ++ px.green.children.drop i)) := by
  have hring : (spread f px.first c p i).cells p = some { px with refcount := px.refcount + 1 } := by
    simp [spread, sllAdjustAndSync, modify_cells, hself, hpx, Ne.symm hcp]
  have hsame : (spread f px.first c p i).modify p (fun y => { y with first := sllAdd y.first c r }) =
      (spread f px.first c p i).modify p fun y => { y with first := sllAdd px.first c r } :=
    modify_congr hring rfl
  rw [spread] at hlink
  rw [attachChild, hpx, hx]
  simp only [hlink]
  rw [if_pos hguard]
  cases r with
  | alreadyInSll d => exact absurd rfl (hnew d)
  | _ =>
      simp only [greenNodeSpliceChildren]
      rw [if_pos ⟨le_rfl, hguard.2⟩, Option.bind_some, hooked, ← hsame]
      rfl

theorem attach_spec {depth i : Nat} (h : Linked f none none) (hchain : ¬ Chain f p c)
    (hr : attachChild depth f p i c = some f') : Attached f f' c p := by
  have hcp : c ≠ p := fun hcp => hchain (hcp ▸ .refl)
  have hr₀ := hr
  rw [attachChild] at hr
  cases hpx : f.cells p with
  | none => simp [hpx] at hr
  | some px =>
      cases hx : f.cells c with
      | none => simp [hpx, hx] at hr
      | some x =>
          simp only [hpx, hx] at hr
          split_ifs at hr with hguard
          have hself : p ∉ px.first := h.not_mem_self hpx
          have hcout : c ∉ px.first := h.not_mem_ring hx hpx (by rw [hguard.1]; simp)
          have hfinish : ∀ r, (∀ d, r ≠ SllAdd.alreadyInSll d) →
              sllLink (spread f px.first c p i) px.first i = some r →
              respine depth (hooked f px.first (sllAdd px.first c r) c p i) p
                (.node f.nextGreen px.green.kind
                  (px.green.children.take i ++ [x.green] ++ px.green.children.drop i)) = some f' →
              Attached f f' c p := by
            intro r hnew hlink hspine
            have hh := hooked_hooked i (sllAdd px.first c r) (.node f.nextGreen px.green.kind
              (px.green.children.take i ++ [x.green] ++ px.green.children.drop i)) hx hpx hcp hself hcout
            have hkey : ∀ a ∈ px.first, (spread f px.first c p i).keyOf a = openGap i (f.keyOf a) := by
              intro a ha
              obtain ⟨z, hz, -⟩ := h.ring hpx ha
              have hap : a ≠ p := fun hap => hself (hap ▸ ha)
              have hac : a ≠ c := fun hac => hcout (hac ▸ ha)
              simp [Forest.keyOf, spread, sllAdjustAndSync, modify_cells, ha, hap, hac, hz, openGap]
            have hring := hh.sorted h hpx hkey hlink hnew
            have hlinked := respine_linked (hh.linked h hx hguard.1 hpx hcp hguard.2 rfl hring) (by simp) hspine
            have hpaint := respine_regreened hspine
            have hup : ∀ {a}, Chain (hooked f px.first (sllAdd px.first c r) c p i) p a → Chain f p a := by
              intro a ha
              induction ha with
              | refl => exact .refl
              | tail _ hpar ih =>
                  obtain ⟨y, hy, hyb⟩ := hpar
                  obtain ⟨z, hz, hzp, -⟩ := hooked_back hy
                  exact .tail ih ⟨z, hz, by rw [← hzp fun hac => hchain (hac ▸ ih), hyb]⟩
            have hnode := hh.child
            rw [modify_of_ne hcp] at hnode
            obtain ⟨gc, hc', -⟩ := hpaint.at hnode
            refine ⟨hlinked, hpaint.next, fun e => ?_, ⟨_, hc', rfl⟩, fun {e y} hy => ?_⟩
            · rw [hpaint.held, hooked_held hpx hself hcp (by rw [hring.2.length_eq, List.length_cons])]
            · obtain ⟨y₀, hy₀, hyg, hgreen⟩ := hpaint.of hy
              obtain ⟨z, hz, hzp, hzg⟩ := hooked_back hy₀
              refine ⟨z, hz, fun hec => ?_, fun hch => (hgreen fun ha => hch (hup ha)).trans hzg,
                fun hn => respine_nodes hspine rfl hy₀ (by rw [hzg, hn]) hy⟩
              rw [hyg]
              exact hzp hec
          cases hlink : sllLink (spread f px.first c p i) px.first i with
          | none =>
              rw [spread] at hlink
              simp only [hlink] at hr
              cases hr
          | some r =>
              by_cases hnew : ∀ d, r ≠ SllAdd.alreadyInSll d
              · rw [attachChild_hooked hx hpx hguard hself hcp hlink hnew] at hr₀
                exact hfinish r hnew hlink hr₀
              · push Not at hnew
                obtain ⟨d, rfl⟩ := hnew
                rw [spread] at hlink
                simp only [hlink] at hr
                cases hr

end Attach

end Ore.RedForestEdits
