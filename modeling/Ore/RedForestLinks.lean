import Mathlib.Data.List.Pairwise
import Ore.BindingGraph
import Ore.RedForest

namespace Ore.RedForestLinks

open BindingGraph RedForest Relation

variable {f f' f₁ f₂ : Forest} {loose orphan : Option Nat} {c d p n i : Nat} {x y px : Cell} {g : Green}

/-- What holds of the live handles between operations. During one, `loose` is the
handle whose green element its parent does not list yet, and `orphan` one
unlinked from the ring of a parent that it still names. -/
structure Linked (f : Forest) (loose orphan : Option Nat) : Prop where
  live : ∀ {c x p}, f.cells c = some x → x.parent = some p → some c ≠ orphan →
    ∃ px, f.cells p = some px ∧ c ∈ px.first
  ring : ∀ {p px c}, f.cells p = some px → c ∈ px.first → ∃ x, f.cells c = some x ∧ x.parent = some p
  sorted : ∀ {p px}, f.cells p = some px → px.first.Pairwise fun c d => f.keyOf c < f.keyOf d
  synced : ∀ {c x}, f.cells c = some x → x.key = x.index
  counted : ∀ {c x}, f.cells c = some x → x.first.length ≤ x.refcount ∧ 0 < x.refcount
  green : ∀ {c x p px}, f.cells c = some x → x.parent = some p → f.cells p = some px → some c ≠ loose →
    some c ≠ orphan → px.green.children[x.index]? = some x.green
  fresh : ∀ {c}, f.next ≤ c → f.cells c = none

/-- `p` is the parent of the live handle `c`. -/
def Parent (f : Forest) (c p : Nat) : Prop := ∃ x, f.cells c = some x ∧ x.parent = some p

/-- The handles from `c` up to its root. -/
def Chain (f : Forest) (c a : Nat) : Prop := ReflTransGen (Parent f) c a

/-- References to `c` from outside: those that are not its children's. -/
def held (f : Forest) (c : Nat) : Nat := ((f.cells c).map fun x => x.refcount - x.first.length).getD 0

section Cells

theorem modify_cells (f : Forest) (c d : Nat) (change : Cell → Cell) :
    (f.modify c change).cells d = if d = c then (f.cells d).map change else f.cells d := rfl

theorem modify_self (h : f.cells c = some x) (change : Cell → Cell) :
    (f.modify c change).cells c = some (change x) := by
  simp [modify_cells, h]

theorem modify_congr {change change' : Cell → Cell} (h : f.cells c = some x) (heq : change x = change' x) :
    f.modify c change = f.modify c change' := by
  simp only [Forest.modify, Forest.mk.injEq, and_true]
  funext d
  split_ifs with hd
  · rw [hd, h, Option.map_some, Option.map_some, heq]
  · rfl

theorem modify_of_ne (h : d ≠ c) (change : Cell → Cell) : (f.modify c change).cells d = f.cells d := by
  simp [modify_cells, h]

theorem erase_cells (f : Forest) (c d : Nat) :
    (f.erase c).cells d = if d = c then none else f.cells d := rfl

theorem keyOf_eq (h : f.cells c = some x) : f.keyOf c = x.key := by
  simp [Forest.keyOf, h]

theorem held_eq (h : f.cells c = some x) : held f c = x.refcount - x.first.length := by
  simp [held, h]

theorem held_none (h : f.cells c = none) : held f c = 0 := by
  simp [held, h]

end Cells

section Sizes

theorem sizeOf_child {parent child : Green} {i : Nat} (h : parent.children[i]? = some child) :
    sizeOf child < sizeOf parent := by
  cases parent with
  | token => simp [Green.children] at h
  | node a k cs =>
      have hmem := List.mem_of_getElem? h
      have := List.sizeOf_lt_of_mem hmem
      simp [Green.children] at this ⊢
      omega

theorem Linked.sizeOf_parent (h : Linked f none none) (hp : Parent f c p) (hc : f.cells c = some x)
    (hpx : f.cells p = some px) : sizeOf x.green < sizeOf px.green := by
  obtain ⟨y, hy, hyp⟩ := hp
  obtain rfl := Option.some.inj (hc.symm.trans hy)
  exact sizeOf_child (h.green hc hyp hpx (by simp) (by simp))

/-- The green element below a parent is part of the parent's, so no handle is
above itself. -/
theorem Linked.acyclic (h : Linked f none none) : Acyclic (Parent f) := by
  refine acyclic_of_increasing (f := fun c => ((f.cells c).map fun x => sizeOf x.green).getD 0) fun c p hp => ?_
  obtain ⟨x, hx, hxp⟩ := id hp
  obtain ⟨px, hpx, -⟩ := h.live hx hxp (by simp)
  simpa [hx, hpx] using h.sizeOf_parent hp hx hpx

/-- The way up from any handle ends. -/
theorem Linked.rises (h : Linked f none none) : WellFounded fun p c => Parent f c p := by
  refine h.acyclic.wellFounded ((Set.finite_lt_nat f.next).subset ?_)
  rintro c ⟨p, x, hx, -⟩
  by_contra hge
  rw [h.fresh (Nat.le_of_not_lt hge)] at hx
  cases hx

theorem Linked.parent_ne (h : Linked f none none) (hp : Parent f c p) : c ≠ p := by
  rintro rfl
  exact h.acyclic c (.single hp)

theorem Linked.not_chain_child (h : Linked f none none) (hp : Parent f c p) : ¬ Chain f p c := fun hchain =>
  h.acyclic c (.head' hp hchain)

theorem Linked.nodup (h : Linked f loose orphan) (hpx : f.cells p = some px) : px.first.Nodup := by
  refine (h.sorted hpx).imp fun hlt heq => ?_
  subst heq
  exact Nat.lt_irrefl _ hlt

/-- Two children of one parent never have the same position. -/
theorem Linked.index_ne (h : Linked f loose orphan) (hpx : f.cells p = some px) (hc : c ∈ px.first)
    (hd : d ∈ px.first) (hne : c ≠ d) (hx : f.cells c = some x) (hy : f.cells d = some y) :
    x.index ≠ y.index := by
  have hpair : px.first.Pairwise fun a b => f.keyOf a ≠ f.keyOf b := (h.sorted hpx).imp Nat.ne_of_lt
  have : Std.Symm fun a b : Nat => f.keyOf a ≠ f.keyOf b := ⟨fun _ _ hab => hab.symm⟩
  have hk := hpair.forall hc hd hne
  rwa [keyOf_eq hx, keyOf_eq hy, h.synced hx, h.synced hy] at hk

theorem Linked.chain_live (h : Linked f none none) (hp : f.cells p = some px) {a : Nat} (hc : Chain f p a) :
    ∃ x, f.cells a = some x := by
  induction hc with
  | refl => exact ⟨px, hp⟩
  | tail _ hpar _ =>
      obtain ⟨x, hx, hxp⟩ := hpar
      obtain ⟨y, hy, -⟩ := h.live hx hxp (by simp)
      exact ⟨y, hy⟩

end Sizes

section Rings

theorem sllWalk_stops {k curr : Nat} {l : List Nat} (h : sllWalk f k l = some (.smallerThanNotHead curr)) :
    ∃ after before, l = after ++ curr :: before ∧ f.keyOf curr < k ∧ ∀ a ∈ after, k < f.keyOf a := by
  induction l with
  | nil => cases h
  | cons b l ih =>
      rw [sllWalk] at h
      split_ifs at h with hlt heq
      · cases h
        exact ⟨[], l, rfl, hlt, by simp⟩
      · cases h
      · obtain ⟨after, before, rfl, hcurr, hafter⟩ := ih h
        refine ⟨b :: after, before, rfl, hcurr, fun a ha => ?_⟩
        rcases List.mem_cons.mp ha with rfl | ha
        · omega
        · exact hafter a ha

theorem sllWalk_found {k curr : Nat} {l : List Nat} (h : sllWalk f k l = some (.alreadyInSll curr)) :
    curr ∈ l ∧ f.keyOf curr = k := by
  induction l with
  | nil => cases h
  | cons b l ih =>
      rw [sllWalk] at h
      split_ifs at h with hlt heq
      · cases h
      · cases h
        exact ⟨List.mem_cons_self, heq⟩
      · exact ⟨List.mem_cons_of_mem _ (ih h).1, (ih h).2⟩

theorem sllWalk_ne {k : Nat} {l : List Nat} :
    sllWalk f k l ≠ some .emptyHead ∧ sllWalk f k l ≠ some .smallerThanHead := by
  induction l with
  | nil => simp [sllWalk]
  | cons b l ih =>
      rw [sllWalk]
      split_ifs <;> simp [ih]

theorem insertAfter_append {curr elem : Nat} {before after : List Nat} (h : curr ∉ before) :
    insertAfter curr elem (before ++ curr :: after) = before ++ curr :: elem :: after := by
  induction before with
  | nil => simp [insertAfter]
  | cons b before ih =>
      simp only [List.mem_cons, not_or] at h
      simp [insertAfter, Ne.symm h.1, ih h.2]

/-- The ring stays sorted, with the new element at its place. -/
theorem sllAdd_sorted {key : Nat → Nat} {ring : List Nat} {r : SllAdd}
    (hsorted : ring.Pairwise fun a b => key a < key b) (hkey : ∀ a ∈ ring, f.keyOf a = key a)
    (h : sllLink f ring (key n) = some r) (hnew : ∀ d, r ≠ .alreadyInSll d) :
    (sllAdd ring n r).Pairwise (fun a b => key a < key b) ∧ (sllAdd ring n r).Perm (n :: ring) := by
  cases ring with
  | nil =>
      cases h
      simp [sllAdd]
  | cons head rest =>
      rw [sllLink] at h
      split_ifs at h with hhead
      · cases h
        rw [hkey head List.mem_cons_self] at hhead
        refine ⟨List.pairwise_cons.mpr ⟨fun a ha => ?_, hsorted⟩, .refl _⟩
        rcases List.mem_cons.mp ha with rfl | ha
        · exact hhead
        · exact hhead.trans ((List.pairwise_cons.mp hsorted).1 a ha)
      · cases r with
        | emptyHead => exact absurd h sllWalk_ne.1
        | smallerThanHead => exact absurd h sllWalk_ne.2
        | alreadyInSll d => exact absurd rfl (hnew d)
        | smallerThanNotHead curr =>
            obtain ⟨after, before, hring, hcurr, hafter⟩ := sllWalk_stops h
            have hring : head :: rest = before.reverse ++ curr :: after.reverse := by
              simpa using congrArg List.reverse hring
            rw [hring] at hsorted hkey ⊢
            obtain ⟨hbefore, hafters, hcross⟩ := List.pairwise_append.mp hsorted
            have hmem : curr ∉ before.reverse := fun hm =>
              Nat.lt_irrefl _ (hcross curr hm curr List.mem_cons_self)
            rw [sllAdd, insertAfter_append hmem]
            have hck : f.keyOf curr = key curr := hkey curr (by simp)
            have hak : ∀ a ∈ after.reverse, key n < key a := by
              intro a ha
              rw [← hkey a (by simp [List.mem_reverse.mp ha])]
              exact hafter a (List.mem_reverse.mp ha)
            refine ⟨List.pairwise_append.mpr ⟨hbefore, ?_, ?_⟩, ?_⟩
            · refine List.pairwise_cons.mpr ⟨fun a ha => ?_, List.pairwise_cons.mpr ⟨hak, ?_⟩⟩
              · rcases List.mem_cons.mp ha with rfl | ha
                · omega
                · exact (List.pairwise_cons.mp hafters).1 a ha
              · exact (List.pairwise_cons.mp hafters).2
            · intro a ha b hb
              have hac := hcross a ha curr List.mem_cons_self
              rcases List.mem_cons.mp hb with rfl | hb
              · exact hac
              · rcases List.mem_cons.mp hb with rfl | hb
                · omega
                · exact hcross a ha b (List.mem_cons_of_mem _ hb)
            · have hperm : (before.reverse ++ [curr] ++ n :: after.reverse).Perm
                  (n :: (before.reverse ++ [curr] ++ after.reverse)) := List.perm_middle
              simpa using hperm

theorem sllWalk_total {k : Nat} {l : List Nat} (h : ∃ a ∈ l, f.keyOf a ≤ k) : ∃ r, sllWalk f k l = some r := by
  induction l with
  | nil => simp at h
  | cons b l ih =>
      rw [sllWalk]
      split_ifs with hlt heq
      · exact ⟨_, rfl⟩
      · exact ⟨_, rfl⟩
      · obtain ⟨a, ha, hle⟩ := h
        rcases List.mem_cons.mp ha with rfl | ha
        · omega
        · exact ih ⟨a, ha, hle⟩

theorem sllLink_total (f : Forest) (ring : List Nat) (k : Nat) : ∃ r, sllLink f ring k = some r := by
  cases ring with
  | nil => exact ⟨_, rfl⟩
  | cons head rest =>
      rw [sllLink]
      split_ifs with hlt
      · exact ⟨_, rfl⟩
      · exact sllWalk_total ⟨head, by simp, by omega⟩

theorem sllLink_found {ring : List Nat} {k : Nat} (h : sllLink f ring k = some (.alreadyInSll d)) :
    d ∈ ring ∧ f.keyOf d = k := by
  cases ring with
  | nil => cases h
  | cons head rest =>
      rw [sllLink] at h
      split_ifs at h with hhead
      · cases h
      · obtain ⟨hmem, hk⟩ := sllWalk_found h
        exact ⟨List.mem_reverse.mp hmem, hk⟩

end Rings

section Changes

/-- Handles change in what is neither their place nor their ring. -/
theorem Linked.map {k : Nat → Cell → Cell} {loose' : Option Nat} (h : Linked f loose orphan)
    (hcells : ∀ d, f'.cells d = (f.cells d).map (k d)) (hnext : f.next ≤ f'.next)
    (hkeep : ∀ d x, (k d x).parent = x.parent ∧ (k d x).first = x.first ∧ (k d x).index = x.index ∧ (k d x).key = x.key)
    (hcount : ∀ d x, f.cells d = some x → x.first.length ≤ (k d x).refcount ∧ 0 < (k d x).refcount)
    (hgreen : ∀ c x p px, f.cells c = some x → x.parent = some p → f.cells p = some px → some c ≠ loose' →
      some c ≠ orphan → (k p px).green.children[x.index]? = some (k c x).green) : Linked f' loose' orphan := by
  have hcell : ∀ {d y}, f'.cells d = some y → ∃ x, f.cells d = some x ∧ y = k d x := by
    intro d y hy
    rw [hcells] at hy
    obtain ⟨x, hx, rfl⟩ := Option.map_eq_some_iff.mp hy
    exact ⟨x, hx, rfl⟩
  have hkey : ∀ d, f'.keyOf d = f.keyOf d := by
    intro d
    cases hx : f.cells d with
    | none => simp [Forest.keyOf, hcells, hx]
    | some x => simp [Forest.keyOf, hcells, hx, hkeep]
  refine ⟨?_, ?_, ?_, ?_, ?_, ?_, ?_⟩
  · intro c y p hy hp ho
    obtain ⟨x, hx, rfl⟩ := hcell hy
    rw [(hkeep c x).1] at hp
    obtain ⟨px, hpx, hmem⟩ := h.live hx hp ho
    exact ⟨k p px, by rw [hcells, hpx]; rfl, by rw [(hkeep p px).2.1]; exact hmem⟩
  · intro p y c hy hmem
    obtain ⟨px, hpx, rfl⟩ := hcell hy
    rw [(hkeep p px).2.1] at hmem
    obtain ⟨x, hx, hp⟩ := h.ring hpx hmem
    exact ⟨k c x, by rw [hcells, hx]; rfl, by rw [(hkeep c x).1, hp]⟩
  · intro p y hy
    obtain ⟨px, hpx, rfl⟩ := hcell hy
    rw [(hkeep p px).2.1]
    simpa only [hkey] using h.sorted hpx
  · intro c y hy
    obtain ⟨x, hx, rfl⟩ := hcell hy
    rw [(hkeep c x).2.2.1, (hkeep c x).2.2.2, h.synced hx]
  · intro c y hy
    obtain ⟨x, hx, rfl⟩ := hcell hy
    rw [(hkeep c x).2.1]
    exact hcount c x hx
  · intro c y p py hy hp hpy hl ho
    obtain ⟨x, hx, rfl⟩ := hcell hy
    obtain ⟨px, hpx, rfl⟩ := hcell hpy
    rw [(hkeep c x).1] at hp
    rw [(hkeep c x).2.2.1]
    exact hgreen c x p px hx hp hpx hl ho
  · intro c hc
    rw [hcells, h.fresh (hnext.trans hc)]
    rfl

theorem modify_map (f : Forest) (c : Nat) (change : Cell → Cell) (d : Nat) :
    (f.modify c change).cells d = (f.cells d).map (if d = c then change else id) := by
  rw [modify_cells]
  split <;> simp

/-- The references to a handle change in number. -/
theorem Linked.recount (h : Linked f loose orphan) (count : Nat → Nat)
    (hcount : ∀ x, f.cells c = some x → x.first.length ≤ count x.refcount ∧ 0 < count x.refcount) :
    Linked (f.modify c fun x => { x with refcount := count x.refcount }) loose orphan := by
  refine h.map (modify_map f c _) le_rfl (fun d x => ?_) (fun d x hx => ?_) fun c x p px hx hp hpx hl ho => ?_
  · split <;> simp
  · split
    · subst d
      exact hcount x hx
    · exact h.counted hx
  · have hg := h.green hx hp hpx hl ho
    split <;> split <;> exact hg

end Changes

section Release

/-- Handles are only lost, and those left keep their place and their green element. -/
structure Survives (f f' : Forest) : Prop where
  next : f'.next = f.next
  cells : ∀ {d y'}, f'.cells d = some y' →
    ∃ y, f.cells d = some y ∧ y'.parent = y.parent ∧ y'.index = y.index ∧ y'.green = y.green

theorem Survives.trans (h : Survives f f₁) (h' : Survives f₁ f₂) : Survives f f₂ where
  next := h'.next.trans h.next
  cells hy := by
    obtain ⟨y₁, hy₁, hp₁, hi₁, hg₁⟩ := h'.cells hy
    obtain ⟨y₀, hy₀, hp₀, hi₀, hg₀⟩ := h.cells hy₁
    exact ⟨y₀, hy₀, hp₁.trans hp₀, hi₁.trans hi₀, hg₁.trans hg₀⟩

theorem Linked.free (h : Linked f none none) (hx : f.cells c = some x) (hfirst : x.first = [])
    (hcells : ∀ d, f'.cells d = if d = c then none else (f.cells d).map fun y => { y with first := y.first.erase c })
    (hnext : f'.next = f.next) : Linked f' none none := by
  have hcell : ∀ {d y}, f'.cells d = some y →
      d ≠ c ∧ ∃ z, f.cells d = some z ∧ y = { z with first := z.first.erase c } := by
    intro d y hy
    rw [hcells] at hy
    split_ifs at hy with hd
    obtain ⟨z, hz, rfl⟩ := Option.map_eq_some_iff.mp hy
    exact ⟨hd, z, hz, rfl⟩
  have hother : ∀ {d z}, d ≠ c → f.cells d = some z → f'.cells d = some { z with first := z.first.erase c } := by
    intro d z hd hz
    rw [hcells, if_neg hd, hz]
    rfl
  have hkey : ∀ d, d ≠ c → f'.keyOf d = f.keyOf d := by
    intro d hd
    cases hz : f.cells d with
    | none => simp [Forest.keyOf, hcells, hd, hz]
    | some z => simp [Forest.keyOf, hcells, hd, hz]
  refine ⟨?_, ?_, ?_, ?_, ?_, ?_, ?_⟩
  · intro d y q hy hq _
    obtain ⟨hd, z, hz, rfl⟩ := hcell hy
    obtain ⟨qx, hqx, hmem⟩ := h.live hz hq (by simp)
    have hqc : q ≠ c := by
      rintro rfl
      obtain rfl := Option.some.inj (hx.symm.trans hqx)
      rw [hfirst] at hmem
      cases hmem
    exact ⟨_, hother hqc hqx, (List.mem_erase_of_ne hd).mpr hmem⟩
  · intro q y d hy hmem
    obtain ⟨hq, z, hz, rfl⟩ := hcell hy
    obtain ⟨hd, hmem⟩ := (List.Nodup.mem_erase_iff (h.nodup hz)).mp hmem
    obtain ⟨w, hw, hwp⟩ := h.ring hz hmem
    exact ⟨_, hother hd hw, hwp⟩
  · intro q y hy
    obtain ⟨hq, z, hz, rfl⟩ := hcell hy
    refine ((h.sorted hz).sublist List.erase_sublist).imp_of_mem fun ha hb hlt => ?_
    have hne : ∀ {a}, a ∈ z.first.erase c → a ≠ c := fun ha => ((h.nodup hz).mem_erase_iff.mp ha).1
    rwa [hkey _ (hne ha), hkey _ (hne hb)]
  · intro d y hy
    obtain ⟨hd, z, hz, rfl⟩ := hcell hy
    have hsynced := h.synced hz
    exact hsynced
  · intro d y hy
    obtain ⟨hd, z, hz, rfl⟩ := hcell hy
    exact ⟨(List.length_erase_le).trans (h.counted hz).1, (h.counted hz).2⟩
  · intro d y q qy hy hq hqy _ _
    obtain ⟨hd, z, hz, rfl⟩ := hcell hy
    obtain ⟨hqc, w, hw, rfl⟩ := hcell hqy
    have hgreen := h.green hz hq hw (by simp) (by simp)
    exact hgreen
  · intro d hd
    rw [hcells]
    split_ifs with hdc
    · rfl
    · rw [h.fresh (hnext ▸ hd)]
      rfl

theorem Linked.not_mem_ring (h : Linked f none none) (hc : f.cells c = some x) (hd : f.cells d = some y)
    (hp : x.parent ≠ some d) : c ∉ y.first := by
  intro hmem
  obtain ⟨z, hz, hzp⟩ := h.ring hd hmem
  obtain rfl := Option.some.inj (hc.symm.trans hz)
  exact hp hzp

theorem Linked.not_mem_self (h : Linked f none none) (hx : f.cells c = some x) : c ∉ x.first :=
  h.not_mem_ring hx hx fun hcc => h.acyclic c (.single ⟨x, hx, hcc⟩)

theorem Linked.mem_ring_iff (h : Linked f none none) (hx : f.cells c = some x) (hp : x.parent = some p)
    (hy : f.cells d = some y) : c ∈ y.first ↔ p = d := by
  constructor
  · intro hmem
    obtain ⟨w, hw, hwd⟩ := h.ring hy hmem
    obtain rfl := Option.some.inj (hx.symm.trans hw)
    exact Option.some.inj (hp.symm.trans hwd)
  · rintro rfl
    obtain ⟨px, hpx, hmem⟩ := h.live hx hp (by simp)
    obtain rfl := Option.some.inj (hy.symm.trans hpx)
    exact hmem

theorem Linked.rings_disjoint (h : Linked f none none) (hx : f.cells c = some x) (hy : f.cells d = some y)
    (hcd : c ≠ d) {a : Nat} (ha : a ∈ x.first) : a ∉ y.first := by
  obtain ⟨w, hw, hwc⟩ := h.ring hx ha
  rw [h.mem_ring_iff hw hwc hy]
  exact hcd

theorem Linked.fresh_outside (h : Linked f none none) (hd : f.next ≤ d) (hx : f.cells c = some x) :
    d ≠ c ∧ d ∉ x.first := by
  have hlive : ∀ {z}, f.cells d ≠ some z := by
    intro z hz
    rw [h.fresh hd] at hz
    cases hz
  refine ⟨?_, fun hmem => ?_⟩
  · rintro rfl
    exact hlive hx
  · obtain ⟨z, hz, -⟩ := h.ring hx hmem
    exact hlive hz

/-- The handle `c` is freed: it leaves the ring it is in, and its parent keeps a
reference more than it has children. -/
structure Freed (f f' : Forest) (c : Nat) (x : Cell) : Prop where
  next : f'.next = f.next
  cells : ∀ d, f'.cells d = if d = c then none else (f.cells d).map fun y => { y with first := y.first.erase c }

theorem freed_root (h : Linked f none none) (hx : f.cells c = some x) (hp : x.parent = none) :
    Freed f (f.erase c) c x where
  next := rfl
  cells d := by
    rw [erase_cells]
    split_ifs with hd
    · rfl
    · cases hy : f.cells d with
      | none => rfl
      | some y =>
          have hmem : c ∉ y.first := h.not_mem_ring hx hy (by rw [hp]; simp)
          simp [List.erase_of_not_mem hmem]

theorem freed_child (h : Linked f none none) (hx : f.cells c = some x) (hp : x.parent = some p) :
    Freed f ((f.modify p fun px => { px with first := sllUnlink px.first c }).erase c) c x where
  next := rfl
  cells d := by
    rw [erase_cells, modify_cells]
    split_ifs with hd hdp
    · rfl
    · rfl
    · cases hy : f.cells d with
      | none => rfl
      | some y =>
          have hmem : c ∉ y.first := h.not_mem_ring hx hy (by rw [hp]; simp [Ne.symm hdp])
          simp [List.erase_of_not_mem hmem]

theorem Freed.survives (h : Freed f f' c x) : Survives f f' where
  next := h.next
  cells {d y'} hy' := by
    rw [h.cells] at hy'
    split_ifs at hy' with hd
    obtain ⟨y, hy, rfl⟩ := Option.map_eq_some_iff.mp hy'
    exact ⟨y, hy, rfl, rfl, rfl⟩

theorem Freed.held (h : Freed f f' c x) (hl : Linked f none none) (hx : f.cells c = some x) (d : Nat) :
    held f' d = if d = c then 0 else RedForestLinks.held f d + if some d = x.parent then 1 else 0 := by
  have hcell := h.cells d
  split_ifs at hcell ⊢ with hd hp
  · exact held_none hcell
  · obtain ⟨px, hpx, hmem⟩ := hl.live hx hp.symm (by simp)
    rw [hpx] at hcell
    have hlen := List.length_erase_of_mem hmem
    have hpos := List.length_pos_of_mem hmem
    have hcount := (hl.counted hpx).1
    rw [held_eq hcell, held_eq hpx]
    simp only [hlen]
    omega
  · cases hy : f.cells d with
    | none => rw [held_none hy, held_none (by rw [hcell, hy]; rfl)]
    | some y =>
        have hmem : c ∉ y.first := hl.not_mem_ring hx hy (Ne.symm hp)
        rw [hy] at hcell
        rw [held_eq hcell, held_eq hy]
        simp [List.erase_of_not_mem hmem]

theorem Freed.keeps (h : Freed f f' c x) (hl : Linked f none none) (hx : f.cells c = some x) (hd : d ≠ c)
    (hp : x.parent ≠ some d) : f'.cells d = f.cells d := by
  rw [h.cells, if_neg hd]
  cases hy : f.cells d with
  | none => rfl
  | some y => simp [List.erase_of_not_mem (hl.not_mem_ring hx hy hp)]

theorem Survives.chain (h : Survives f f') (hc : Chain f' c d) : Chain f c d := by
  refine hc.lift id fun a b hab => ?_
  obtain ⟨x', hx', hp⟩ := hab
  obtain ⟨x, hx, hpar, -, -⟩ := h.cells hx'
  exact ⟨x, hx, by rw [← hpar, hp]; rfl⟩

/-- A release takes one outside reference away, and with the last one the handle
and, in turn, its reference to its parent. -/
theorem release_spec {depth : Nat} (h : Linked f none none) (hheld : 0 < held f c)
    (hr : release depth f c = some f') : Linked f' none none ∧ Survives f f' ∧
      (∀ d, held f' d = held f d - if d = c then 1 else 0) ∧ ∀ d, ¬ Chain f c d → f'.cells d = f.cells d := by
  induction depth generalizing f c with
  | zero => cases hr
  | succ depth ih =>
      rw [release] at hr
      cases hx : f.cells c with
      | none => simp [hx] at hr
      | some x =>
          have hcount := hheld
          rw [held_eq hx] at hcount
          simp only [hx] at hr
          split_ifs at hr with hzero hmore hfirst
          · cases hr
            refine ⟨h.recount (· - 1) fun y hy => ?_, ⟨rfl, fun {d y'} hy' => ?_⟩, fun d => ?_, fun d hd => ?_⟩
            · obtain rfl := Option.some.inj (hx.symm.trans hy)
              omega
            · rw [modify_cells] at hy'
              split_ifs at hy' with hd
              · obtain ⟨y, hy, rfl⟩ := Option.map_eq_some_iff.mp hy'
                exact ⟨y, hy, rfl, rfl, rfl⟩
              · exact ⟨y', hy', rfl, rfl, rfl⟩
            · by_cases hd : d = c
              · subst hd
                rw [held_eq (modify_self hx _), held_eq hx, if_pos rfl]
                simp only
                omega
              · simp [held, modify_of_ne hd, hd]
            · have hdc : d ≠ c := fun hdc => hd (hdc ▸ .refl)
              exact modify_of_ne hdc _
          · simp only [ne_eq, not_not] at hfirst
            have hone : held f c = 1 := by
              rw [held_eq hx, hfirst]
              simp
              omega
            cases hp : x.parent with
            | none =>
                simp only [hp] at hr
                cases hr
                have hfree := freed_root h hx hp
                refine ⟨h.free hx hfirst hfree.cells rfl, hfree.survives, fun d => ?_, fun d hd => ?_⟩
                · rw [hfree.held h hx, hp]
                  by_cases hd : d = c <;> simp [hd, hone]
                · exact hfree.keeps h hx (fun hdc => hd (hdc ▸ .refl)) (by rw [hp]; simp)
            | some p =>
                simp only [hp] at hr
                have hfree := freed_child h hx hp
                have hlinked := h.free hx hfirst hfree.cells rfl
                have hpc : p ≠ c := fun hpc => h.acyclic c (.single ⟨x, hx, by rw [hp, hpc]⟩)
                have hheldp := hfree.held h hx p
                rw [if_neg hpc, hp, if_pos rfl] at hheldp
                obtain ⟨hl, hs, hhel, hkeep⟩ := ih hlinked (by omega) hr
                refine ⟨hl, hfree.survives.trans hs, fun d => ?_, fun d hd => ?_⟩
                · rw [hhel, hfree.held h hx, hp]
                  by_cases hd : d = c
                  · simp [hd, hone, Ne.symm hpc]
                  · by_cases hdp : d = p <;> simp [hd, hdp, hpc]
                · have hnotp : ¬ Chain f p d := fun hch => hd (.head ⟨x, hx, hp⟩ hch)
                  rw [hkeep d fun hch => hnotp (hfree.survives.chain hch)]
                  refine hfree.keeps h hx (fun hdc => hd (hdc ▸ .refl)) ?_
                  rw [hp]
                  rintro ⟨⟩
                  exact hnotp .refl

end Release

section Children

/-- Handles are only gained, and those there before keep their place and their
green element. -/
structure Grows (f f' : Forest) : Prop where
  cells : ∀ {d y}, f.cells d = some y → ∃ y', f'.cells d = some y' ∧ y'.parent = y.parent ∧ y'.index = y.index ∧
    y'.green = y.green ∧ y'.key = y.key
  roots : ∀ {d y'}, f.cells d = none → f'.cells d = some y' → y'.parent = none → y'.green.isToken = false

theorem Grows.refl (f : Forest) : Grows f f where
  cells h := ⟨_, h, rfl, rfl, rfl, rfl⟩
  roots hd hy := by
    rw [hd] at hy
    cases hy

theorem Grows.trans (h : Grows f f₁) (h' : Grows f₁ f₂) : Grows f f₂ where
  cells hy := by
    obtain ⟨y₁, hy₁, hp₁, hi₁, hg₁, hk₁⟩ := h.cells hy
    obtain ⟨y₂, hy₂, hp₂, hi₂, hg₂, hk₂⟩ := h'.cells hy₁
    exact ⟨y₂, hy₂, hp₂.trans hp₁, hi₂.trans hi₁, hg₂.trans hg₁, hk₂.trans hk₁⟩
  roots {d y₂} hd hy₂ hp := by
    cases hy₁ : f₁.cells d with
    | none => exact h'.roots hy₁ hy₂ hp
    | some y₁ =>
        obtain ⟨z, hz, hp', -, hg', -⟩ := h'.cells hy₁
        obtain rfl := Option.some.inj (hy₂.symm.trans hz)
        rw [hg']
        exact h.roots hd hy₁ (hp'.symm.trans hp)

theorem retain_spec (h : Linked f none none) (c : Nat) : Linked (retain f c) none none ∧ Grows f (retain f c) ∧
    ∀ d, held (retain f c) d = held f d + if d = c ∧ (f.cells d).isSome then 1 else 0 := by
  refine ⟨h.recount (· + 1) fun x hx => ?_, ⟨fun {d y} hy => ?_, fun {d y} hd hy => ?_⟩, fun d => ?_⟩
  · have := (h.counted hx).1
    omega
  · rw [retain, modify_cells, hy]
    by_cases hd : d = c <;> simp [hd]
  · rw [retain, modify_cells, hd] at hy
    simp at hy
  · cases hy : f.cells d with
    | none => rw [held_none hy, held_none (by simp [retain, modify_cells, hy])]; simp
    | some y =>
        have hcount := (h.counted hy).1
        by_cases hd : d = c
        · subst hd
          rw [held_eq hy, retain, held_eq (modify_self hy _)]
          simp
          omega
        · rw [held_eq hy, retain, held_eq (by rw [modify_of_ne hd, hy])]
          simp [hd]

/-- The handle `f.next` is made for the element `g` at position `i` of `p`, whose ring becomes `ring`. -/
structure Born (f f' : Forest) (p i : Nat) (g : Green) (px : Cell) (ring : List Nat) : Prop where
  next : f'.next = f.next + 1
  cells : ∀ d, f'.cells d =
    if d = p then some { px with refcount := px.refcount + 1, first := ring }
    else if d = f.next then some ⟨1, some p, i, g, i, []⟩ else f.cells d

theorem Linked.ne_next (h : Linked f none none) (hx : f.cells d = some x) : d ≠ f.next := by
  rintro rfl
  rw [h.fresh le_rfl] at hx
  cases hx

theorem Grows.place (hg : Grows f f') (hy : f.cells d = some y) : f'.keyOf d = f.keyOf d := by
  obtain ⟨y', hy', -, -, -, hk⟩ := hg.cells hy
  rw [keyOf_eq hy', keyOf_eq hy, hk]

theorem Grows.sorted (hg : Grows f f') (h : Linked f none none) (hx : f.cells d = some x) :
    x.first.Pairwise fun a b => f'.keyOf a < f'.keyOf b := by
  refine (h.sorted hx).imp_of_mem fun ha hb hlt => ?_
  obtain ⟨a, ha, -⟩ := h.ring hx ha
  obtain ⟨b, hb, -⟩ := h.ring hx hb
  rwa [hg.place ha, hg.place hb]

section Born

variable {ring : List Nat}

theorem Born.top (hb : Born f f' p i g px ring) :
    f'.cells p = some { px with refcount := px.refcount + 1, first := ring } := by
  rw [hb.cells, if_pos rfl]

theorem Born.self (hb : Born f f' p i g px ring) (hpn : p ≠ f.next) :
    f'.cells f.next = some ⟨1, some p, i, g, i, []⟩ := by
  rw [hb.cells, if_neg (Ne.symm hpn), if_pos rfl]

theorem Born.other (hb : Born f f' p i g px ring) (hdp : d ≠ p) (hdn : d ≠ f.next) : f'.cells d = f.cells d := by
  rw [hb.cells, if_neg hdp, if_neg hdn]

theorem Born.cases (hb : Born f f' p i g px ring) (hy : f'.cells d = some y) :
    (d = p ∧ y = { px with refcount := px.refcount + 1, first := ring }) ∨
      (d = f.next ∧ y = ⟨1, some p, i, g, i, []⟩) ∨ (d ≠ p ∧ d ≠ f.next ∧ f.cells d = some y) := by
  rw [hb.cells] at hy
  split_ifs at hy with hdp hdn
  · exact .inl ⟨hdp, (Option.some.inj hy).symm⟩
  · exact .inr (.inl ⟨hdn, (Option.some.inj hy).symm⟩)
  · exact .inr (.inr ⟨hdp, hdn, hy⟩)

theorem Born.grows (hb : Born f f' p i g px ring) (h : Linked f none none) (hpx : f.cells p = some px) :
    Grows f f' where
  cells {d y} hy := by
    by_cases hdp : d = p
    · subst hdp
      obtain rfl := Option.some.inj (hpx.symm.trans hy)
      exact ⟨_, hb.top, rfl, rfl, rfl, rfl⟩
    · exact ⟨y, by rw [hb.other hdp (h.ne_next hy), hy], rfl, rfl, rfl, rfl⟩
  roots {d y} hd hy hp := by
    obtain ⟨rfl, -⟩ | ⟨-, rfl⟩ | ⟨-, -, hold⟩ := hb.cases hy
    · rw [hd] at hpx
      cases hpx
    · cases hp
    · rw [hd] at hold
      cases hold

theorem Born.parent_green (hb : Born f f' p i g px ring) (h : Linked f none none) (hpx : f.cells p = some px)
    (hy : f'.cells d = some y) (hq : y.parent = some c) (hx : f'.cells c = some x) :
    ∃ z, f.cells c = some z ∧ x.green = z.green := by
  obtain ⟨rfl, rfl⟩ | ⟨rfl, rfl⟩ | ⟨-, -, hold⟩ := hb.cases hx
  · exact ⟨px, hpx, rfl⟩
  · obtain ⟨rfl, rfl⟩ | ⟨rfl, rfl⟩ | ⟨-, -, hold⟩ := hb.cases hy
    · obtain ⟨_, hz, -⟩ := h.live hpx hq (by simp)
      exact absurd rfl (h.ne_next hz)
    · exact absurd (Option.some.inj hq) (h.ne_next hpx)
    · obtain ⟨_, hz, -⟩ := h.live hold hq (by simp)
      exact absurd rfl (h.ne_next hz)
  · exact ⟨x, hold, rfl⟩

/-- The ring of the parent gains the new handle, in the order of the positions. -/
theorem Born.linked (hb : Born f f' p i g px ring) (h : Linked f none none) (hpx : f.cells p = some px)
    (hg : px.green.children[i]? = some g) (hperm : (f.next :: px.first).Perm ring)
    (hsorted : ring.Pairwise fun a b => f'.keyOf a < f'.keyOf b) : Linked f' none none := by
  have hpn : p ≠ f.next := h.ne_next hpx
  have hgrows : Grows f f' := hb.grows h hpx
  refine ⟨?_, ?_, ?_, ?_, ?_, ?_, ?_⟩
  · intro d y q hy hq _
    obtain ⟨rfl, rfl⟩ | ⟨rfl, rfl⟩ | ⟨-, -, hold⟩ := hb.cases hy
    · obtain ⟨qx, hqx, hmem⟩ := h.live hpx hq (by simp)
      have hqp : q ≠ d := fun hqp => h.acyclic d (.single ⟨px, hpx, by rw [hq, hqp]⟩)
      exact ⟨qx, by rw [hb.other hqp (h.ne_next hqx), hqx], hmem⟩
    · cases hq
      exact ⟨_, hb.top, hperm.mem_iff.mp List.mem_cons_self⟩
    · obtain ⟨qx, hqx, hmem⟩ := h.live hold hq (by simp)
      by_cases hqp : q = p
      · subst hqp
        obtain rfl := Option.some.inj (hpx.symm.trans hqx)
        exact ⟨_, hb.top, hperm.mem_iff.mp (List.mem_cons_of_mem _ hmem)⟩
      · exact ⟨qx, by rw [hb.other hqp (h.ne_next hqx), hqx], hmem⟩
  · intro q y d hy hmem
    obtain ⟨rfl, rfl⟩ | ⟨-, rfl⟩ | ⟨-, -, hold⟩ := hb.cases hy
    · rcases List.mem_cons.mp (hperm.mem_iff.mpr hmem) with rfl | hmem
      · exact ⟨_, hb.self hpn, rfl⟩
      · obtain ⟨z, hz, hzp⟩ := h.ring hpx hmem
        obtain ⟨z', hz', hp', -⟩ := hgrows.cells hz
        exact ⟨z', hz', hp'.trans hzp⟩
    · cases hmem
    · obtain ⟨z, hz, hzp⟩ := h.ring hold hmem
      obtain ⟨z', hz', hp', -⟩ := hgrows.cells hz
      exact ⟨z', hz', hp'.trans hzp⟩
  · intro q y hy
    obtain ⟨-, rfl⟩ | ⟨-, rfl⟩ | ⟨-, -, hold⟩ := hb.cases hy
    · exact hsorted
    · exact .nil
    · exact hgrows.sorted h hold
  · intro d y hy
    obtain ⟨-, rfl⟩ | ⟨-, rfl⟩ | ⟨-, -, hold⟩ := hb.cases hy
    · have hsynced := h.synced hpx
      exact hsynced
    · rfl
    · exact h.synced hold
  · intro d y hy
    obtain ⟨-, rfl⟩ | ⟨-, rfl⟩ | ⟨-, -, hold⟩ := hb.cases hy
    · have hcount := h.counted hpx
      simp only [← hperm.length_eq, List.length_cons]
      omega
    · simp
    · exact h.counted hold
  · intro d y q qy hy hq hqy _ _
    obtain ⟨z, hz, hzg⟩ := hb.parent_green h hpx hy hq hqy
    rw [hzg]
    obtain ⟨-, rfl⟩ | ⟨-, rfl⟩ | ⟨-, -, hold⟩ := hb.cases hy
    · have hgreen := h.green hpx hq hz (by simp) (by simp)
      exact hgreen
    · cases hq
      obtain rfl := Option.some.inj (hpx.symm.trans hz)
      exact hg
    · exact h.green hold hq hz (by simp) (by simp)
  · intro d hd
    have hnext := hb.next
    have hdp : d ≠ p := by
      rintro rfl
      rw [h.fresh (by omega)] at hpx
      cases hpx
    rw [hb.other hdp (by omega), h.fresh (by omega)]

theorem Born.held (hb : Born f f' p i g px ring) (h : Linked f none none) (hpx : f.cells p = some px)
    (hlen : ring.length = px.first.length + 1) (d : Nat) :
    RedForestLinks.held f' d = RedForestLinks.held f d + if d = f.next then 1 else 0 := by
  have hpn : p ≠ f.next := h.ne_next hpx
  by_cases hdp : d = p
  · subst hdp
    rw [held_eq hb.top, held_eq hpx, if_neg hpn]
    simp only [hlen]
    omega
  · by_cases hdn : d = f.next
    · subst hdn
      rw [held_eq (hb.self hpn), held_none (h.fresh le_rfl)]
      simp
    · simp [RedForestLinks.held, hb.other hdp hdn, hdn]

end Born

theorem newChild_spec {r : SllAdd} (h : Linked f none none) (hpx : f.cells p = some px)
    (hg : px.green.children[i]? = some g) (hlink : sllLink f px.first i = some r) (hnew : ∀ d, r ≠ .alreadyInSll d)
    (hb : Born f f' p i g px (sllAdd px.first f.next r)) :
    Linked f' none none ∧ Grows f f' ∧ ∀ d, held f' d = held f d + if d = f.next then 1 else 0 := by
  have hgrows : Grows f f' := hb.grows h hpx
  have hold : ∀ a ∈ px.first, f.keyOf a = f'.keyOf a := by
    intro a ha
    obtain ⟨y, hy, -⟩ := h.ring hpx ha
    exact (hgrows.place hy).symm
  have hplace : f'.keyOf f.next = i := keyOf_eq (hb.self (h.ne_next hpx))
  obtain ⟨hsorted, hperm⟩ :=
    @sllAdd_sorted f f.next f'.keyOf px.first r (hgrows.sorted h hpx) hold (by rw [hplace]; exact hlink) hnew
  have hlen : (sllAdd px.first f.next r).length = px.first.length + 1 := by
    rw [hperm.length_eq, List.length_cons]
  exact ⟨hb.linked h hpx hg hperm.symm hsorted, hgrows, hb.held h hpx hlen⟩

/-- A child handle is the one live at its position, or a new one there. -/
theorem childAt_spec (h : Linked f none none) (hpx : f.cells p = some px)
    (hg : px.green.children[i]? = some g) (hr : childAt f p g i = some (c, f')) :
    Linked f' none none ∧ Grows f f' ∧ (∀ d, held f' d = held f d + if d = c then 1 else 0) ∧
      ∃ x, f'.cells c = some x ∧ x.parent = some p ∧ x.index = i := by
  rw [childAt, hpx] at hr
  simp only at hr
  cases hlink : sllLink f px.first i with
  | none => simp [hlink] at hr
  | some r =>
      have hnewcase : ∀ r, (∀ d, r ≠ SllAdd.alreadyInSll d) → sllLink f px.first i = some r →
          (f.next, (f.alloc ⟨1, some p, i, g, i, []⟩).2.modify p fun px =>
            { px with refcount := px.refcount + 1, first := sllAdd px.first f.next r }) = (c, f') →
          Linked f' none none ∧ Grows f f' ∧ (∀ d, held f' d = held f d + if d = c then 1 else 0) ∧
            ∃ x, f'.cells c = some x ∧ x.parent = some p ∧ x.index = i := by
        rintro r hnew hlink ⟨⟩
        have hb : Born f ((f.alloc ⟨1, some p, i, g, i, []⟩).2.modify p fun px =>
            { px with refcount := px.refcount + 1, first := sllAdd px.first f.next r }) p i g px
            (sllAdd px.first f.next r) := by
          refine ⟨rfl, fun d => ?_⟩
          rw [modify_cells]
          split_ifs with hdp hdn
          · simp [Forest.alloc, hdp, h.ne_next hpx, hpx]
          · simp [Forest.alloc, hdn]
          · simp [Forest.alloc, hdn]
        obtain ⟨hl, hgrows, hheld⟩ := newChild_spec h hpx hg hlink hnew hb
        exact ⟨hl, hgrows, hheld, _, hb.self (h.ne_next hpx), rfl, rfl⟩
      cases r with
      | alreadyInSll d =>
          simp only [hlink] at hr
          cases hx : f.cells d with
          | none => simp [hx] at hr
          | some x =>
              simp only [hx] at hr
              split_ifs at hr with haddr
              cases hr
              obtain ⟨hmem, hkey⟩ := sllLink_found hlink
              obtain ⟨y, hy, hyp⟩ := h.ring hpx hmem
              obtain rfl := Option.some.inj (hx.symm.trans hy)
              obtain ⟨hl, hgrows, hheld⟩ := retain_spec h c
              refine ⟨hl, hgrows, fun d => ?_, _, modify_self hx _, hyp, ?_⟩
              · rw [show (f.modify c fun x => { x with refcount := x.refcount + 1 }) = retain f c from rfl, hheld]
                by_cases hd : d = c <;> simp [hd, hx]
              · rw [← h.synced hx, ← keyOf_eq hx, hkey]
      | emptyHead => exact hnewcase _ (by simp) hlink (by simpa [hlink, Forest.alloc] using hr)
      | smallerThanHead => exact hnewcase _ (by simp) hlink (by simpa [hlink, Forest.alloc] using hr)
      | smallerThanNotHead curr => exact hnewcase _ (by simp) hlink (by simpa [hlink, Forest.alloc] using hr)

theorem childOrToken_spec (h : Linked f none none) (hr : childOrToken f p i = some (c, f')) :
    Linked f' none none ∧ Grows f f' ∧ (∀ d, held f' d = held f d + if d = c then 1 else 0) ∧
      ∃ x, f'.cells c = some x ∧ x.parent = some p ∧ x.index = i := by
  rw [childOrToken] at hr
  cases hpx : f.cells p with
  | none => simp [hpx] at hr
  | some px =>
      simp only [hpx] at hr
      cases hg : px.green.children[i]? with
      | none => simp [hg] at hr
      | some g =>
          simp only [hg] at hr
          exact childAt_spec h hpx hg hr

theorem newRoot_spec (h : Linked f none none) (hg : g.isToken = false) :
    Linked (newRoot f g).2 none none ∧ Grows f (newRoot f g).2 ∧
      (newRoot f g).2.cells (newRoot f g).1 = some ⟨1, none, 0, g, 0, []⟩ ∧
      ∀ d, held (newRoot f g).2 d = held f d + if d = f.next then 1 else 0 := by
  have hcells : ∀ d, (newRoot f g).2.cells d = if d = f.next then some ⟨1, none, 0, g, 0, []⟩ else f.cells d :=
    fun d => rfl
  have hold : ∀ {d y}, f.cells d = some y → (newRoot f g).2.cells d = some y := fun hy => by
    rw [hcells, if_neg (h.ne_next hy), hy]
  have hcase : ∀ {d y}, (newRoot f g).2.cells d = some y →
      y = ⟨1, none, 0, g, 0, []⟩ ∨ f.cells d = some y := by
    intro d y hy
    rw [hcells] at hy
    split_ifs at hy
    · exact .inl (Option.some.inj hy).symm
    · exact .inr hy
  have hgrows : Grows f (newRoot f g).2 := by
    refine ⟨fun hy => ⟨_, hold hy, rfl, rfl, rfl, rfl⟩, fun {d y} hd hy _ => ?_⟩
    rcases hcase hy with rfl | hy
    · exact hg
    · rw [hd] at hy
      cases hy
  refine ⟨⟨?_, ?_, ?_, ?_, ?_, ?_, ?_⟩, hgrows, ?_, ?_⟩
  · intro d y q hy hq _
    rcases hcase hy with rfl | hy
    · cases hq
    · obtain ⟨qx, hqx, hmem⟩ := h.live hy hq (by simp)
      exact ⟨qx, hold hqx, hmem⟩
  · intro q y d hy hmem
    rcases hcase hy with rfl | hy
    · cases hmem
    · obtain ⟨x, hx, hxp⟩ := h.ring hy hmem
      exact ⟨x, hold hx, hxp⟩
  · intro q y hy
    rcases hcase hy with rfl | hy
    · exact .nil
    · exact hgrows.sorted h hy
  · intro d y hy
    rcases hcase hy with rfl | hy
    · rfl
    · exact h.synced hy
  · intro d y hy
    rcases hcase hy with rfl | hy
    · simp
    · exact h.counted hy
  · intro d y q qy hy hq hqy _ _
    rcases hcase hy with rfl | hy
    · cases hq
    · obtain ⟨qx, hqx, -⟩ := h.live hy hq (by simp)
      obtain rfl := Option.some.inj (hqy.symm.trans (hold hqx))
      exact h.green hy hq hqx (by simp) (by simp)
  · intro d hd
    have hlt : f.next < d := hd
    rw [hcells, if_neg (by omega), h.fresh (by omega)]
  · rw [hcells]
    exact if_pos rfl
  · intro d
    by_cases hd : d = f.next
    · subst hd
      rw [held_none (h.fresh le_rfl), held_eq (by rw [hcells, if_pos rfl])]
      simp
    · simp [held, hcells, hd]

end Children

end Ore.RedForestLinks
