import Ore.RedForestEdits

namespace Ore.RedForestSplices

open RedForest RedForestLinks RedForestEdits Relation

variable {f f' f₁ f₂ : Forest} {c d p start stop count depth : Nat} {nodes replace : List Nat} {x y px : Cell}
    {g : Green}

def RootNodes (f : Forest) : Prop := ∀ c x, f.cells c = some x → x.parent = none → x.green.isToken = false

theorem Grows.rootNodes (h : Grows f f') (hroots : RootNodes f) : RootNodes f' := by
  intro d y hy hp
  cases hx : f.cells d with
  | none => exact h.roots hx hy hp
  | some x =>
      obtain ⟨z, hz, hzp, -, hzg, -⟩ := h.cells hx
      obtain rfl := Option.some.inj (hy.symm.trans hz)
      rw [hzg]
      exact hroots d x hx (hzp.symm.trans hp)

theorem Survives.rootNodes (h : Survives f f') (hroots : RootNodes f) : RootNodes f' := by
  intro d y hy hp
  obtain ⟨x, hx, hxp, -, hxg⟩ := h.cells hy
  rw [hxg]
  exact hroots d x hx (hxp.symm.trans hp)

theorem live_of_held (h : 0 < held f c) : ∃ x, f.cells c = some x := by
  cases hx : f.cells c with
  | none => simp [held_none hx] at h
  | some x => exact ⟨x, rfl⟩

theorem Linked.held_token (h : Linked f none none) (hx : f.cells c = some x) (htok : x.green.isToken = true) :
    0 < held f c := by
  have hfirst : x.first = [] := by
    by_contra hne
    obtain ⟨d, hd⟩ := List.exists_mem_of_ne_nil _ hne
    obtain ⟨y, hy, hp⟩ := h.ring hx hd
    have hgreen := h.green hy hp hx (by simp) (by simp)
    cases hg : x.green with
    | token => simp [hg, Green.children] at hgreen
    | node => simp [hg, Green.isToken] at htok
  rw [held_eq hx, hfirst]
  exact (h.counted hx).2

section Edits

/-- What edits of the children of `p` leave alone: no handle comes to be above
`p`, and only those above it change their green element. -/
structure Edits (f f' : Forest) (p : Nat) : Prop where
  chain : ∀ {a}, Chain f' p a → Chain f p a
  cells : ∀ {e y}, f'.cells e = some y → ∃ z, f.cells e = some z ∧ (¬ Chain f p e → y.green = z.green) ∧
    (z.green.isToken = false → y.green.isToken = false)

theorem Edits.refl (f : Forest) (p : Nat) : Edits f f p where
  chain h := h
  cells h := ⟨_, h, fun _ => rfl, fun h => h⟩

theorem Edits.trans (h : Edits f f₁ p) (h' : Edits f₁ f₂ p) : Edits f f₂ p where
  chain hc := h.chain (h'.chain hc)
  cells hy := by
    obtain ⟨y₁, hy₁, hg₁, hn₁⟩ := h'.cells hy
    obtain ⟨z, hz, hg, hn⟩ := h.cells hy₁
    exact ⟨z, hz, fun hc => (hg₁ fun h₁ => hc (h.chain h₁)).trans (hg hc), fun h => hn₁ (hn h)⟩

theorem Survives.edits (h : Survives f f') (p : Nat) : Edits f f' p where
  chain := h.chain
  cells hy := by
    obtain ⟨z, hz, -, -, hg⟩ := h.cells hy
    exact ⟨z, hz, fun _ => hg, fun hn => by rw [hg, hn]⟩

/-- Handles off the way up may move. -/
theorem chain_of_moved (hcells : ∀ {e y}, f'.cells e = some y → ∃ z, f.cells e = some z ∧ (e ≠ c → y.parent = z.parent))
    (hc : ¬ Chain f p c) {a : Nat} (h : Chain f' p a) : Chain f p a := by
  induction h with
  | refl => exact .refl
  | tail _ hpar ih =>
      obtain ⟨y, hy, hyb⟩ := hpar
      obtain ⟨z, hz, hzp⟩ := hcells hy
      exact .tail ih ⟨z, hz, by rw [← hzp fun hac => hc (hac ▸ ih), hyb]⟩

theorem Detached.edits (h : Detached f f' c p x) (hc : ¬ Chain f p c) : Edits f f' p where
  chain := chain_of_moved (fun hy => (h.other hy).imp fun _ hz => ⟨hz.1, hz.2.1⟩) hc
  cells hy := (h.other hy).imp fun _ hz => ⟨hz.1, hz.2.2⟩

theorem Attached.edits (h : Attached f f' c p) (hc : ¬ Chain f p c) : Edits f f' p where
  chain := chain_of_moved (fun hy => (h.other hy).imp fun _ hz => ⟨hz.1, hz.2.1⟩) hc
  cells hy := (h.other hy).imp fun _ hz => ⟨hz.1, hz.2.2⟩

end Edits

section Splice

/-- The snapshot holds the handles of a range of children. -/
theorem snapshot_spec (h : Linked f none none) (hr : snapshot f p start count = some (nodes, f')) :
    Linked f' none none ∧ Grows f f' ∧ (∀ d, held f' d = held f d + nodes.count d) ∧
      (∀ c ∈ nodes, ∃ x, f'.cells c = some x ∧ x.parent = some p ∧ start ≤ x.index ∧ x.index < start + count) ∧
      ∀ i, start ≤ i → i < start + count → ∃ c ∈ nodes, ∃ x, f'.cells c = some x ∧ x.parent = some p ∧ x.index = i := by
  induction count generalizing f start nodes with
  | zero =>
      cases hr
      exact ⟨h, .refl _, fun _ => rfl, by simp, fun i hi hlt => absurd hlt (by omega)⟩
  | succ count ih =>
      rw [snapshot] at hr
      obtain ⟨⟨c, f₁⟩, hchild, hr⟩ := Option.bind_eq_some_iff.mp hr
      obtain ⟨⟨cs, f₂⟩, hsnap, hcs⟩ := Option.map_eq_some_iff.mp hr
      cases hcs
      obtain ⟨hl, hgrows, hheld, x, hx, hp, hi⟩ := childOrToken_spec h hchild
      obtain ⟨hl', hgrows', hheld', hmem, hall⟩ := ih hl hsnap
      obtain ⟨y, hy, hyp, hyi, -, -⟩ := hgrows'.cells hx
      refine ⟨hl', hgrows.trans hgrows', fun d => ?_, fun d hd => ?_, fun i hle hlt => ?_⟩
      · rw [hheld', hheld, List.count_cons]
        by_cases hd : d = c
        · simp [hd]
          omega
        · simp [hd, Ne.symm hd]
      · rcases List.mem_cons.mp hd with rfl | hd
        · exact ⟨y, hy, hyp.trans hp, by omega, by omega⟩
        · obtain ⟨z, hz, hzp, hle, hlt⟩ := hmem d hd
          exact ⟨z, hz, hzp, by omega, by omega⟩
      · rcases Nat.eq_or_lt_of_le hle with rfl | hlt'
        · exact ⟨c, List.mem_cons_self, y, hy, hyp.trans hp, hyi.trans hi⟩
        · obtain ⟨d, hd, hplace⟩ := hall i hlt' (by omega)
          exact ⟨d, List.mem_cons_of_mem _ hd, hplace⟩

theorem detachAll_spec (h : Linked f none none)
    (hnodes : ∀ c ∈ nodes, 0 < held f c ∧ ∀ x, f.cells c = some x → x.parent = none ∨ x.parent = some p)
    (hr : detachAll depth f nodes = some f') :
    Linked f' none none ∧ (∀ e, held f' e = held f e) ∧ Edits f f' p ∧
      ∀ e y, f'.cells e = some y → ∃ z, f.cells e = some z ∧ (e ∉ nodes → y.parent = z.parent) ∧
        (e ∈ nodes → y.parent = none) := by
  induction nodes generalizing f with
  | nil =>
      cases hr
      exact ⟨h, fun _ => rfl, .refl _ p, fun e y hy => ⟨y, hy, fun _ => rfl, by simp⟩⟩
  | cons c nodes ih =>
      rw [detachAll, List.foldlM_cons] at hr
      obtain ⟨f₁, hdetach, hr⟩ := Option.bind_eq_some_iff.mp hr
      obtain ⟨hheldc, hpar⟩ := hnodes c List.mem_cons_self
      obtain ⟨x, hx⟩ := live_of_held hheldc
      have hone : Linked f₁ none none ∧ (∀ e, held f₁ e = held f e) ∧ Edits f f₁ p ∧
          ∀ e y, f₁.cells e = some y → ∃ z, f.cells e = some z ∧ (e ≠ c → y.parent = z.parent) ∧
            (e = c → y.parent = none) := by
        rcases hpar x hx with hroot | hp
        · rw [detachCommon, hx] at hdetach
          simp only [hroot] at hdetach
          cases hdetach
          refine ⟨h, fun _ => rfl, .refl f p, fun e y hy => ⟨y, hy, fun _ => rfl, ?_⟩⟩
          rintro rfl
          obtain rfl := Option.some.inj (hx.symm.trans hy)
          exact hroot
        · have hd := detach_spec h hx hp hdetach
          refine ⟨hd.linked, hd.held, Detached.edits hd (h.not_chain_child ⟨x, hx, hp⟩), fun e y hy => ?_⟩
          obtain ⟨z, hz, hzp, -⟩ := hd.other hy
          refine ⟨z, hz, hzp, ?_⟩
          rintro rfl
          obtain ⟨w, hw, hwp, -⟩ := hd.node
          obtain rfl := Option.some.inj (hy.symm.trans hw)
          exact hwp
      obtain ⟨hl, hheld, hedit, hcells⟩ := hone
      have hrest : ∀ d ∈ nodes, 0 < held f₁ d ∧ ∀ x, f₁.cells d = some x → x.parent = none ∨ x.parent = some p := by
        intro d hd
        obtain ⟨hpos, hdpar⟩ := hnodes d (List.mem_cons_of_mem _ hd)
        refine ⟨by rw [hheld]; exact hpos, fun y hy => ?_⟩
        obtain ⟨z, hz, hkeep, hgone⟩ := hcells d y hy
        by_cases hdc : d = c
        · exact .inl (hgone hdc)
        · rw [hkeep hdc]
          exact hdpar z hz
      obtain ⟨hl', hheld', hedit', hcells'⟩ := ih hl hrest hr
      refine ⟨hl', fun e => (hheld' e).trans (hheld e), hedit.trans hedit', fun e y hy => ?_⟩
      obtain ⟨y₁, hy₁, hkeep, hgone⟩ := hcells' e y hy
      obtain ⟨z, hz, hkeep₁, hgone₁⟩ := hcells e y₁ hy₁
      refine ⟨z, hz, fun he => ?_, fun he => ?_⟩
      · simp only [List.mem_cons, not_or] at he
        exact (hkeep he.2).trans (hkeep₁ he.1)
      · by_cases hmem : e ∈ nodes
        · exact hgone hmem
        · exact (hkeep hmem).trans (hgone₁ ((List.mem_cons.mp he).resolve_right hmem))

theorem releaseAll_spec (h : Linked f none none) (hheld : ∀ d, nodes.count d ≤ held f d)
    (hr : releaseAll depth f nodes = some f') :
    Linked f' none none ∧ Survives f f' ∧ ∀ d, held f' d + nodes.count d = held f d := by
  induction nodes generalizing f with
  | nil =>
      cases hr
      exact ⟨h, ⟨rfl, fun hy => ⟨_, hy, rfl, rfl, rfl⟩⟩, fun _ => rfl⟩
  | cons c nodes ih =>
      rw [releaseAll, List.foldlM_cons] at hr
      obtain ⟨f₁, hrel, hr⟩ := Option.bind_eq_some_iff.mp hr
      have hcount := hheld c
      rw [List.count_cons_self] at hcount
      obtain ⟨hl, hs, hheld₁, -⟩ := release_spec h (by omega) hrel
      have hstep : ∀ d, (c :: nodes).count d = nodes.count d + if d = c then 1 else 0 := by
        intro d
        by_cases hd : d = c
        · simp [hd]
        · simp [hd, Ne.symm hd]
      have hrest : ∀ d, nodes.count d ≤ held f₁ d := by
        intro d
        have h₁ := hheld₁ d
        have h₃ := hheld d
        rw [hstep] at h₃
        split_ifs at h₁ h₃ <;> omega
      obtain ⟨hl', hs', hheld'⟩ := ih hl hrest hr
      refine ⟨hl', hs.trans hs', fun d => ?_⟩
      have h₁ := hheld₁ d
      have h₂ := hheld' d
      have h₃ := hheld d
      rw [hstep] at h₃ ⊢
      split_ifs at h₁ h₃ ⊢ <;> omega

theorem attachAll_spec (h : Linked f none none) (hreplace : ∀ c ∈ replace, ¬ Chain f p c)
    (hr : attachAll depth f p start replace = some f') :
    Linked f' none none ∧ (∀ e, held f' e = held f e) ∧ Edits f f' p ∧
      ∀ e y, f'.cells e = some y → ∃ z, f.cells e = some z ∧ (e ∉ replace → y.parent = z.parent) ∧
        (e ∈ replace → y.parent = some p) := by
  induction replace generalizing f start with
  | nil =>
      cases hr
      exact ⟨h, fun _ => rfl, .refl _ p, fun e y hy => ⟨y, hy, fun _ => rfl, by simp⟩⟩
  | cons c replace ih =>
      rw [attachAll] at hr
      obtain ⟨f₁, hattach, hr⟩ := Option.bind_eq_some_iff.mp hr
      have hc := hreplace c List.mem_cons_self
      have ha := attach_spec h hc hattach
      have hedit := Attached.edits ha hc
      obtain ⟨hl', hheld', hedit', hcells'⟩ :=
        ih ha.linked (fun d hd hch => hreplace d (List.mem_cons_of_mem _ hd) (hedit.chain hch)) hr
      refine ⟨hl', fun e => (hheld' e).trans (ha.held e), hedit.trans hedit', fun e y hy => ?_⟩
      obtain ⟨y₁, hy₁, hkeep, hput⟩ := hcells' e y hy
      obtain ⟨z, hz, hkeep₁, -⟩ := ha.other hy₁
      refine ⟨z, hz, fun he => ?_, fun he => ?_⟩
      · simp only [List.mem_cons, not_or] at he
        exact (hkeep he.2).trans (hkeep₁ he.1)
      · by_cases hmem : e ∈ replace
        · exact hput hmem
        · obtain rfl := (List.mem_cons.mp he).resolve_right hmem
          obtain ⟨w, hw, hwp⟩ := ha.node
          obtain rfl := Option.some.inj (hy₁.symm.trans hw)
          exact (hkeep hmem).trans hwp

theorem Grows.chain (h : Grows f f') (hl : Linked f none none) (hpx : f.cells p = some px) {a : Nat}
    (hc : Chain f' p a) : Chain f p a := by
  induction hc with
  | refl => exact .refl
  | tail _ hpar ih =>
      obtain ⟨y, hy, hyb⟩ := hpar
      obtain ⟨x, hx⟩ := hl.chain_live hpx ih
      obtain ⟨z, hz, hzp, -⟩ := h.cells hx
      obtain rfl := Option.some.inj (hy.symm.trans hz)
      exact .tail ih ⟨x, hx, hzp.symm.trans hyb⟩

/-- What a splice does, by way of the forest in which the handles of the range
are all there. -/
structure Spliced (f f₁ f' : Forest) (p start stop : Nat) (nodes replace : List Nat) : Prop where
  grows : Grows f f₁
  before : Linked f₁ none none
  mem : ∀ c ∈ nodes, ∃ x, f₁.cells c = some x ∧ x.parent = some p ∧ start ≤ x.index ∧ x.index < stop
  all : ∀ i, start ≤ i → i < stop → ∃ c ∈ nodes, ∃ x, f₁.cells c = some x ∧ x.parent = some p ∧ x.index = i
  linked : Linked f' none none
  held : ∀ e, held f' e = held f e
  edits : Edits f₁ f' p
  put : ∀ e y, f'.cells e = some y → e ∈ replace → y.parent = some p
  back : ∀ e y, f'.cells e = some y → e ∉ replace → ∃ z, f₁.cells e = some z ∧ (e ∉ nodes → y.parent = z.parent) ∧
    (e ∈ nodes → y.parent = none)

theorem splice_phases (h : Linked f none none) (hreplace : ∀ c ∈ replace, ¬ Chain f p c)
    (hr : syntaxNodeSpliceChildren depth f p start stop replace = some f') :
    ∃ f₁ nodes, Spliced f f₁ f' p start stop nodes replace := by
  rw [syntaxNodeSpliceChildren] at hr
  cases hpx : f.cells p with
  | none => simp [hpx] at hr
  | some px =>
      simp only [hpx] at hr
      split_ifs at hr with hguard
      obtain ⟨⟨nodes, f₁⟩, hsnap, hr⟩ := Option.bind_eq_some_iff.mp hr
      obtain ⟨f₂, hdetach, hr⟩ := Option.bind_eq_some_iff.mp hr
      obtain ⟨f₃, hrelease, hattach⟩ := Option.bind_eq_some_iff.mp hr
      simp only at hdetach hrelease
      obtain ⟨hl₁, hgrows, hheld₁, hmem, hall⟩ := snapshot_spec h hsnap
      have hcount : start + (stop - start) = stop := by omega
      rw [hcount] at hmem hall
      have hheldnodes : ∀ c ∈ nodes.reverse, 0 < held f₁ c ∧
          ∀ x, f₁.cells c = some x → x.parent = none ∨ x.parent = some p := by
        intro c hc
        rw [List.mem_reverse] at hc
        refine ⟨?_, fun x hx => ?_⟩
        · rw [hheld₁]
          have := List.count_pos_iff.mpr hc
          omega
        · obtain ⟨z, hz, hzp, -⟩ := hmem c hc
          obtain rfl := Option.some.inj (hx.symm.trans hz)
          exact .inr hzp
      obtain ⟨hl₂, hheld₂, hedit₂, hcells₂⟩ := detachAll_spec hl₁ hheldnodes hdetach
      obtain ⟨hl₃, hs, hheld₃⟩ := releaseAll_spec hl₂ (fun d => by rw [hheld₂, hheld₁]; omega) hrelease
      have hedit₃ := hedit₂.trans (Survives.edits hs p)
      obtain ⟨hl₄, hheld₄, hedit₄, hcells₄⟩ := attachAll_spec hl₃
        (fun c hc hch => hreplace c hc (Grows.chain hgrows h hpx (hedit₃.chain hch))) hattach
      refine ⟨f₁, nodes, hgrows, hl₁, hmem, hall, hl₄, fun e => ?_, hedit₃.trans hedit₄, fun e y hy he => ?_,
        fun e y hy he => ?_⟩
      · have h₃ := hheld₃ e
        rw [hheld₂, hheld₁] at h₃
        rw [hheld₄]
        omega
      · obtain ⟨_, -, -, hput⟩ := hcells₄ e y hy
        exact hput he
      · obtain ⟨y₃, hy₃, hkeep₄, -⟩ := hcells₄ e y hy
        obtain ⟨y₂, hy₂, hp₃, -⟩ := hs.cells hy₃
        obtain ⟨z, hz, hkeep, hgone⟩ := hcells₂ e y₂ hy₂
        simp only [List.mem_reverse] at hkeep hgone
        have hp₂ := (hkeep₄ he).trans hp₃
        exact ⟨z, hz, fun hn => hp₂.trans (hkeep hn), fun hn => hp₂.trans (hgone hn)⟩

theorem mem_of_position (h : Linked f none none)
    (hall : ∀ i, start ≤ i → i < stop → ∃ c ∈ nodes, ∃ x, f.cells c = some x ∧ x.parent = some p ∧ x.index = i)
    (hx : f.cells c = some x) (hp : x.parent = some p) (hle : start ≤ x.index) (hlt : x.index < stop) : c ∈ nodes := by
  obtain ⟨d, hd, z, hz, hzp, hzi⟩ := hall x.index hle hlt
  obtain ⟨qx, hqx, hcmem⟩ := h.live hx hp (by simp)
  obtain ⟨rx, hrx, hdmem⟩ := h.live hz hzp (by simp)
  obtain rfl := Option.some.inj (hqx.symm.trans hrx)
  by_contra hc
  refine h.index_ne hqx hcmem hdmem (fun hcd => hc (hcd ▸ hd)) hx hz hzi.symm

theorem Spliced.rootNodes {nodes : List Nat} (hs : Spliced f f₁ f' p start stop nodes replace) (hroots : RootNodes f)
    (htokens : ∀ c x, f.cells c = some x → x.parent = some p → start ≤ x.index → x.index < stop →
      x.green.isToken = true → c ∈ replace) : RootNodes f' := by
  intro e y hy hroot
  have he : e ∉ replace := by
    intro he
    rw [hs.put e y hy he] at hroot
    cases hroot
  obtain ⟨z, hz, hkeep, -⟩ := hs.back e y hy he
  obtain ⟨w, hw, -, hnode⟩ := hs.edits.cells hy
  obtain rfl := Option.some.inj (hz.symm.trans hw)
  by_cases hn : e ∈ nodes
  · by_contra htok
    rw [Bool.not_eq_false] at htok
    -- The token is held from outside, so it was there before the snapshot.
    have hpos := Linked.held_token hs.linked hy htok
    rw [hs.held] at hpos
    obtain ⟨x, hx⟩ := live_of_held hpos
    obtain ⟨x₁, hx₁, hxp, hxi, hxg, -⟩ := hs.grows.cells hx
    obtain rfl := Option.some.inj (hz.symm.trans hx₁)
    obtain ⟨x₂, hx₂, hp₂, hle, hlt⟩ := hs.mem e hn
    obtain rfl := Option.some.inj (hz.symm.trans hx₂)
    refine he (htokens e x hx (hxp.symm.trans hp₂) (by omega) (by omega) ?_)
    rw [← hxg]
    by_contra hzt
    rw [hnode (by simpa using hzt)] at htok
    cases htok
  · exact hnode (Grows.rootNodes hs.grows hroots e z hz ((hkeep hn).symm.trans hroot))

theorem splice_spec (h : Linked f none none) (hroots : RootNodes f) (hreplace : ∀ c ∈ replace, ¬ Chain f p c)
    (htokens : ∀ c x, f.cells c = some x → x.parent = some p → start ≤ x.index → x.index < stop →
      x.green.isToken = true → c ∈ replace)
    (hr : syntaxNodeSpliceChildren depth f p start stop replace = some f') :
    Linked f' none none ∧ RootNodes f' ∧ (∀ e, held f' e = held f e) ∧
      ∀ c x y, f.cells c = some x → x.parent = some p → start ≤ x.index → x.index < stop → c ∉ replace →
        f'.cells c = some y → y.parent = none ∧ y.green = x.green := by
  obtain ⟨f₁, nodes, hs⟩ := splice_phases h hreplace hr
  refine ⟨hs.linked, hs.rootNodes hroots htokens, hs.held, fun c x y hx hp hle hlt hc hy => ?_⟩
  obtain ⟨x₁, hx₁, hp₁, hi₁, hg₁, -⟩ := hs.grows.cells hx
  have hmem := mem_of_position hs.before hs.all hx₁ (hp₁.trans hp) (by omega) (by omega)
  obtain ⟨w, hw, -, hgone⟩ := hs.back c y hy hc
  obtain ⟨v, hv, hgreen, -⟩ := hs.edits.cells hy
  obtain rfl := Option.some.inj (hx₁.symm.trans hv)
  have hbelow := hs.before.not_chain_child ⟨x₁, hx₁, hp₁.trans hp⟩
  exact ⟨hgone hmem, (hgreen hbelow).trans hg₁⟩

end Splice

section Replace

/-- A node takes another green element that fits the live handles of its children. -/
theorem refit_spec (h : Linked f none none)
    (hfits : ∀ d y, f.cells d = some y → y.parent = some c → g.children[y.index]? = some y.green)
    (hr : respine depth f c g = some f') : Linked f' none none ∧ ∀ e, held f' e = held f e := by
  have hpaint := respine_regreened hr
  refine ⟨respine_linked (h.map (modify_map f c _) le_rfl (fun d x => ?_) (fun d x hx => ?_) ?_) (by simp) hr,
    hpaint.held⟩
  · split_ifs <;> exact ⟨rfl, rfl, rfl, rfl⟩
  · split_ifs <;> exact h.counted hx
  · intro d x q qx hx hq hqx hloose _
    have hdc : d ≠ c := fun hdc => hloose (by rw [hdc])
    rw [if_neg hdc]
    split_ifs with hqc
    · subst hqc
      exact hfits d x hx hq
    · exact h.green hx hq hqx (by simp) (by simp)

theorem respine_rootNodes (hroots : RootNodes f) (hg : g.isToken = false) (hr : respine depth f c g = some f') :
    RootNodes f' := by
  intro e y hy hroot
  obtain ⟨x, hx, hyx, -⟩ := (respine_regreened hr).of hy
  have hxroot : x.parent = none := by
    rw [hyx] at hroot
    exact hroot
  exact respine_nodes hr hg hx (hroots e x hx hxroot) hy

theorem replaceNode_spec {up : Green} (h : Linked f none none)
    (hfits : ∀ d y, f.cells d = some y → y.parent = some c → g.children[y.index]? = some y.green)
    (hr : syntaxNodeReplaceWith depth f c g = some (up, f')) :
    Linked f' none none ∧ (∀ e, held f' e = held f e) ∧ (RootNodes f → g.isToken = false → RootNodes f') := by
  rw [syntaxNodeReplaceWith] at hr
  cases hx : f.cells c with
  | none => simp [hx] at hr
  | some x =>
      simp only [hx] at hr
      split_ifs at hr
      obtain ⟨f₁, hspine, hr⟩ := Option.bind_eq_some_iff.mp hr
      obtain ⟨_, -, hup⟩ := Option.map_eq_some_iff.mp hr
      cases hup
      obtain ⟨hl, hheld⟩ := refit_spec h hfits hspine
      exact ⟨hl, hheld, fun hroots hg => respine_rootNodes hroots hg hspine⟩

theorem replaceToken_spec {up : Green} (h : Linked f none none) (hx : f.cells c = some x)
    (hr : syntaxTokenReplaceWith depth f c x.green = some (up, f')) :
    Linked f' none none ∧ (∀ e, held f' e = held f e) ∧ (RootNodes f → RootNodes f') := by
  rw [syntaxTokenReplaceWith, hx] at hr
  simp only at hr
  cases hp : x.parent with
  | none => simp [hp] at hr
  | some p =>
      cases hpx : f.cells p with
      | none => simp [hp, hpx] at hr
      | some px =>
          simp only [hp, hpx, if_true] at hr
          obtain ⟨⟨green, f₁⟩, hgreen, hr⟩ := Option.bind_eq_some_iff.mp hr
          obtain ⟨f₂, hspine, hr⟩ := Option.bind_eq_some_iff.mp hr
          obtain ⟨_, -, hup⟩ := Option.map_eq_some_iff.mp hr
          cases hup
          rw [greenNodeReplaceChild] at hgreen
          split_ifs at hgreen with hidx
          cases hgreen
          change respine depth { f with nextGreen := f.nextGreen + 1 } p _ = some _ at hspine
          have hl₁ : Linked { f with nextGreen := f.nextGreen + 1 } none none :=
            h.map (k := fun _ => id) (fun d => by simp) le_rfl (fun _ _ => ⟨rfl, rfl, rfl, rfl⟩)
              (fun d y hy => h.counted hy) fun d y q qy hy hq hqy _ _ => h.green hy hq hqy (by simp) (by simp)
          have hsame : px.green.children.set x.index x.green = px.green.children := by
            have hat := h.green hx hp hpx (by simp) (by simp)
            rw [List.getElem?_eq_getElem hidx] at hat
            rw [← Option.some.inj hat, List.set_getElem_self]
          have hfits : ∀ d y, f.cells d = some y → y.parent = some p →
              (px.green.children.set x.index x.green)[y.index]? = some y.green := by
            intro d y hy hyp
            rw [hsame]
            exact h.green hy hyp hpx (by simp) (by simp)
          obtain ⟨hl, hheld⟩ := refit_spec hl₁ hfits hspine
          refine ⟨hl, hheld, fun hroots => ?_⟩
          have hroots₁ : RootNodes { f with nextGreen := f.nextGreen + 1 } := hroots
          exact respine_rootNodes hroots₁ rfl hspine

end Replace

section Clone

/-- A clone holds the element of the handle it is made from. -/
theorem clone_spec (h : Linked f none none) (n : Fixed g) (hr : cloneForUpdate depth n f = some (c, f')) :
    Linked f' none none ∧ (RootNodes f → RootNodes f') ∧ (∀ d, held f' d = held f d + if d = c then 1 else 0) ∧
      ∃ x, f'.cells c = some x ∧ x.green = g := by
  induction n generalizing c f' with
  | root addr kind children =>
      rw [cloneForUpdate] at hr
      cases hr
      obtain ⟨hl, hgrows, hcell, hheld⟩ := newRoot_spec h (g := .node addr kind children) rfl
      exact ⟨hl, Grows.rootNodes hgrows, hheld, _, hcell, rfl⟩
  | child up index green hat ih =>
      rw [cloneForUpdate] at hr
      obtain ⟨⟨p, f₁⟩, hup, hr⟩ := Option.bind_eq_some_iff.mp hr
      obtain ⟨⟨d, f₂⟩, hchild, hr⟩ := Option.bind_eq_some_iff.mp hr
      obtain ⟨f₃, hrelease, hr⟩ := Option.map_eq_some_iff.mp hr
      cases hr
      obtain ⟨hl₁, hroots₁, hheld₁, px, hpx, hpg⟩ := ih hup
      obtain ⟨hl₂, hgrows, hheld₂, x, hx, hxp, hxi⟩ := childAt_spec hl₁ hpx (by rw [hpg]; exact hat) hchild
      have hheldp : 0 < held f₂ p := by
        rw [hheld₂, hheld₁, if_pos rfl]
        omega
      obtain ⟨hl₃, hs, hheld₃, -⟩ := release_spec hl₂ hheldp hrelease
      have hheld : ∀ e, held f' e = held f e + if e = c then 1 else 0 := by
        intro e
        rw [hheld₃, hheld₂, hheld₁]
        split_ifs <;> omega
      obtain ⟨y, hy⟩ := live_of_held (f := f') (c := c) (by rw [hheld, if_pos rfl]; omega)
      obtain ⟨z, hz, -, -, hyg⟩ := hs.cells hy
      obtain rfl := Option.some.inj (hx.symm.trans hz)
      obtain ⟨qx, hqx, -, -, hqg, -⟩ := hgrows.cells hpx
      have hgreen := hl₂.green hx hxp hqx (by simp) (by simp)
      rw [hqg, hpg, hxi, hat] at hgreen
      exact ⟨hl₃, fun hroots => Survives.rootNodes hs (Grows.rootNodes hgrows (hroots₁ hroots)), hheld, y, hy,
        hyg.trans (Option.some.inj hgreen).symm⟩

end Clone

end Ore.RedForestSplices
