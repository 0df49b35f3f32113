import Ore.GreenCacheTable

namespace Ore.GreenCacheSteps

open SyntaxKinds GreenTree GreenCache GreenCacheTable RefCounts
open WorkspaceModel (Bytes)

variable {η : Type} {H : Hashing η}

/-- The references of the cache itself: one to each object in a bucket. -/
def base (obj : ElemRef → Option (GreenObj η)) (r : ElemRef) : Nat :=
  ((obj r).map fun o => if o.refs.length ≤ dedupMaxChildren then 1 else 0).getD 0

/-- The counts are those of the references, and the buckets hold what they
should. -/
structure Interned (H : Hashing η) (w : World η) (rank : ElemRef → Nat) (holders : Finset ElemRef) : Prop where
  counted : Counted GreenObj.refs w.heap.store rank w.heap.allocs holders (plus (base w.heap.store.obj) w.owned)
  whole : ∀ r o, w.heap.store.obj r = some o → r ∈ holders
  tabled : Tabled H w.heap.store.obj w.cache

variable {w w' : World η} {rank : ElemRef → Nat} {holders : Finset ElemRef} {s s' : GreenStore η} {n addr : Nat}
    {kind : SyntaxKind}
  {text : Bytes} {children l : List ElemRef} {held : ElemRef → Nat} {r : ElemRef} {o : GreenObj η}

theorem base_update_of_ne {obj : ElemRef → Option (GreenObj η)} {r' : ElemRef} (h : r' ≠ r) :
    base (Function.update obj r (some o)) r' = base obj r' := by
  rw [base, base, Function.update_of_ne h]

theorem base_update_self (obj : ElemRef → Option (GreenObj η)) (r : ElemRef) (o : GreenObj η) :
    base (Function.update obj r (some o)) r = if o.refs.length ≤ dedupMaxChildren then 1 else 0 := by
  rw [base, Function.update_self]
  rfl

theorem greenRetain_eq (hobj : s.obj r = some o) (hroom : s.count r + 1 < 2 ^ 32) :
    greenRetain s r = some (retain s r) := by
  rw [greenRetain, hobj, Option.map_some, Nat.mod_eq_of_lt hroom]
  rfl

theorem retainAll_spec (h : Counted GreenObj.refs s rank n holders (plus held l)) (hmem : ∀ c ∈ children, c ∈ holders)
    (hroom : ∀ c ∈ children, s.count c + children.count c < 2 ^ 32) :
    ∃ s', children.foldlM greenRetain s = some s' ∧ Counted GreenObj.refs s' rank n holders
      (plus held (children ++ l)) ∧ s'.obj = s.obj := by
  induction children generalizing s l with
  | nil => exact ⟨s, rfl, h, rfl⟩
  | cons c cs ih =>
      have hc := hmem c (List.mem_cons_self ..)
      obtain ⟨o, ho⟩ := Option.isSome_iff_exists.mp (h.live c hc)
      have hfirst : s.count c + 1 < 2 ^ 32 := by
        have := hroom c (List.mem_cons_self ..)
        rw [List.count_cons_self] at this
        omega
      have hrest : ∀ x ∈ cs, (retain s c).count x + cs.count x < 2 ^ 32 := by
        intro x hx
        have := hroom x (List.mem_cons_of_mem _ hx)
        by_cases hxc : c = x
        · subst hxc
          rw [List.count_cons_self] at this
          simp only [retain, Function.update_self]
          omega
        · rw [List.count_cons_of_ne hxc] at this
          simpa only [retain, Function.update_of_ne (Ne.symm hxc)] using this
      obtain ⟨s', hfold, hcounted, hobj⟩ := ih (h.retain hc) (fun x hx => hmem x (List.mem_cons_of_mem _ hx)) hrest
      refine ⟨s', ?_, ?_, hobj⟩
      · rw [List.foldlM_cons, greenRetain_eq ho hfirst]
        exact hfold
      · have hperm : plus held (cs ++ c :: l) = plus held (c :: cs ++ l) := by
          funext x
          rw [plus, plus, List.perm_middle.count_eq]
          rfl
        rwa [hperm] at hcounted

theorem placeChildren_spec (hlive : ∀ c ∈ children, ∃ o, s.obj c = some o) (textLen : Nat) :
    ∃ placed total, placeChildren s textLen children = some (placed, total) ∧ placed.map (·.ref) = children := by
  induction children generalizing textLen with
  | nil => exact ⟨[], textLen, rfl, rfl⟩
  | cons c cs ih =>
      obtain ⟨o, ho⟩ := hlive c (List.mem_cons_self ..)
      obtain ⟨placed, total, hplaced, hrefs⟩ := ih (fun x hx => hlive x (List.mem_cons_of_mem _ hx))
        ((textLen + o.len) % 2 ^ 32)
      refine ⟨⟨c, textLen⟩ :: placed, total, ?_, by rw [List.map_cons, hrefs]⟩
      rw [placeChildren, ho, Option.bind_some, hplaced]
      rfl

namespace Interned

theorem start (H : Hashing η) : Interned H World.start (fun _ => 0) ∅ where
  counted := by
    constructor <;> simp [World.start, innerRefs, plus, base]
  whole := by simp [World.start]
  tabled := tabled_start

theorem owned_mem (h : Interned H w rank holders) (hr : r ∈ w.owned) : r ∈ holders := by
  refine h.counted.mem_of_held ?_
  have := List.count_pos_iff.mpr hr
  rw [plus]
  omega

theorem mem_live (h : Interned H w rank holders) (hr : r ∈ holders) : ∃ o, w.heap.store.obj r = some o :=
  Option.isSome_iff_exists.mp (h.counted.live r hr)

theorem found (h : Interned H w rank holders) (hobj : w.heap.store.obj r = some o) :
    Interned H ⟨⟨retain w.heap.store r, w.heap.allocs⟩, w.cache, r :: w.owned⟩ rank holders where
  counted := h.counted.retain (h.whole r o hobj)
  whole := h.whole
  tabled := h.tabled

/-- A new object is held by its client, and by the cache if it has few
children. -/
theorem placed (h : Interned H w rank holders) (hobj : s.obj = w.heap.store.obj) (hrefs : o.refs = children)
    (hcounted : Counted GreenObj.refs s rank w.heap.allocs holders (plus (base w.heap.store.obj) (children ++ w.owned)))
    (hfree : w.heap.store.obj r = none) {k : Nat} (hk : k = (if o.refs.length ≤ dedupMaxChildren then 1 else 0) + 1)
      {cache : NodeCache η}
    (htabled : Tabled H (Function.update s.obj r (some o)) cache) :
    Interned H ⟨⟨⟨Function.update s.obj r (some o), Function.update s.count r k⟩, w.heap.allocs + 1⟩, cache,
      r :: w.owned⟩
      (Function.update rank r w.heap.allocs) (insert r holders) where
  counted := by
    subst hrefs
    refine hcounted.place (hobj ▸ hfree) fun x => ?_
    rw [plus_cons]
    by_cases hx : x = r
    · subst hx
      have hnone : w.owned.count x = 0 := by
        refine List.count_eq_zero.mpr fun hmem => ?_
        obtain ⟨o', ho'⟩ := h.mem_live (h.owned_mem hmem)
        simp [hfree] at ho'
      simp only [plus, base_update_self, hnone, if_true, hk, Nat.add_zero]
    · rw [plus, base_update_of_ne hx, if_neg hx, if_neg (Ne.symm hx), hobj]
      rfl
  whole x o' hx := by
    by_cases hxr : x = r
    · exact hxr ▸ Finset.mem_insert_self ..
    · simp only [Function.update_of_ne hxr, hobj] at hx
      exact Finset.mem_insert_of_mem (h.whole x o' hx)
  tabled := htabled

end Interned

/-- A world whose counts and buckets are right. -/
def Sound (H : Hashing η) (w : World η) : Prop := ∃ rank holders, Interned H w rank holders

/-- What a client that asks for an object is given, and what becomes of the
others. -/
structure Answered (H : Hashing η) (w w' : World η) (r : ElemRef) (o : GreenObj η) : Prop where
  sound : Sound H w'
  kept : ∀ p o, w.heap.store.obj p = some o → w'.heap.store.obj p = some o
  owned : w'.owned = r :: w.owned
  obj : w'.heap.store.obj r = some o

theorem Interned.answered_found (h : Interned H w rank holders) (hobj : w.heap.store.obj r = some o) :
    Answered H w ⟨⟨retain w.heap.store r, w.heap.allocs⟩, w.cache, r :: w.owned⟩ r o :=
  ⟨⟨rank, holders, h.found hobj⟩, fun _ _ ho => ho, rfl, hobj⟩

theorem Interned.answered_placed (h : Interned H w rank holders) (hobj : s.obj = w.heap.store.obj)
    (hrefs : o.refs = children)
    (hcounted : Counted GreenObj.refs s rank w.heap.allocs holders (plus (base w.heap.store.obj) (children ++ w.owned)))
    (hfree : w.heap.store.obj r = none) {k : Nat} (hk : k = (if o.refs.length ≤ dedupMaxChildren then 1 else 0) + 1)
      {cache : NodeCache η}
    (htabled : Tabled H (Function.update s.obj r (some o)) cache) :
    Answered H w ⟨⟨⟨Function.update s.obj r (some o), Function.update s.count r k⟩, w.heap.allocs + 1⟩, cache,
      r :: w.owned⟩ r o where
  sound := ⟨_, _, h.placed hobj hrefs hcounted hfree hk htabled⟩
  kept p o ho := by
    have hp : p ≠ r := by
      rintro rfl
      simp [hfree] at ho
    simpa only [Function.update_of_ne hp, hobj] using ho
  owned := rfl
  obj := Function.update_self ..

theorem greenTokenEquals_of_obj {a : Nat} {hash : η} (hobj : s.obj (.token a) = some (.token ⟨kind, text⟩ hash)) :
    greenTokenEquals s kind text a = true := by
  simp [greenTokenEquals, hobj]

theorem greenNodeEquals_eq_true {a : Nat} : greenNodeEquals s kind children a = true ↔
    ∃ textLen hash cs, s.obj (.node a) = some (.node kind textLen hash cs) ∧ cs.map (·.ref) = children := by
  rw [greenNodeEquals]
  rcases s.obj (.node a) with _ | ⟨tok, hash⟩ | ⟨k, textLen, hash, cs⟩
  · simp
  · simp
  · simp only [Bool.and_eq_true, decide_eq_true_eq, Option.some.injEq, GreenObj.node.injEq]
    constructor
    · rintro ⟨rfl, hrefs⟩
      exact ⟨_, _, _, ⟨rfl, rfl, rfl, rfl⟩, hrefs⟩
    · rintro ⟨textLen', hash', cs', ⟨rfl, rfl, rfl, rfl⟩, hrefs⟩
      exact ⟨rfl, hrefs⟩

/-- The reference of the cache is followed by that of the client. -/
theorem greenRetain_placed (s : GreenStore η) (r : ElemRef) (o : GreenObj η) :
    greenRetain ⟨Function.update s.obj r (some o), Function.update s.count r 1⟩ r =
      some ⟨Function.update s.obj r (some o), Function.update s.count r 2⟩ := by
  simp [greenRetain]

theorem greenNodeAlloc_spec (h : Interned H w rank holders) (hmem : ∀ c ∈ children, c ∈ w.owned)
    (hroom : ∀ c ∈ children, w.heap.store.count c + children.count c < 2 ^ 32) (kind : SyntaxKind) (addr : Nat) :
    ∃ s' placed total, greenNodeAlloc H w.heap addr kind children =
        some ⟨⟨Function.update s'.obj (.node addr) (some (.node kind total (H.node kind children) placed)),
          Function.update s'.count (.node addr) 1⟩, w.heap.allocs + 1⟩ ∧
      placed.map (·.ref) = children ∧ s'.obj = w.heap.store.obj ∧
      Counted GreenObj.refs s' rank w.heap.allocs holders (plus (base w.heap.store.obj) (children ++ w.owned)) := by
  obtain ⟨placed, total, hplaced, hrefs⟩ := placeChildren_spec (fun c hc => h.mem_live (h.owned_mem (hmem c hc))) 0
  obtain ⟨s', hfold, hcounted, hobj⟩ := retainAll_spec h.counted (fun c hc => h.owned_mem (hmem c hc)) hroom
  refine ⟨s', placed, total, ?_, hrefs, hobj, hcounted⟩
  rw [greenNodeAlloc, hplaced, Option.bind_some, hfold]
  rfl

variable [DecidableEq η]

theorem step_token (h : Sound H w) (hallowed : Allowed w (.token addr kind text))
    (hroom : Room w (.token addr kind text)) :
    ∃ w' a hash, step H w (.token addr kind text) = some (w', some (.token a)) ∧
      Answered H w w' (.token a) (.token ⟨kind, text⟩ hash) := by
  obtain ⟨rank, holders, h⟩ := h
  rcases h.tabled.find_token w.heap.store rfl kind text with ⟨a, hash, hfind, hobj⟩ | ⟨hfind, hnew⟩
  · have hretain := greenRetain_eq hobj (hroom a (greenTokenEquals_of_obj hobj))
    refine ⟨_, a, hash, ?_, h.answered_found hobj⟩
    rw [step, nodeCacheInternToken, hfind]
    simp only [hretain, Option.map_some]
  · have hcounted : Counted GreenObj.refs w.heap.store rank w.heap.allocs holders
      (plus (base w.heap.store.obj) ([] ++ w.owned)) :=
      h.counted
    refine ⟨_, addr, H.token kind text, ?_, h.answered_placed (k := 2) rfl ?_ hcounted hallowed ?_
      (h.tabled.addToken hallowed hnew)⟩
    · rw [step, nodeCacheInternToken, hfind]
      simp only [greenTokenAlloc, greenRetain_placed, Option.map_some]
    · rfl
    · rfl

theorem step_node (h : Sound H w) (hallowed : Allowed w (.node addr kind children))
    (hroom : Room w (.node addr kind children)) :
    ∃ w' a textLen hash cs, step H w (.node addr kind children) = some (w', some (.node a)) ∧
      Answered H w w' (.node a) (.node kind textLen hash cs) ∧ cs.map (·.ref) = children := by
  obtain ⟨rank, holders, h⟩ := h
  obtain ⟨hfree, hmem⟩ := hallowed
  by_cases hsmall : children.length ≤ dedupMaxChildren
  · rcases h.tabled.find_node w.heap.store rfl kind children
      hsmall with ⟨a, textLen, hash, cs, hfind, hobj, hrefs⟩ | ⟨hfind, hnew⟩
    · have hretain := greenRetain_eq hobj (hroom.1 hsmall a (greenNodeEquals_eq_true.mpr ⟨_, _, _, hobj, hrefs⟩))
      refine ⟨_, a, textLen, hash, cs, ?_, h.answered_found hobj, hrefs⟩
      rw [step, nodeCacheInternNode, if_neg (Nat.not_lt.mpr hsmall)]
      simp only [hfind, hretain, Option.map_some]
    · have hmiss (a : Nat) : greenNodeEquals w.heap.store kind children a = false := by
        rw [← Bool.not_eq_true, greenNodeEquals_eq_true]
        rintro ⟨textLen, hash, cs, hobj, hrefs⟩
        exact hnew a textLen hash cs hobj hrefs
      obtain ⟨s', placed, total, halloc, hrefs, hobj, hcounted⟩ := greenNodeAlloc_spec h hmem (hroom.2 fun _ => hmiss)
        kind addr
      have hfew : placed.length ≤ dedupMaxChildren := by rwa [← hrefs, List.length_map] at hsmall
      have htabled := h.tabled.addNode hfree kind total placed
        (Function.update w.cache.nodes (H.node kind children) (addr :: w.cache.nodes (H.node kind children)))
        (fun _ => hrefs ▸ hnew) fun b hash => by
          by_cases hhash : hash = H.node kind children
          · subst hhash
            simp [hrefs, hfew]
          · simp [hhash, hrefs]
      rw [← hobj, hrefs] at htabled
      refine ⟨_, addr, total, _, placed, ?_, h.answered_placed (k := 2) hobj ?_ hcounted hfree ?_ htabled, hrefs⟩
      · rw [step, nodeCacheInternNode, if_neg (Nat.not_lt.mpr hsmall)]
        simp only [hfind, halloc, Option.bind_some, greenRetain_placed, Option.map_some]
      · exact hrefs
      · simp [GreenObj.refs, hfew]
  · obtain ⟨s', placed, total, halloc, hrefs, hobj, hcounted⟩ :=
      greenNodeAlloc_spec h hmem (hroom.2 fun hfew => absurd hfew hsmall) kind addr
    have hmany : ¬placed.length ≤ dedupMaxChildren := by rwa [← hrefs, List.length_map] at hsmall
    have htabled := h.tabled.addNode hfree kind total placed w.cache.nodes
      (fun hfew => absurd hfew hmany) fun b hash => by simp [hmany]
    rw [← hobj, hrefs] at htabled
    refine ⟨_, addr, total, _, placed, ?_, h.answered_placed (k := 1) hobj ?_ hcounted hfree ?_ htabled, hrefs⟩
    · rw [step, nodeCacheInternNode, if_pos (Nat.lt_of_not_le hsmall), halloc]
      rfl
    · exact hrefs
    · simp [GreenObj.refs, hmany]

theorem step_retain (h : Sound H w) (hallowed : Allowed w (.retain r)) (hroom : Room w (.retain r)) :
    ∃ w' o, step H w (.retain r) = some (w', none) ∧ Answered H w w' r o := by
  obtain ⟨rank, holders, h⟩ := h
  obtain ⟨o, ho⟩ := Option.isSome_iff_exists.mp hallowed
  refine ⟨_, o, ?_, h.answered_found ho⟩
  rw [step, greenRetain_eq ho hroom]
  rfl

theorem step_release (h : Sound H w) (hallowed : Allowed w (.release r)) :
    ∃ w' rank holders, step H w (.release r) = some (w', none) ∧ Interned H w' rank holders ∧
      w'.owned = w.owned.erase r ∧
      (∀ p ∈ holders, w'.heap.store.obj p = w.heap.store.obj p) ∧ ∀ p, 0 < base w.heap.store.obj p → p ∈ holders := by
  obtain ⟨rank, holders, h⟩ := h
  have hsplit : plus (base w.heap.store.obj) w.owned = plus (base w.heap.store.obj) (r :: w.owned.erase r) := by
    funext x
    rw [plus, plus, (List.perm_cons_erase hallowed).count_eq]
  have hlt := (h.counted.ranked r (h.owned_mem hallowed)).1
  obtain ⟨s', holders', hrelease, hcounted, hfreed⟩ := (Counted.release_spec w.heap.allocs).1 _ _ _ _
    (hsplit ▸ h.counted) hlt
  have hback {p : ElemRef} {o : GreenObj η} (ho : s'.obj p = some o) : p ∈ holders' ∧ w.heap.store.obj p = some o := by
    by_cases hp : p ∈ holders'
    · exact ⟨hp, hfreed.kept p (.inl hp) ▸ ho⟩
    · by_cases hmem : p ∈ holders
      · rw [hfreed.gone p hmem hp] at ho
        simp at ho
      · rw [hfreed.kept p (.inr hmem)] at ho
        exact absurd (h.whole p o ho) hmem
  have hcached {p : ElemRef} (hp : 0 < base w.heap.store.obj p) : p ∈ holders' := by
    refine hcounted.mem_of_held ?_
    rw [plus]
    omega
  have hbase : base s'.obj = base w.heap.store.obj := by
    funext p
    by_cases hp : p ∈ holders'
    · rw [base, base, hfreed.kept p (.inl hp)]
    · have hzero := Nat.eq_zero_of_not_pos fun hpos => hp (hcached hpos)
      cases ho : s'.obj p with
      | none => rw [hzero, base, ho]; rfl
      | some o => exact absurd (hback ho).1 hp
  refine ⟨⟨⟨s', w.heap.allocs⟩, w.cache, w.owned.erase r⟩, rank, holders', ?_,
    ⟨hbase ▸ hcounted, fun p o ho => (hback ho).1, ?_⟩, rfl,
    fun p hp => hfreed.kept p (.inl hp), fun p hp => hcached hp⟩
  · rw [step, greenRelease, hrelease]
    rfl
  · refine h.tabled.free fun p => ?_
    by_cases hp : p ∈ holders'
    · exact .inl (hfreed.kept p (.inl hp))
    · cases ho : s'.obj p with
      | some o => exact absurd (hback ho).1 hp
      | none =>
          refine .inr ⟨rfl, fun o hobj => ?_⟩
          by_contra hfew
          refine hp (hcached ?_)
          rw [base, hobj, Option.map_some, Option.getD_some, if_pos (Nat.le_of_not_lt hfew)]
          exact Nat.one_pos

end Ore.GreenCacheSteps
