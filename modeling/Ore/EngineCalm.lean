import Ore.EngineRecording

namespace Ore.EngineCalm

open Tasks EngineModel EngineFacts EngineSound EngineDiscipline EngineRecording
open Relation (TransGen ReflTransGen)

variable {V F : Type}

abbrev queries (s : Db V F) : List Query := s.stack.map (·.query)

/-- The frames of the stack: each leads to those above it, and all are
running. -/
structure StackCalm (fam : Family V F) (slots : Query → Slot F) (stack : List (Frame F)) : Prop where
  reach : (stack.map (·.query)).Pairwise fun c p => TransGen (Calls fam) p c
  nodup : (stack.map (·.query)).Nodup
  running : ∀ f ∈ stack, (slots f.query).state = .running
  links : ∀ f ∈ stack, ∀ d ∈ f.deps, TransGen (Calls fam) f.query d.query

/-- The invariant of components and cancellation, with the members of the
active component given. A slot that runs off the stack is one of them, or was
canceled. -/
structure CalmAt (fam : Family V F) (members : List Query) (s : State V F) : Prop where
  stack : StackCalm fam s.slots s.stack
  links : ∀ p, ∀ d ∈ (s.slots p).deps, TransGen (Calls fam) p d.query
  provisional : ∀ p, (s.slots p).provisional = true ↔ p ∈ members
  running : ∀ m ∈ members, (s.slots m).state = .running
  accounted : ∀ p, (s.slots p).state = .running → s.cancelIn ≠ some 0 → p ∈ queries s.toDb ∨ p ∈ members
  untainted : ∀ p, (s.slots p).state = .done → s.tainted p = false
  log : ∀ q db, .answered q .cached db ∈ s.log → db.tainted q = false

/-- The invariant at a call boundary. -/
structure Calm (fam : Family V F) (s : State V F) : Prop extends CalmAt fam (sccQueries s.toDb) s where
  nodup : (sccQueries s.toDb).Nodup
  root : ∀ scc, s.scc = some scc →
    scc.root ∈ sccQueries s.toDb ∧ ∀ m ∈ sccQueries s.toDb, ReflTransGen (Calls fam) scc.root m

/-- What a call may do to the components: an active one stays, and a new one
has its root on the stack and all the frames above the root. -/
structure SccStep (s s' : Db V F) : Prop where
  stays : ∀ scc, s.scc = some scc → ∃ scc', s'.scc = some scc' ∧ scc'.root = scc.root ∧ sccQueries s' = sccQueries s
  opens : s.scc = none → ∀ scc', s'.scc = some scc' → ∃ above below, queries s = above ++ scc'.root :: below ∧
    (∀ x ∈ above, x ∈ sccQueries s') ∧ ∀ m ∈ sccQueries s', m ∉ below

structure Calmed (fam : Family V F) (s s' : State V F) : Prop where
  calm : Calm fam s'
  scc : SccStep s.toDb s'.toDb
  fixed : ∀ p, (s.slots p).state = .running → (s'.slots p).state = .running ∧ s'.tainted p = s.tainted p

/-- The invariant of recording, with nothing assumed of the family. -/
abbrev Tracked (s : State V F) : Prop := Kept (fun _ => True) (fun _ => True) s

def PullCalm (fam : Family V F) (pull : Pull V F) : Prop :=
  ∀ q s a s', pull q s = some (a, s') → Tracked s → Calm fam s → (∀ f ∈ s.stack.head?, TransGen (Calls fam) f.query q) →
    Calmed fam s s' ∧ (s.scc = none → s'.scc ≠ none → q ∈ sccQueries s'.toDb) ∧
      (a.kind = .canceled → s'.cancelIn = some 0)

/-- No cycle of calls passes through queries of both cycle policies. -/
def Unmixed (fam : Family V F) : Prop :=
  ∀ r d, r.kind.isFixpoint = true → TransGen (Calls fam) r d → TransGen (Calls fam) d r → d.kind.isFixpoint = true

variable {fam : Family V F} {s s' t : State V F} {q c : Query} {top : Frame F} {rest stack : List (Frame F)}

theorem Grown.queries (h : Grown s.stack s'.stack) : queries s'.toDb = queries s.toDb := by
  cases hs : s.stack with
  | nil =>
      rw [hs] at h
      simp [EngineCalm.queries, hs, h.nil_left]
  | cons f rest =>
      rw [hs] at h
      obtain ⟨f', hf', hq, -, -⟩ := h.cons_left
      simp [EngineCalm.queries, hs, hf', hq]

namespace SccStep

theorem refl (s : Db V F) : SccStep s s :=
  ⟨fun scc h => ⟨scc, h, rfl, rfl⟩, fun h _ h' => by simp [h] at h'⟩

theorem trans {s t u : Db V F} (h : SccStep s t) (h' : SccStep t u) (hq : EngineCalm.queries t = EngineCalm.queries s) :
    SccStep s u := by
  refine ⟨?_, ?_⟩
  · intro scc hscc
    obtain ⟨scc', ht, hr, hm⟩ := h.stays scc hscc
    obtain ⟨scc'', hu, hr', hm'⟩ := h'.stays scc' ht
    exact ⟨scc'', hu, hr'.trans hr, hm'.trans hm⟩
  · intro hnone scc'' hu
    cases ht : t.scc with
    | none =>
        rw [← hq]
        exact h'.opens ht scc'' hu
    | some scc' =>
        obtain ⟨scc₃, hu', hr, hm⟩ := h'.stays scc' ht
        obtain rfl : scc'' = scc₃ := Option.some.inj (hu.symm.trans hu')
        rw [hm, hr]
        exact h.opens hnone scc' ht

theorem top_joins (h : SccStep s.toDb s'.toDb) (hcalm : Calm fam s') (hstack : s.stack = top :: rest)
    (hnone : s.scc = none) (hsome : s'.scc ≠ none) : top.query ∈ sccQueries s'.toDb := by
  obtain ⟨scc', hs'⟩ := Option.ne_none_iff_exists'.mp hsome
  obtain ⟨above, below, hq, habove, -⟩ := h.opens hnone scc' hs'
  cases above with
  | nil =>
      simp only [EngineCalm.queries, hstack, List.map_cons, List.nil_append, List.cons.injEq] at hq
      rw [hq.1]
      exact (hcalm.root scc' hs').1
  | cons x above =>
      simp only [EngineCalm.queries, hstack, List.map_cons, List.cons_append, List.cons.injEq] at hq
      exact hq.1 ▸ habove x (List.mem_cons_self ..)

end SccStep

namespace Calmed

theorem refl (h : Calm fam s) : Calmed fam s s := ⟨h, .refl _, fun _ hp => ⟨hp, rfl⟩⟩

theorem trans (h : Calmed fam s t) (h' : Calmed fam t s') (hq : queries t.toDb = queries s.toDb) : Calmed fam s s' where
  calm := h'.calm
  scc := h.scc.trans h'.scc hq
  fixed p hp := by
    obtain ⟨hrun, htaint⟩ := h.fixed p hp
    obtain ⟨hrun', htaint'⟩ := h'.fixed p hrun
    exact ⟨hrun', htaint'.trans htaint⟩

end Calmed

namespace StackCalm

variable {slots slots' : Query → Slot F}

theorem record (h : StackCalm fam slots rest) (hlink : ∀ f ∈ rest.head?, TransGen (Calls fam) f.query q) (fp : Option F)
    (dur : Durability) : StackCalm fam slots (recordTop rest q fp dur) := by
  cases rest with
  | nil => exact h
  | cons parent below =>
      have hmap : (recordTop (parent :: below) q fp dur).map (·.query) = (parent :: below).map (·.query) := by
        simp [recordTop]
      refine ⟨hmap ▸ h.reach, hmap ▸ h.nodup, ?_, ?_⟩
      · intro f hf
        rcases List.mem_cons.mp hf with rfl | hf
        · rw [recordDep_query]
          exact h.running parent (List.mem_cons_self ..)
        · exact h.running f (List.mem_cons_of_mem _ hf)
      · intro f hf d hd
        rcases List.mem_cons.mp hf with rfl | hf
        · rw [recordDep_query]
          rcases mem_recordDep hd with hd | rfl
          · exact h.links parent (List.mem_cons_self ..) d hd
          · exact hlink parent (by simp)
        · exact h.links f (List.mem_cons_of_mem _ hf) d hd

theorem pop (h : StackCalm fam slots (top :: rest)) (hother : ∀ p, p ≠ top.query → slots' p = slots p) :
    StackCalm fam slots' rest := by
  refine ⟨(List.pairwise_cons.mp h.reach).2, (List.nodup_cons.mp h.nodup).2, ?_, ?_⟩
  · intro f hf
    have hne : f.query ≠ top.query := by
      intro heq
      exact (List.nodup_cons.mp h.nodup).1 (List.mem_map.mpr ⟨f, hf, heq⟩)
    rw [hother _ hne]
    exact h.running f (List.mem_cons_of_mem _ hf)
  · intro f hf
    exact h.links f (List.mem_cons_of_mem _ hf)

theorem push (h : StackCalm fam slots stack) (hlink : ∀ f ∈ stack.head?, TransGen (Calls fam) f.query top.query)
    (hnew : top.query ∉ stack.map (·.query)) (hother : ∀ p, p ≠ top.query → slots' p = slots p)
    (hrunning : (slots' top.query).state = .running) (hlinks : ∀ d ∈ top.deps, TransGen (Calls fam) top.query d.query) :
    StackCalm fam slots' (top :: stack) := by
  refine ⟨List.pairwise_cons.mpr ⟨?_, h.reach⟩, List.nodup_cons.mpr ⟨hnew, h.nodup⟩, ?_, ?_⟩
  · intro p hp
    cases stack with
    | nil => simp at hp
    | cons f below =>
        have hf := hlink f (by simp)
        rcases List.mem_cons.mp hp with rfl | hp
        · exact hf
        · exact ((List.pairwise_cons.mp h.reach).1 p hp).trans hf
  · intro f hf
    rcases List.mem_cons.mp hf with rfl | hf
    · exact hrunning
    · have hne : f.query ≠ top.query := by
        intro heq
        exact hnew (List.mem_map.mpr ⟨f, hf, heq⟩)
      rw [hother _ hne]
      exact h.running f hf
  · intro f hf
    rcases List.mem_cons.mp hf with rfl | hf
    · exact hlinks
    · exact h.links f hf

/-- The frame below leads to the frame on top. -/
theorem link (h : StackCalm fam slots (top :: rest)) : ∀ f ∈ rest.head?, TransGen (Calls fam) f.query top.query := by
  intro f hf
  exact (List.pairwise_cons.mp h.reach).1 _ (List.mem_map_of_mem (List.mem_of_mem_head? hf))

end StackCalm

namespace CalmAt

variable {members members' : List Query}

theorem emit (h : CalmAt fam members s) {e : Event V F}
    (he : ∀ q db, e = .answered q .cached db → db.tainted q = false) : CalmAt fam members (s.emit e) := by
  refine ⟨h.stack, h.links, h.provisional, h.running, h.accounted, h.untainted, ?_⟩
  intro q db hmem
  rcases List.mem_append.mp hmem with hmem | hmem
  · exact h.log q db hmem
  · exact he q db (List.mem_singleton.mp hmem).symm

theorem modify (h : CalmAt fam members s) {f : Slot F → Slot F} (hstate : (f (s.slots q)).state = (s.slots q).state)
    (hprov : (f (s.slots q)).provisional = (s.slots q).provisional)
    (hlinks : ∀ d ∈ (f (s.slots q)).deps, TransGen (Calls fam) q d.query) : CalmAt fam members (s.modifySlot q f) := by
  have hslot (p : Query) : ((s.modifySlot q f).slots p).state = (s.slots p).state ∧
      ((s.modifySlot q f).slots p).provisional = (s.slots p).provisional := by
    by_cases hp : p = q
    · subst hp
      simp [hstate, hprov]
    · simp [modifySlot_ne s f hp]
  refine ⟨⟨h.stack.reach, h.stack.nodup, ?_, h.stack.links⟩, ?_, ?_, ?_, ?_, ?_, h.log⟩
  · intro f' hf'
    rw [(hslot _).1]
    exact h.stack.running f' hf'
  · intro p
    by_cases hp : p = q
    · subst hp
      simpa using hlinks
    · rw [modifySlot_ne s f hp]
      exact h.links p
  · intro p
    rw [(hslot p).2]
    exact h.provisional p
  · intro m hm
    rw [(hslot m).1]
    exact h.running m hm
  · intro p hp
    rw [(hslot p).1] at hp
    exact h.accounted p hp
  · intro p hp
    rw [(hslot p).1] at hp
    exact h.untainted p hp

/-- The frame on top is closed over the frames below. -/
theorem pop (h : CalmAt fam members s) (hstack : s.stack = top :: rest) (htop : top.query = q) {slot : Slot F}
    (hdeps : slot.deps = top.deps) (hprov : slot.provisional = (s.slots q).provisional)
    (hbelow : stack = rest ∨ ∃ fp dur, stack = recordTop rest q fp dur) {cancelIn : Option Nat}
    (hsticky : s.cancelIn = some 0 → cancelIn = some 0)
    (hstate : slot.state = .running ∧ (cancelIn = some 0 ∨ q ∈ members) ∨
      slot.state ≠ .running ∧ q ∉ members ∧ (slot.state = .done → s.tainted q = false)) {log : List (Event V F)}
    (hlog : ∀ q db, .answered q .cached db ∈ log → .answered q .cached db ∈ s.log) :
    CalmAt fam members
      { s with slots := Function.update s.slots q slot, stack := stack, cancelIn := cancelIn, log := log } := by
  subst htop
  have hcalm := h.stack
  rw [hstack] at hcalm
  have hother (p : Query) (hp : p ≠ top.query) : Function.update s.slots top.query slot p = s.slots p := by simp [hp]
  have hrest : StackCalm fam (Function.update s.slots top.query slot) rest := hcalm.pop hother
  have hqueries : stack.map (·.query) = rest.map (·.query) := by
    rcases hbelow with rfl | ⟨fp, dur, rfl⟩
    · rfl
    · cases rest <;> simp [recordTop]
  refine ⟨?_, ?_, ?_, ?_, ?_, ?_, fun q db hmem => h.log q db (hlog q db hmem)⟩
  · rcases hbelow with rfl | ⟨fp, dur, rfl⟩
    · exact hrest
    · exact hrest.record hcalm.link fp dur
  · intro p
    by_cases hp : p = top.query
    · subst hp
      simp only [Function.update_self, hdeps]
      exact hcalm.links top (List.mem_cons_self ..)
    · simp only [hother p hp]
      exact h.links p
  · intro p
    by_cases hp : p = top.query
    · subst hp
      simp only [Function.update_self, hprov]
      exact h.provisional _
    · simp only [hother p hp]
      exact h.provisional p
  · intro m hm
    by_cases hp : m = top.query
    · subst hp
      simp only [Function.update_self]
      exact (hstate.resolve_right fun hs => hs.2.1 hm).1
    · simp only [hother m hp]
      exact h.running m hm
  · intro p hp hc
    by_cases hpq : p = top.query
    · subst hpq
      simp only [Function.update_self] at hp
      rcases hstate with ⟨-, hc' | hm⟩ | ⟨hne, -⟩
      · exact absurd hc' hc
      · exact .inr hm
      · exact absurd hp hne
    · simp only [hother p hpq] at hp
      rcases h.accounted p hp fun h0 => hc (hsticky h0) with hmem | hmem
      · left
        simp only [queries, hstack, List.map_cons, List.mem_cons, hpq, false_or] at hmem
        simpa [queries, hqueries] using hmem
      · exact .inr hmem
  · intro p hp
    by_cases hpq : p = top.query
    · subst hpq
      simp only [Function.update_self] at hp
      rcases hstate with ⟨hr, -⟩ | ⟨-, -, ht⟩
      · simp [hr] at hp
      · exact ht hp
    · simp only [hother p hpq] at hp
      exact h.untainted p hp

theorem push (h : CalmAt fam members s) (members' : List Query) (top : Frame F) (slot : Slot F)
    (hnew : q ∉ queries s.toDb)
    (hlink : ∀ f ∈ s.stack.head?, TransGen (Calls fam) f.query q) (htop : top.query = q)
    (hstate : slot.state = .running) (hdeps : ∀ d ∈ slot.deps, TransGen (Calls fam) q d.query)
    (htopDeps : top.deps = slot.deps) (hmem : ∀ p, p ≠ q → (p ∈ members' ↔ p ∈ members))
    (hprov : slot.provisional = true ↔ q ∈ members') :
    CalmAt fam members' { s with slots := Function.update s.slots q slot, stack := top :: s.stack } := by
  subst htop
  have hother (p : Query) (hp : p ≠ top.query) : Function.update s.slots top.query slot p = s.slots p := by simp [hp]
  refine ⟨?_, ?_, ?_, ?_, ?_, ?_, h.log⟩
  · exact h.stack.push hlink hnew hother (by simpa using hstate) (by rw [htopDeps]; exact hdeps)
  · intro p
    by_cases hp : p = top.query
    · subst hp
      simpa using hdeps
    · simp only [hother p hp]
      exact h.links p
  · intro p
    by_cases hp : p = top.query
    · subst hp
      simpa using hprov
    · simp only [hother p hp]
      exact (h.provisional p).trans (hmem p hp).symm
  · intro m hm
    by_cases hp : m = top.query
    · subst hp
      simpa using hstate
    · simp only [hother m hp]
      exact h.running m ((hmem m hp).mp hm)
  · intro p hp hc
    by_cases hpq : p = top.query
    · exact .inl (by simp [queries, hpq])
    · simp only [hother p hpq] at hp
      rcases h.accounted p hp hc with hm | hm
      · left
        simp only [queries, List.map_cons]
        exact List.mem_cons_of_mem _ hm
      · exact .inr ((hmem p hpq).mpr hm)
  · intro p hp
    by_cases hpq : p = top.query
    · subst hpq
      simp [hstate] at hp
    · simp only [hother p hpq] at hp
      exact h.untainted p hp

end CalmAt

namespace Calm

theorem not_on_stack (h : Calm fam s) (hidle : (s.slots q).state ≠ .running) : q ∉ queries s.toDb := by
  intro hmem
  obtain ⟨f, hf, hfq⟩ := List.mem_map.mp hmem
  exact hidle (hfq ▸ h.stack.running f hf)

theorem not_member (h : Calm fam s) (hidle : (s.slots q).state ≠ .running) : q ∉ sccQueries s.toDb :=
  fun hm => hidle (h.running q hm)

theorem emit (h : Calm fam s) {e : Event V F} (he : ∀ q db, e = .answered q .cached db → db.tainted q = false) :
    Calm fam (s.emit e) :=
  ⟨h.toCalmAt.emit he, h.nodup, h.root⟩

theorem opened (h : Calm fam s) (hidle : (s.slots q).state ≠ .running)
    (hlink : ∀ f ∈ s.stack.head?, TransGen (Calls fam) f.query q) : Calm fam (opened s q) := by
  have hpush := h.toCalmAt.push (q := q) (sccQueries s.toDb) (openedFrame s q) { s.slots q with state := .running }
    (h.not_on_stack hidle) hlink rfl rfl (h.links q) rfl (fun _ _ => Iff.rfl)
    (h.provisional q)
  have heq : EngineFacts.opened s q = { s with
      slots := Function.update s.slots q { s.slots q with state := .running },
        stack := openedFrame s q :: s.stack } := by
    simp [EngineFacts.opened, queryStackPush, State.modifySlot, openedFrame]
  rw [heq]
  exact ⟨hpush, h.nodup, h.root⟩

end Calm

end Ore.EngineCalm
