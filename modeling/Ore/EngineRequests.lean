import Ore.EngineCancel
import Ore.EngineFailures

namespace Ore.EngineRequests

open Tasks EngineModel EngineFacts EngineSteps EngineSound EngineDiscipline EngineRecording EngineFailures EngineCalm
    EngineCancel
open Relation (TransGen ReflTransGen)

variable {V F : Type} {fam : Family V F} {s s' t : State V F} {q c : Query} {pull : Pull V F}
variable {top : Frame F} {rest : List (Frame F)}

/-- With no cancel seen, every running slot is on the stack or in the component. -/
def Accounted (s : Db V F) : Prop := ∀ p, (s.slots p).state = .running → p ∈ queries s ∨ p ∈ sccQueries s

theorem nodup_eraseDups (l : List Query) : l.eraseDups.Nodup := by
  induction hn : l.length using Nat.strongRecOn generalizing l with
  | ind n ih =>
      cases l with
      | nil => simp
      | cons x xs =>
          rw [List.eraseDups_cons, List.nodup_cons]
          refine ⟨?_, ?_⟩
          · simp [List.mem_eraseDups]
          · refine ih _ ?_ _ rfl
            rw [← hn, List.length_cons]
            exact Nat.lt_succ_of_le (List.length_filter_le _ _)

/-- The frames from the re-entered query up to the top. -/
theorem cyclePath_eq {above below : List Query} (hq : queries s.toDb = above ++ q :: below) (hbelow : q ∉ below) :
    cyclePath q s.stack = q :: above.reverse := by
  have hpath : s.stack.reverse.map (·.query) = below.reverse ++ q :: above.reverse := by
    rw [List.map_reverse]
    simp [show s.stack.map (·.query) = above ++ q :: below from hq]
  have hdrop : (below.reverse ++ q :: above.reverse).dropWhile (· != q) = q :: above.reverse := by
    rw [List.dropWhile_append_of_pos]
    · simp
    · intro x hx
      have hxq : x ≠ q := by
        rintro rfl
        exact hbelow (List.mem_reverse.mp hx)
      simpa using hxq
  simp only [cyclePath, hpath]
  rw [if_pos (by simp), hdrop]

/-- Re-entry enrolls every frame of the cycle, for none of them has the other
policy. -/
theorem enroll_calm (hunmixed : Unmixed fam) (hs : Calm fam s) (hk : q.kind.isFixpoint = true) (hnone : s.scc = none)
    (hmem : q ∈ queries s.toDb) (hlink : ∀ f ∈ s.stack.head?, TransGen (Calls fam) f.query q) :
    Calmed fam s (enroll q s) ∧ q ∈ sccQueries (enroll q s).toDb := by
  obtain ⟨above, below, hsplit⟩ := List.append_of_mem hmem
  have hnodup : (above ++ q :: below).Nodup := hsplit ▸ hs.stack.nodup
  have hreach : (above ++ q :: below).Pairwise fun c p => TransGen (Calls fam) p c := hsplit ▸ hs.stack.reach
  obtain ⟨-, hnodup', hdisjoint⟩ := List.nodup_append.mp hnodup
  obtain ⟨hbelow, -⟩ := List.nodup_cons.mp hnodup'
  obtain ⟨-, -, hcross⟩ := List.pairwise_append.mp hreach
  have hdown (x : Query) (hx : x ∈ above) : TransGen (Calls fam) q x := hcross x hx q (List.mem_cons_self ..)
  have hup (x : Query) (hx : x ∈ above) : TransGen (Calls fam) x q := by
    cases above with
    | nil => simp at hx
    | cons y above =>
        have hy : TransGen (Calls fam) y q := by
          cases hst : s.stack with
          | nil => simp [queries, hst] at hsplit
          | cons f rest =>
              simp only [queries, hst, List.map_cons, List.cons_append, List.cons.injEq] at hsplit
              exact hsplit.1 ▸ hlink f (by simp [hst])
        rcases List.mem_cons.mp hx with rfl | hx
        · exact hy
        · exact ((List.pairwise_cons.mp hreach).1 x (List.mem_append_left _ hx)).trans hy
  have hmembers (m : Query) : m ∈ sccQueries (enroll q s).toDb ↔ m = q ∨ m ∈ above := by
    simp only [sccQueries, enroll, cyclePath_eq hsplit hbelow, Option.map_some, Option.getD_some, List.map_map,
      List.mem_map, Function.comp, List.mem_eraseDups, List.mem_filter, exists_eq_right, List.mem_cons,
        List.mem_reverse]
    refine ⟨fun h => h.1, fun h => ⟨h, ?_⟩⟩
    rcases h with rfl | hm
    · exact hk
    · exact hunmixed q m hk (hdown m hm) (hup m hm)
  have hnodupM : (sccQueries (enroll q s).toDb).Nodup := by
    simpa [sccQueries, enroll, Function.comp_def] using nodup_eraseDups _
  have hslot (p : Query) : (enroll q s).slots p =
      if p ∈ sccQueries (enroll q s).toDb then { s.slots p with provisional := true } else s.slots p := by
    simp [sccQueries, enroll, Function.comp_def]
  have hstate (p : Query) : ((enroll q s).slots p).state = (s.slots p).state := by
    rw [hslot]
    split <;> rfl
  have hdeps (p : Query) : ((enroll q s).slots p).deps = (s.slots p).deps := by
    rw [hslot]
    split <;> rfl
  have hon (m : Query) (hm : m ∈ sccQueries (enroll q s).toDb) : m ∈ queries s.toDb := by
    rw [hsplit]
    rcases (hmembers m).mp hm with rfl | hm
    · simp
    · simp [hm]
  refine ⟨⟨⟨⟨⟨hs.stack.reach, hs.stack.nodup, ?_, hs.stack.links⟩, ?_, ?_, ?_, ?_, ?_, hs.log⟩, hnodupM, ?_⟩,
    ⟨?_, ?_⟩, ?_⟩, (hmembers q).mpr (.inl rfl)⟩
  · intro f hf
    rw [hstate]
    exact hs.stack.running f hf
  · intro p
    rw [hdeps]
    exact hs.links p
  · intro p
    rw [hslot]
    split
    · rename_i hp
      simp [hp]
    · rename_i hp
      have hclean : (s.slots p).provisional = false := by simpa [sccQueries, hnone] using hs.provisional p
      simp [hclean, hp]
  · intro m hm
    rw [hstate]
    obtain ⟨f, hf, hfq⟩ := List.mem_map.mp (hon m hm)
    exact hfq ▸ hs.stack.running f hf
  · intro p hp hc
    rw [hstate] at hp
    refine (hs.accounted p hp hc).imp_right fun hm => ?_
    simp [sccQueries, hnone] at hm
  · intro p hp
    rw [hstate] at hp
    exact hs.untainted p hp
  · intro scc hscc
    obtain rfl : scc.root = q := by
      simp only [enroll, Option.some.injEq] at hscc
      rw [← hscc]
    refine ⟨(hmembers _).mpr (.inl rfl), fun m hm => ?_⟩
    rcases (hmembers m).mp hm with rfl | hm
    · exact .refl
    · exact (hdown m hm).to_reflTransGen
  · intro scc hscc
    simp [hnone] at hscc
  · intro _ scc hscc
    obtain rfl : scc.root = q := by
      simp only [enroll, Option.some.injEq] at hscc
      rw [← hscc]
    refine ⟨above, below, hsplit, fun x hx => (hmembers x).mpr (.inr hx), fun m hm hb => ?_⟩
    rcases (hmembers m).mp hm with rfl | hm
    · exact hbelow hb
    · exact hdisjoint m hm m (List.mem_cons_of_mem _ hb) rfl
  · intro p hp
    exact ⟨(hstate p).trans hp, rfl⟩

theorem enterCycle_calm (hunmixed : Unmixed fam) (hs : Calm fam s) (hacc : Accounted s.toDb)
    (hrunning : (s.slots q).state = .running) (hlink : ∀ f ∈ s.stack.head?, TransGen (Calls fam) f.query q) :
    Calmed fam s (enterCycle q s).2 ∧ (s.scc = none → (enterCycle q s).2.scc ≠ none →
      q ∈ sccQueries (enterCycle q s).2.toDb) := by
  have hsame : Calmed fam s s ∧ (s.scc = none → s.scc ≠ none → q ∈ sccQueries s.toDb) :=
    ⟨.refl hs, fun hn hs => absurd hn hs⟩
  unfold enterCycle
  split
  · rename_i hk
    split
    · rename_i hnone
      have hmem : q ∈ queries s.toDb := by
        refine (hacc q hrunning).resolve_right ?_
        simp [sccQueries, hnone]
      obtain ⟨hcalmed, hq⟩ := enroll_calm hunmixed hs hk hnone hmem hlink
      exact ⟨hcalmed, fun _ _ => hq⟩
    · split <;> exact hsame
  · exact hsame

theorem alloc_calm [Inhabited V] (ht : Tracked s) (hs : Calm fam s) : Calmed fam s (slotAlloc s q) := by
  unfold slotAlloc
  split
  · exact .refl hs
  · rename_i hloc
    have hempty : (s.slots q).state = .empty := by
      by_contra hstate
      exact hloc ((ht.slots q).located hstate)
    have hidle : (s.slots q).state ≠ .running := by simp [hempty]
    have hclean : (s.slots q).provisional = false := by
      simpa using (hs.provisional q).not.mpr (hs.not_member hidle)
    have hmod := hs.toCalmAt.modify (q := q) (f := fun _ => { Slot.zero F with routed := true })
      (by simp [Slot.zero, hempty]) (by simp [Slot.zero, hclean]) (by simp [Slot.zero])
    refine ⟨⟨⟨hmod.stack, hmod.links, hmod.provisional, hmod.running, hmod.accounted, ?_, hmod.log⟩, hs.nodup, hs.root⟩,
      ⟨fun scc hscc => ⟨scc, hscc, rfl, rfl⟩, fun hn _ hsome => by simp
        [State.writeColumn, State.modifySlot, hn] at hsome⟩, ?_⟩
    · intro p hp
      by_cases hpq : p = q
      · simp [State.writeColumn, hpq]
      · simpa [State.writeColumn, hpq] using hmod.untainted p hp
    · intro p hp
      have hpq : p ≠ q := by
        rintro rfl
        exact hidle hp
      exact ⟨by simpa [State.writeColumn, modifySlot_ne s _ hpq] using hp, by simp
        [State.writeColumn, State.modifySlot, hpq]⟩

/-- The cancel check that lets a query begin leaves every running slot
accounted for. -/
theorem tick_calm (hs : Calm fam s) (hcan : s.cancelIn ≠ some 0) :
    Calmed fam s { s with cancelIn := s.cancelIn.map (· - 1) } ∧
      Accounted { s with cancelIn := s.cancelIn.map (· - 1) }.toDb := by
  have hacc : Accounted s.toDb := fun p hp => hs.accounted p hp hcan
  exact ⟨⟨⟨⟨hs.stack, hs.links, hs.provisional, hs.running, fun p hp _ => hacc p hp, hs.untainted, hs.log⟩, hs.nodup,
    hs.root⟩,
    ⟨fun scc hscc => ⟨scc, hscc, rfl, rfl⟩, fun hn _ hsome => by simp [hn] at hsome⟩, fun _ hp => ⟨hp, rfl⟩⟩, hacc⟩

theorem Returned.emit {a : Answer V} (h : Returned fam s q a s') {e : Event V F}
    (he : ∀ p db, e = .answered p .cached db → db.tainted p = false) : Returned fam s q a (s'.emit e) :=
  ⟨⟨h.calmed.calm.emit he, ⟨h.calmed.scc.stays, h.calmed.scc.opens⟩, h.calmed.fixed⟩, h.joins, h.canceled⟩

theorem Running.emit (h : Running fam s q t) {r : BeginResult} (hr : r ≠ .cached) :
    Running fam s q (t.emit (.answered q r t.toDb)) :=
  ⟨emit_kept h.tracked trivial, h.calm.emit fun _ _ he => absurd (Event.answered.inj he).2.1 hr, h.stack,
    ⟨h.scc.stays, h.scc.opens⟩, h.fixed⟩

section Answer

variable (hpull : PullCalm fam pull) (hkeep : PullKept fam (fun _ => True) (fun _ => True) pull)
  (hfix : ∀ q, q.kind.isFixpoint = true → ¬ CanFail (fam.body q))

include hpull hkeep hfix

theorem computeAndDrive_calm [DecidableEq F] (hq : q.kind.isInput = false) (hs : Calm fam s)
    (hidle : (s.slots q).state ≠ .running) (hacc : Accounted s.toDb) (h : Running fam s q t)
    (hrunning : (t.slots q).state = .running) {a : Answer V} (hrun : computeAndDrive fam pull q t = some (a, s')) :
    Returned fam s q a s' := by
  obtain ⟨top, hstack, htop⟩ := h.stack
  have hne (p : Query) (hp : (s.slots p).state = .running) : p ≠ q := by
    rintro rfl
    exact hidle hp
  have hqueries : queries t.toDb = queries (opened s q).toDb := h.queries.trans (queries_opened s q).symm
  unfold computeAndDrive at hrun
  cases hcomp : compute fam pull q t with
  | none => simp [hcomp] at hrun
  | some res =>
      obtain ⟨b, u⟩ := res
      simp only [hcomp] at hrun
      obtain ⟨hcalm, hscc, hfixed, -, hcan⟩ := compute_calm hpull hkeep hfix hq h.tracked h.calm hstack htop hcomp
      obtain ⟨hclose, -⟩ := compute_closed hkeep (fun _ _ => .inl trivial) (fun _ _ _ _ => trivial) hq h.tracked
        hstack htop
        (fun _ => hrunning) (fun _ _ _ => .inl trivial) hcomp
      have hstep : SccStep (opened s q).toDb u.toDb := h.scc.trans hscc hqueries
      have hfixedU (p : Query) (hp : (s.slots p).state = .running) :
          (u.slots p).state = .running ∧ u.tainted p = s.tainted p := by
        obtain ⟨hr, ht⟩ := h.fixed p hp
        obtain ⟨hr', ht'⟩ := hfixed p (hne p hp) hr
        exact ⟨hr', ht'.trans ht⟩
      split at hrun
      · rename_i hroot
        simp only [Option.map_eq_some_iff, Prod.mk.injEq] at hrun
        obtain ⟨v, hdrive, rfl, rfl⟩ := hrun
        obtain ⟨scc, hu, hsr⟩ : ∃ scc, u.scc = some scc ∧ scc.root = q := by
          simpa [fixpointIsRoot] using hroot.2
        have hnone : s.scc = none := by
          cases hs' : s.scc with
          | none => rfl
          | some scc' =>
              obtain ⟨scc'', hu', hr, -⟩ := hstep.stays scc' hs'
              obtain rfl : scc = scc'' := Option.some.inj (hu.symm.trans hu')
              exact absurd (hs.running _ (hs.root scc' hs').1) (by rw [← hr, hsr]; exact hidle)
        obtain ⟨above, below, hsplit, -, hbelow⟩ := hstep.opens hnone scc hu
        have hbelow' : below = queries s.toDb := by
          rw [queries_opened, hsr] at hsplit
          cases above with
          | nil => exact (List.cons.inj hsplit).2.symm
          | cons x above =>
              refine absurd ?_ (hs.not_on_stack hidle)
              rw [(List.cons.inj hsplit).2]
              simp
        have hqu : queries u.toDb = queries s.toDb := Grown.queries hclose.grown
        have hdriving : Driving fam q (sccQueries u.toDb) u := by
          refine ⟨hclose.kept, hcalm, ⟨scc, hu, hsr⟩, rfl, ?_, ?_⟩
          · intro m hm
            rw [hqu, ← hbelow']
            exact hbelow m hm
          · intro p hp
            have hreach := h.calm.stack.reach
            rw [hqu] at hp
            have hp := List.mem_of_mem_head? hp
            simp only [hstack, List.map_cons, List.pairwise_cons] at hreach
            exact htop ▸ hreach.1 p hp
        obtain ⟨hcalmV, hnoneV, hfixedV⟩ := fixpointDrive_calm hpull hkeep hfix hdriving hdrive
        refine ⟨⟨hcalmV, ⟨fun scc' hs' => ?_, fun _ scc' hs' => ?_⟩, ?_⟩, fun _ hsome => absurd hnoneV hsome, ?_⟩
        · simp [hnone] at hs'
        · simp [hnoneV] at hs'
        · intro p hp
          have hmem : p ∉ sccQueries u.toDb := by
            intro hm
            refine hbelow p hm ?_
            rw [hbelow']
            refine (hacc p hp).resolve_right ?_
            simp [sccQueries, hnone]
          obtain ⟨hr, ht⟩ := hfixedU p hp
          obtain ⟨hr', ht'⟩ := hfixedV p hmem hr
          exact ⟨hr', ht'.trans ht⟩
        · rw [checkCancel_eq]
          split
          · simp
          split
          · simp
          · exact fun hk => absurd hk hcan
      · rename_i hroot
        simp only [Option.some.injEq, Prod.mk.injEq] at hrun
        obtain ⟨rfl, rfl⟩ := hrun
        refine ⟨⟨hcalm, ?_, hfixedU⟩, ?_, fun hk => absurd hk hcan⟩
        · refine sccStep_below hstep (opened_stack s q) ?_ rfl rfl rfl
          intro scc hu _ heq
          have hmem := (hcalm.root scc hu).1
          have heq : scc.root = q := heq
          rw [heq] at hmem
          refine hroot ⟨(hclose.kept.members q hmem).1, ?_⟩
          simp [fixpointIsRoot, hu, heq]
        · intro hnone hsome
          exact hstep.top_joins hcalm (opened_stack s q) hnone hsome

omit hpull hkeep hfix in
theorem input_calm [DecidableEq F] (ht : Tracked s) (hs : Calm fam s) (hin : q.kind.isInput = true)
    (hstate : (s.slots q).state = .done) (hlink : ∀ f ∈ s.stack.head?, TransGen (Calls fam) f.query q) {r : BeginResult}
    (hbegin : beginSlot pull q s = some (r, t)) :
    r = .cached ∧ Calmed fam s t ∧ t.scc = s.scc ∧ t.tainted q = false := by
  obtain ⟨log, hlog, hrev⟩ := revalidate_leaf pull .done .cached (s := s) ((ht.slots q).input hin).1
  simp only [beginSlot, hstate, hrev, Option.some.injEq, Prod.mk.injEq] at hbegin
  obtain ⟨rfl, rfl⟩ := hbegin
  have hmod := hs.toCalmAt.modify (q := q)
    (f := fun slot => { slot with state := .done, verifiedRev := effectiveRevision s.toDb }) hstate.symm rfl
      (hs.links q)
  have hrecord := hmod.stack.record (q := q) hlink (s.slots q).fingerprint (s.slots q).durability
  have hqueries : (recordTop s.stack q (s.slots q).fingerprint (s.slots q).durability).map (·.query) = queries
    s.toDb := by
    cases hst : s.stack <;> simp [queries, recordTop, hst]
  refine ⟨rfl, ⟨⟨⟨hrecord, hmod.links, hmod.provisional, hmod.running, ?_, hmod.untainted, ?_⟩, hs.nodup, hs.root⟩,
    ⟨fun scc hscc => ⟨scc, hscc, rfl, rfl⟩, fun hn _ hsome => by simp [hn] at hsome⟩, ?_⟩, rfl, hs.untainted q hstate⟩
  · intro p hp hc
    refine (hmod.accounted p hp hc).imp_left fun hm => ?_
    rw [queries, hqueries]
    exact hm
  · intro p db hmem
    rcases List.mem_append.mp hmem with hmem | hmem
    · exact hs.log p db hmem
    · rcases hlog with rfl | rfl <;> simp at hmem
  · intro p hp
    have hpq : p ≠ q := by
      rintro rfl
      simp [hstate] at hp
    simpa [hpq] using hp

theorem settled_calm [DecidableEq F] (ht : Tracked s) (hs : Calm fam s) (hacc : Accounted s.toDb)
    (hq : q.kind.isInput = false) (hset : Settled s.toDb q)
    (hlink : ∀ f ∈ s.stack.head?, TransGen (Calls fam) f.query q) {a : Answer V} {hit r : BeginResult}
    (hhit : hit = .cached ∧ (s.slots q).state = .done ∨ hit = .error)
    (hrev : revalidate pull (s.slots q).state hit q s = some (r, t))
    (hrun : answerOf fam pull q r (t.emit (.answered q r t.toDb)) = some (a, s')) : Returned fam s q a s' := by
  have hidle : (s.slots q).state ≠ .running := by rcases hset with hs | hs <;> simp [hs]
  rcases revalidate_calm hpull hkeep hq ht hs hset hlink hrev with ⟨rfl, hcalmed, hnone, huntainted⟩ | ⟨rfl, hrunning⟩
  · have hret (kind : AnswerKind) (hk : kind ≠ .canceled) (v : V) : Returned fam s q ⟨v, kind⟩ t :=
      ⟨hcalmed, fun hn hsome => absurd (hnone hn) hsome, fun hc => absurd hc hk⟩
    rcases hhit with ⟨rfl, hdone⟩ | rfl
    · simp only [answerOf, Option.some.injEq, Prod.mk.injEq] at hrun
      obtain ⟨rfl, rfl⟩ := hrun
      refine Returned.emit (hret .cached (by simp) _) ?_
      rintro p db ⟨⟩
      exact huntainted hdone
    · simp only [answerOf, Option.some.injEq, Prod.mk.injEq] at hrun
      obtain ⟨rfl, rfl⟩ := hrun
      exact Returned.emit (hret .cachedError (by simp) _) (by simp)
  · simp only [answerOf, hq, Bool.false_eq_true, if_false] at hrun
    refine computeAndDrive_calm hpull hkeep hfix hq hs hidle hacc (Running.emit hrunning (by simp)) ?_ hrun
    obtain ⟨top, hstack, htop⟩ := hrunning.stack
    exact htop ▸ hrunning.calm.stack.running top (hstack ▸ List.mem_cons_self ..)

theorem begun_calm [DecidableEq F] (hunmixed : Unmixed fam) (ht : Tracked s) (hs : Calm fam s) (hacc : Accounted s.toDb)
    (hloc : isLocated s.toDb q = true) (hlink : ∀ f ∈ s.stack.head?, TransGen (Calls fam) f.query q) {a : Answer V}
    {r : BeginResult} (hbegin : beginSlot pull q s = some (r, t))
    (hrun : answerOf fam pull q r (t.emit (.answered q r t.toDb)) = some (a, s')) : Returned fam s q a s' := by
  by_cases hin : q.kind.isInput = true
  · rcases ((ht.slots q).input hin).2 with hstate | hstate
    · simp only [beginSlot, hstate, Option.some.injEq, Prod.mk.injEq] at hbegin
      obtain ⟨rfl, -⟩ := hbegin
      simp [answerOf, hin] at hrun
    · obtain ⟨rfl, hcalmed, hscc, huntainted⟩ := input_calm ht hs hin hstate hlink hbegin
      simp only [answerOf, Option.some.injEq, Prod.mk.injEq] at hrun
      obtain ⟨rfl, rfl⟩ := hrun
      refine Returned.emit ⟨hcalmed, fun hn hsome => absurd (hscc.trans hn) hsome, by simp⟩ ?_
      rintro p db ⟨⟩
      exact huntainted
  · have hq : q.kind.isInput = false := by simpa using hin
    cases hstate : (s.slots q).state with
    | done =>
        simp only [beginSlot, hstate] at hbegin
        rw [← hstate] at hbegin
        exact settled_calm hpull hkeep hfix ht hs hacc hq (.inl hstate) hlink (.inl ⟨rfl, hstate⟩) hbegin hrun
    | error =>
        simp only [beginSlot, hstate] at hbegin
        rw [← hstate] at hbegin
        exact settled_calm hpull hkeep hfix ht hs hacc hq (.inr hstate) hlink (.inr rfl) hbegin hrun
    | running =>
        simp only [beginSlot, hstate, Option.some.injEq] at hbegin
        obtain ⟨hcalmed, hjoins⟩ := enterCycle_calm hunmixed hs hacc hstate hlink
        rw [hbegin] at hcalmed hjoins
        rcases hbegin ▸ enterCycle_result s q with rfl | rfl
        · simp only [answerOf, Option.some.injEq, Prod.mk.injEq] at hrun
          obtain ⟨rfl, rfl⟩ := hrun
          exact Returned.emit ⟨hcalmed, hjoins, by simp⟩ (by simp)
        · simp only [answerOf, Option.some.injEq, Prod.mk.injEq] at hrun
          obtain ⟨rfl, rfl⟩ := hrun
          exact Returned.emit ⟨hcalmed, hjoins, by simp⟩ (by simp)
    | empty =>
        simp only [beginSlot, hstate, Option.some.injEq, Prod.mk.injEq] at hbegin
        obtain ⟨rfl, rfl⟩ := hbegin
        simp only [answerOf, hq, Bool.false_eq_true, if_false] at hrun
        have hidle : (s.slots q).state ≠ .running := by simp [hstate]
        have hopen := opened_kept ht hq trivial hloc
        have hcalm := hs.opened hidle hlink
        have hrunning : Running fam s q (trackRunning (opened s q) q) := by
          refine ⟨⟨⟨hopen.slots, hopen.frames, hopen.members⟩, hopen.log⟩,
            ⟨⟨hcalm.stack, hcalm.links, hcalm.provisional,
            hcalm.running, hcalm.accounted, hcalm.untainted, hcalm.log⟩, hcalm.nodup, hcalm.root⟩,
            ⟨openedFrame s q, opened_stack s q, rfl⟩, ⟨fun scc hscc => ⟨scc, hscc, rfl, rfl⟩, fun hn _ hsome => ?_⟩, ?_⟩
          · exact absurd (hn ▸ hsome : none = some _) (by simp)
          · intro p hp
            have hpq : p ≠ q := by
              rintro rfl
              exact hidle hp
            exact ⟨by simpa [trackRunning, opened_ne s hpq] using hp, rfl⟩
        refine computeAndDrive_calm hpull hkeep hfix hq hs hidle hacc (Running.emit hrunning (by simp)) ?_ hrun
        show ((opened s q).slots q).state = .running
        rw [opened_slot]

theorem demandWith_calm [DecidableEq F] [Inhabited V] (hunmixed : Unmixed fam) (ht : Tracked s) (hs : Calm fam s)
    (hlink : ∀ f ∈ s.stack.head?, TransGen (Calls fam) f.query q) {a : Answer V}
    (hrun : demandWith fam pull q s = some (a, s')) : Returned fam s q a s' := by
  obtain ⟨halloc, -, hstack, hloc⟩ := slotAlloc_kept (q := q) ht
  have hcalmed := alloc_calm (q := q) ht hs
  have hscc : (slotAlloc s q).scc = s.scc := by
    unfold slotAlloc
    split <;> rfl
  have hq : queries (slotAlloc s q).toDb = queries s.toDb := by simp [queries, hstack]
  unfold demandWith queryBegin at hrun
  rw [checkCancel_eq] at hrun
  simp only at hrun
  split at hrun
  · simp at hrun
  · rename_i r u hbegin
    split at hbegin
    · rename_i hcan
      have hcan : (slotAlloc s q).cancelIn = some 0 := by simpa using hcan
      simp only [Option.some.injEq, Prod.mk.injEq] at hbegin
      obtain ⟨rfl, rfl⟩ := hbegin
      simp only [answerOf, Option.some.injEq, Prod.mk.injEq] at hrun
      obtain ⟨rfl, rfl⟩ := hrun
      have hc := hcalmed.calm
      have hret : Returned fam s q ⟨fam.bottom q, .canceled⟩
          { slotAlloc s q with cancelIn := (slotAlloc s q).cancelIn.map (· - 1) } := by
        refine ⟨⟨⟨⟨hc.stack, hc.links, hc.provisional, hc.running, ?_, hc.untainted, hc.log⟩, hc.nodup, hc.root⟩,
          ⟨hcalmed.scc.stays, hcalmed.scc.opens⟩, hcalmed.fixed⟩, fun hn hsome => absurd (hscc.trans hn) hsome,
          fun _ => sticky_tick hcan⟩
        exact fun p _ hc' => absurd (sticky_tick hcan) hc'
      exact Returned.emit hret (by simp)
    · rename_i hcan
      obtain ⟨htick, hacc⟩ := tick_calm hcalmed.calm (by simpa using hcan)
      have htracked : Tracked { slotAlloc s q with cancelIn := (slotAlloc s q).cancelIn.map (· - 1) } :=
        ⟨⟨halloc.slots, halloc.frames, halloc.members⟩, halloc.log⟩
      have hret := begun_calm hpull hkeep hfix hunmixed htracked htick.calm hacc hloc (by rw [hstack]; exact hlink)
        hbegin hrun
      exact ⟨(hcalmed.trans htick hq).trans hret.calmed hq, fun hn hsome => hret.joins (hscc.trans hn) hsome,
        hret.canceled⟩

omit hpull hkeep in
theorem demand_calm [DecidableEq F] [Inhabited V] (hunmixed : Unmixed fam) (depth : Nat) :
    PullCalm fam (demand fam depth) := by
  induction depth with
  | zero =>
      intro q s a s' hrun
      simp [demand] at hrun
  | succ depth ih =>
      intro q s a s' hrun ht hs hlink
      have hkeep : PullKept fam (fun _ => True) (fun _ => True) (demand fam depth) :=
        demand_kept (fun _ _ => .inl trivial) (fun _ _ _ _ => trivial) depth
      have hret := demandWith_calm ih hkeep hfix hunmixed ht hs hlink hrun
      exact ⟨hret.calmed, hret.joins, hret.canceled⟩

end Answer

/-- What holds between two operations. A slot runs only inside a request that
was canceled, and the sweep will find it. -/
structure AtRest (fam : Family V F) (s : State V F) : Prop where
  tidy : Tidy (fun _ => True) s
  scc : s.scc = none
  links : ∀ p, ∀ d ∈ (s.slots p).deps, TransGen (Calls fam) p d.query
  provisional : ∀ p, (s.slots p).provisional = false
  swept : ∀ p, (s.slots p).state = .running → s.cancelIn = some 0 ∧ s.request ≠ 0 ∧ p ∈ s.running
  untainted : ∀ p, (s.slots p).state = .done → s.tainted p = false
  log : ∀ q db, .answered q .cached db ∈ s.log → db.tainted q = false
  current : s.current < revLimit

/-- Requests do not nest, and demands are made inside them. -/
def Bracketed (s : State V F) : Op V → Prop
  | .requestBegin _ => s.request = 0
  | .demand _ => s.request ≠ 0
  | _ => True

/-- Nothing of a request is left when it has ended. -/
structure Clean (s : State V F) : Prop where
  stack : s.stack = []
  idle : ∀ p, (s.slots p).state ≠ .running
  provisional : ∀ p, (s.slots p).provisional = false
  scc : s.scc = none

namespace AtRest

theorem calm (h : AtRest fam s) : Calm fam s := by
  have hmembers : sccQueries s.toDb = [] := by simp [sccQueries, h.scc]
  refine ⟨⟨⟨?_, ?_, ?_, ?_⟩, h.links, ?_, ?_, ?_, h.untainted, h.log⟩, ?_, ?_⟩
  · simp [h.tidy.stack]
  · simp [h.tidy.stack]
  · simp [h.tidy.stack]
  · simp [h.tidy.stack]
  · simp [hmembers, h.provisional]
  · simp [hmembers]
  · intro p hp hc
    exact absurd (h.swept p hp).1 hc
  · simp [hmembers]
  · simp [h.scc]

theorem idle (h : AtRest fam s) (hrequest : s.request = 0) (p : Query) : (s.slots p).state ≠ .running :=
  fun hp => (h.swept p hp).2.1 hrequest

theorem edit (h : AtRest fam s) (htidy : Tidy (fun _ => True) s') (hrequest : s.request = 0) {slot : Slot F}
    (hslots : s'.slots = Function.update s.slots q slot) (hstate : slot.state = .done)
    (hdeps : slot.deps = (s.slots q).deps) (hprov : slot.provisional = (s.slots q).provisional) (hscc : s'.scc = s.scc)
    (htaint : s'.tainted = Function.update s.tainted q false) (hlog : s'.log = s.log)
      (hcurrent : s'.current < revLimit) :
    AtRest fam s' := by
  refine ⟨htidy, hscc.trans h.scc, ?_, ?_, ?_, ?_, hlog ▸ h.log, hcurrent⟩
  · intro p
    by_cases hp : p = q
    · subst hp
      simpa [hslots, hdeps] using h.links p
    · simpa [hslots, hp] using h.links p
  · intro p
    by_cases hp : p = q
    · subst hp
      simpa [hslots, hprov] using h.provisional p
    · simpa [hslots, hp] using h.provisional p
  · intro p hrunning
    by_cases hp : p = q
    · subst hp
      simp [hslots, hstate] at hrunning
    · exact absurd (by simpa [hslots, hp] using hrunning) (h.idle hrequest p)
  · intro p hdone
    by_cases hp : p = q
    · simp [htaint, hp]
    · simpa [htaint, hp] using h.untainted p (by simpa [hslots, hp] using hdone)

theorem reset (h : AtRest fam s) (htidy : Tidy (fun _ => True) s') (hscc : s'.scc = s.scc)
    (htaint : s'.tainted = s.tainted)
    (hlog : s'.log = s.log) (hcurrent : s'.current = s.current) (hidle : ∀ p, (s'.slots p).state ≠ .running)
    (hslot : ∀ p, s'.slots p = s.slots p ∨ (s'.slots p).state = .empty ∧ (s'.slots p).deps = [] ∧
      (s'.slots p).provisional = (s.slots p).provisional) : AtRest fam s' := by
  refine ⟨htidy, hscc.trans h.scc, ?_, ?_, fun p hp => absurd hp (hidle p), ?_, hlog ▸ h.log, hcurrent ▸ h.current⟩
  · intro p
    rcases hslot p with heq | ⟨-, hdeps, -⟩
    · exact heq ▸ h.links p
    · simp [hdeps]
  · intro p
    rcases hslot p with heq | ⟨-, -, hprov⟩
    · exact heq ▸ h.provisional p
    · exact hprov.trans (h.provisional p)
  · intro p hp
    rw [htaint]
    rcases hslot p with heq | ⟨hempty, -, -⟩
    · exact h.untainted p (heq ▸ hp)
    · simp [hempty] at hp

theorem sweep (h : AtRest fam s) :
    AtRest fam (engineSweepRunning s) ∧ ∀ p, ((engineSweepRunning s).slots p).state ≠ .running := by
  have hidle (p : Query) : ((engineSweepRunning s).slots p).state ≠ .running := by
    intro hp
    simp only [engineSweepRunning, sweepSlot] at hp
    split at hp
    · split at hp
      · simp at hp
      · exact absurd hp ‹_›
    · exact absurd (h.swept p hp).2.2 ‹_›
  refine ⟨h.reset h.tidy.sweep rfl rfl rfl rfl hidle ?_, hidle⟩
  intro p
  simp only [engineSweepRunning, sweepSlot]
  split
  · split
    · exact .inr ⟨rfl, rfl, rfl⟩
    · exact .inl rfl
  · exact .inl rfl

theorem compact (h : AtRest fam s) (hidle : ∀ p, (s.slots p).state ≠ .running) :
    AtRest fam (engineCompact s) ∧ ∀ p, ((engineCompact s).slots p).state ≠ .running := by
  have htidy := h.tidy.compact
  unfold engineCompact at htidy ⊢
  split
  · rename_i hlimit
    rw [if_pos hlimit] at htidy
    have hslot (p : Query) : (reclaimOrphans s (s.current - orphanThreshold)).slots p = s.slots p ∨
        ((reclaimOrphans s (s.current - orphanThreshold)).slots p).state = .empty ∧
        ((reclaimOrphans s (s.current - orphanThreshold)).slots p).deps = [] ∧
        ((reclaimOrphans s (s.current - orphanThreshold)).slots p).provisional = (s.slots p).provisional := by
      simp only [reclaimOrphans]
      split
      · exact .inr ⟨rfl, rfl, rfl⟩
      · exact .inl rfl
    have hidle' (p : Query) : ((reclaimOrphans s (s.current - orphanThreshold)).slots p).state ≠ .running := by
      rcases hslot p with heq | ⟨hempty, -, -⟩
      · exact heq ▸ hidle p
      · simp [hempty]
    exact ⟨h.reset htidy rfl rfl rfl rfl hidle' hslot, hidle'⟩
  · exact ⟨h, hidle⟩

end AtRest

theorem initial_atRest [Inhabited V] : AtRest fam (initial V F) := by
  refine ⟨initial_tidy, rfl, ?_, ?_, ?_, ?_, ?_, ?_⟩ <;> simp [initial, Slot.zero, revLimit]

section Step

variable [DecidableEq F] [Inhabited V] {depth : Nat} {op : Op V}

theorem requestEnd_clean (h : AtRest fam s) (hstep : step fam depth s .requestEnd = some s') : AtRest fam s' ∧
    Clean s' := by
  simp only [step, Option.ite_none_right_eq_some, Option.some.injEq] at hstep
  obtain ⟨-, rfl⟩ := hstep
  obtain ⟨hsweep, hidle⟩ := h.sweep
  have hclosed : AtRest fam { engineSweepRunning s with request := 0 } :=
    hsweep.reset ⟨⟨⟨hsweep.tidy.kept.slots, hsweep.tidy.kept.frames, hsweep.tidy.kept.members⟩, hsweep.tidy.kept.log⟩,
      hsweep.tidy.stack⟩ rfl rfl rfl rfl hidle fun _ => .inl rfl
  obtain ⟨hrest, hidle⟩ := hclosed.compact hidle
  exact ⟨hrest, hrest.tidy.stack, hidle, hrest.provisional, hrest.scc⟩

theorem demand_atRest (hunmixed : Unmixed fam) (hfix : ∀ q, q.kind.isFixpoint = true → ¬ CanFail (fam.body q))
    (h : AtRest fam s) (hrequest : s.request ≠ 0) {a : Answer V} (hrun : demand fam depth q s = some (a, s')) :
    AtRest fam s' := by
  obtain ⟨htidy, hpass⟩ := demand_tidy (fun _ _ => .inl trivial) h.tidy (fun _ _ _ _ => .inl trivial) hrun
  obtain ⟨hcalmed, -, -⟩ := demand_calm hfix hunmixed depth q s a s' hrun h.tidy.kept h.calm (by simp [h.tidy.stack])
  have hscc : s'.scc = none := by
    by_contra hsome
    obtain ⟨scc, hscc⟩ := Option.ne_none_iff_exists'.mp hsome
    obtain ⟨above, below, hq, -, -⟩ := hcalmed.scc.opens h.scc scc hscc
    simp [queries, h.tidy.stack] at hq
  have hmembers : sccQueries s'.toDb = [] := by simp [sccQueries, hscc]
  refine ⟨htidy, hscc, hcalmed.calm.links, ?_, ?_, hcalmed.calm.untainted, hcalmed.calm.log, hpass.current ▸ h.current⟩
  · intro p
    simpa [hmembers] using hcalmed.calm.provisional p
  · intro p hp
    refine ⟨?_, hpass.request ▸ hrequest, ?_⟩
    · by_contra hc
      simpa [queries, htidy.stack, hmembers] using hcalmed.calm.accounted p hp hc
    · rcases hpass.tracked p (fun hx => hx) hp with hrunning | hmem
      · exact hpass.mono p (h.swept p hrunning).2.2
      · exact hmem

theorem step_atRest (hunmixed : Unmixed fam) (hfix : ∀ q, q.kind.isFixpoint = true → ¬ CanFail (fam.body q))
    (h : AtRest fam s) (hop : Bracketed s op) (hstep : step fam depth s op = some s') : AtRest fam s' := by
  have htidy (hne : ∀ q, op ≠ .demand q) : Tidy (fun _ => True) s' := step_tidy h.tidy hne hstep
  have hlimit (n : Nat) : n % revLimit < revLimit := Nat.mod_lt _ (by simp [revLimit])
  cases op with
  | edit q v dur =>
      have htidy := htidy (by simp)
      simp only [step, Option.ite_none_right_eq_some, Option.some.injEq] at hstep
      obtain ⟨⟨-, hrequest⟩, rfl⟩ := hstep
      refine h.edit htidy hrequest (q := q) rfl ?_ ?_ ?_ rfl rfl rfl (hlimit _) <;> rfl
  | sourceEdit q v dur =>
      have htidy := htidy (by simp)
      simp only [step, Option.ite_none_right_eq_some, Option.some.injEq] at hstep
      obtain ⟨⟨-, hrequest⟩, rfl⟩ := hstep
      refine h.edit htidy hrequest (q := q) rfl ?_ ?_ ?_ rfl rfl rfl (hlimit _) <;> rfl
  | requestBegin revision =>
      have htidy := htidy (by simp)
      simp only [step, Option.ite_none_right_eq_some, Option.some.injEq] at hstep
      obtain ⟨-, rfl⟩ := hstep
      exact h.reset htidy rfl rfl rfl rfl (h.idle hop) fun _ => .inl rfl
  | requestEnd => exact (requestEnd_clean h hstep).1
  | demand q =>
      simp only [step, Option.map_eq_some_iff] at hstep
      obtain ⟨⟨a, t⟩, hrun, rfl⟩ := hstep
      exact demand_atRest hunmixed hfix h hop hrun
  | cancel checks =>
      have htidy := htidy (by simp)
      simp only [step, Option.some.injEq] at hstep
      subst hstep
      refine ⟨htidy, h.scc, h.links, h.provisional, ?_, h.untainted, h.log, h.current⟩
      intro p hp
      obtain ⟨hc, hr, hm⟩ := h.swept p hp
      exact ⟨by simp [hc], hr, hm⟩

/-- In every run whose demands lie in requests that do not nest, over a family
without cycles of mixed policies and whose fixpoint bodies do not fail, nothing
of a request is left when it has ended, whenever cancellation became visible. -/
theorem request_boundary (hunmixed : Unmixed fam) (hfix : ∀ q, q.kind.isFixpoint = true → ¬ CanFail (fam.body q))
    {ops : List (Op V)} (hok : AllSteps Bracketed fam depth ops (initial V F))
    (hrun : run fam depth ops (initial V F) = some s) :
    (∀ q db, .answered q .cached db ∈ s.log → db.tainted q = false) ∧
      ∀ s', step fam depth s .requestEnd = some s' → Clean s' := by
  have hrest : AtRest fam s :=
    run_invariant Bracketed (AtRest fam) (fun _ _ _ h hop hstep => step_atRest hunmixed hfix h hop hstep)
      initial_atRest hok hrun
  exact ⟨hrest.log, fun s' hstep => (requestEnd_clean hrest hstep).2⟩

end Step

/-- A signature whose cycle passes through a type, which has the other policy. -/
def mixed : Family Nat Nat where
  body q := match q.kind with
    | .fnSignature => .demand ⟨.typeOfDecl, q.key⟩ fun _ => .ret 0
    | .typeOfDecl => .demand ⟨.sourceText, 1⟩ fun _ => .demand ⟨.inferBody, q.key⟩ fun _ => .ret 0
    | .inferBody => .demand ⟨.sourceText, 2⟩ fun _ => .demand ⟨.fnSignature, q.key⟩ fun _ => .ret 0
    | _ => .ret 0
  bottom _ := 0
  onError _ := 0
  fingerprint _ v := some v

/-- The cycle is computed, both sources change, and the signature is verified
again. -/
def mixedOps : List (Op Nat) :=
  [.edit ⟨.sourceText, 1⟩ 0 .low, .edit ⟨.sourceText, 2⟩ 0 .low, .requestBegin 3, .demand ⟨.fnSignature, 1⟩,
    .requestEnd,
    .edit ⟨.sourceText, 1⟩ 1 .low, .edit ⟨.sourceText, 2⟩ 1 .low, .requestBegin 5, .demand ⟨.fnSignature, 1⟩,
      .requestEnd]

/-- The component opened under the verified signature is never driven, and
outlives the request. -/
theorem request_residue : ∃ s, run mixed 5 mixedOps (initial Nat Nat) = some s ∧ s.request = 0 ∧ s.scc ≠ none ∧
    (s.slots ⟨.fnSignature, 1⟩).provisional = true ∧ (s.slots ⟨.inferBody, 1⟩).provisional = true := by
  obtain ⟨s, hrun, htest⟩ := found_of_run mixed 5 mixedOps (initial Nat Nat)
    (fun s => decide (s.request = 0 ∧ s.scc.isSome = true ∧ (s.slots ⟨.fnSignature, 1⟩).provisional = true ∧
      (s.slots ⟨.inferBody, 1⟩).provisional = true)) (by decide +kernel)
  obtain ⟨hrequest, hscc, hprov⟩ := of_decide_eq_true htest
  exact ⟨s, hrun, hrequest, Option.isSome_iff_ne_none.mp hscc, hprov⟩

def mutualPair : Family Nat Nat where
  body q := match q.kind with
    | .fnSignature => .demand ⟨.fnSignature, 1 - q.key⟩ fun x => .ret (min (x + 1) 2)
    | _ => .ret 0
  bottom _ := 0
  onError _ := 0
  fingerprint _ v := some v

theorem mutualPair_calls {p c : Query} (h : TransGen (Calls mutualPair) p c) : c.kind = .fnSignature := by
  have hstep (p c : Query) (h : Calls mutualPair p c) : c.kind = .fnSignature := by
    have hd := h.2
    unfold mutualPair at hd
    cases hk : p.kind <;> simp [hk] at hd
    simp [hd]
  induction h with
  | single h => exact hstep _ _ h
  | tail _ h _ => exact hstep _ _ h

theorem mutualPair_succeeds (q : Query) : ¬ CanFail (mutualPair.body q) := by
  cases hk : q.kind <;> simp [mutualPair, hk]

def canceledOps : List (Op Nat) := [.requestBegin 1, .cancel 3, .demand ⟨.fnSignature, 0⟩]

theorem request_boundary_canceled : ∃ s s', run mutualPair 4 canceledOps (initial Nat Nat) = some s ∧
    (s.slots ⟨.fnSignature, 0⟩).state = .running ∧ step mutualPair 4 s .requestEnd = some s' ∧ Clean s' := by
  obtain ⟨s, hrun, htest⟩ := found_of_run mutualPair 4 canceledOps (initial Nat Nat)
    (fun s => decide ((s.slots ⟨.fnSignature, 0⟩).state = .running ∧
      (step mutualPair 4 s .requestEnd).isSome = true)) (by decide +kernel)
  obtain ⟨hrunning, hsome⟩ := of_decide_eq_true htest
  obtain ⟨s', hstep⟩ := Option.isSome_iff_exists.mp hsome
  have hunmixed : Unmixed mutualPair := by
    intro r d _ hrd _
    simp [mutualPair_calls hrd, QueryKind.isFixpoint]
  have hok : AllSteps Bracketed mutualPair 4 canceledOps (initial Nat Nat) := by
    refine ⟨rfl, fun t ht => ⟨trivial, fun u hu => ⟨?_, fun _ _ => trivial⟩⟩⟩
    simp only [step, Option.ite_none_right_eq_some, Option.some.injEq] at ht hu
    obtain ⟨-, rfl⟩ := ht
    subst hu
    simp [Bracketed]
  exact ⟨s, s', hrun, hrunning, hstep,
    (request_boundary hunmixed (fun q _ => mutualPair_succeeds q) hok hrun).2 s' hstep⟩

end Ore.EngineRequests
