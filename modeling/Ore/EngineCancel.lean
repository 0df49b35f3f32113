import Ore.EngineCalm

namespace Ore.EngineCancel

open Tasks EngineModel EngineFacts EngineSound EngineDiscipline EngineRecording EngineCalm
open Relation (TransGen ReflTransGen)

variable {V F : Type} {fam : Family V F} {s s' t : State V F} {q c : Query} {pull : Pull V F}
variable {top : Frame F} {rest : List (Frame F)}

theorem pull_tracked (hkeep : PullKept fam (fun _ => True) (fun _ => True) pull) {a : Answer V}
    (hrun : pull q s = some (a, s')) (h : Tracked s) :
    Tracked s' ∧ Passes s.toDb s'.toDb ∧ Grown s.stack s'.stack := by
  have hans := hkeep q s a s' hrun h trivial fun _ _ _ => .inl trivial
  exact ⟨hans.kept, hans.passes, hans.grown⟩

theorem grown_stack (h : Grown s.stack s'.stack) (hstack : s.stack = top :: rest) :
    ∃ top', s'.stack = top' :: rest ∧ top'.query = top.query := by
  rw [hstack] at h
  obtain ⟨top', hs', hq, -, -⟩ := h.cons_left
  exact ⟨top', hs', hq⟩

/-- Closing a query that opened no component, or joined the one that opened. -/
theorem sccStep_below {u : State V F} (h : SccStep s.toDb u.toDb) (hstack : s.stack = top :: rest)
    (hroot : ∀ scc, u.scc = some scc → s.scc = none → scc.root ≠ top.query) {v w : State V F} (hv : v.scc = s.scc)
    (hvs : v.stack = rest) (hw : w.scc = u.scc) : SccStep v.toDb w.toDb := by
  have hvq : sccQueries v.toDb = sccQueries s.toDb := by simp [sccQueries, hv]
  have hwq : sccQueries w.toDb = sccQueries u.toDb := by simp [sccQueries, hw]
  refine ⟨?_, ?_⟩
  · intro scc hscc
    rw [hw, hwq, hvq]
    exact h.stays scc (hv ▸ hscc)
  · intro hnone scc' hsome
    rw [hwq]
    obtain ⟨above, below, hq, habove, hbelow⟩ := h.opens (hv ▸ hnone) scc' (hw ▸ hsome)
    cases above with
    | nil =>
        simp only [queries, hstack, List.map_cons, List.nil_append, List.cons.injEq] at hq
        exact absurd hq.1.symm (hroot scc' (hw ▸ hsome) (hv ▸ hnone))
    | cons x above =>
        simp only [queries, hstack, List.map_cons, List.cons_append, List.cons.injEq] at hq
        exact ⟨above, below, by simpa [queries, hvs] using hq.2, fun x hx => habove x (List.mem_cons_of_mem _ hx),
          hbelow⟩

section Walk

variable [DecidableEq F] (hpull : PullCalm fam pull) (hkeep : PullKept fam (fun _ => True) (fun _ => True) pull)

include hpull hkeep

theorem verifyWalk_calm (n i : Nat) (s : State V F) (top : Frame F) {b : Bool} (ht : Tracked s) (h : Calm fam s)
    (hstack : s.stack = top :: rest) (hrun : verifyWalk pull n i s = some (b, s')) :
    Calmed fam s s' ∧ (b = true → s.scc = none → s'.scc = none) := by
  induction n generalizing i s top with
  | zero =>
      simp only [verifyWalk, Option.some.injEq, Prod.mk.injEq] at hrun
      obtain ⟨-, rfl⟩ := hrun
      exact ⟨.refl h, fun _ hn => hn⟩
  | succ n ih =>
      unfold verifyWalk at hrun
      cases hdep : s.stack.head?.bind (·.deps[i]?) with
      | none => simp [hdep] at hrun
      | some dep =>
          simp only [hdep] at hrun
          have hlink : TransGen (Calls fam) top.query dep.query := by
            simp only [hstack, List.head?_cons, Option.bind_some] at hdep
            exact h.stack.links top (hstack ▸ List.mem_cons_self ..) dep (List.mem_of_getElem? hdep)
          cases hdisp : recomputeDispatch pull dep.query s with
          | none => simp [hdisp] at hrun
          | some t =>
              have hstep : Tracked t ∧ Grown s.stack t.stack ∧ Calmed fam s t ∧
                  (s.scc = none → t.scc ≠ none → dep.query ∈ sccQueries t.toDb) := by
                unfold recomputeDispatch at hdisp
                split at hdisp
                · obtain rfl : s = t := by simpa using hdisp
                  exact ⟨ht, .refl _, .refl h, fun hn hs => absurd hn hs⟩
                · simp only [Option.map_eq_some_iff] at hdisp
                  obtain ⟨⟨a, u⟩, hcall, rfl⟩ := hdisp
                  obtain ⟨ht', -, hg⟩ := pull_tracked hkeep hcall ht
                  obtain ⟨hcalmed, hjoin, -⟩ := hpull _ _ _ _ hcall ht h (by simpa [hstack] using hlink)
                  exact ⟨ht', hg, hcalmed, hjoin⟩
              obtain ⟨ht', hg, hcalmed, hjoin⟩ := hstep
              obtain ⟨top', hstack', -⟩ := grown_stack hg hstack
              have hseen : Calmed fam s (t.emit (.compared dep s.toDb t.toDb)) :=
                ⟨hcalmed.calm.emit (by simp), hcalmed.scc, hcalmed.fixed⟩
              have htseen : Tracked (t.emit (.compared dep s.toDb t.toDb)) := emit_kept ht' trivial
              simp only [hdisp] at hrun
              split at hrun
              · rename_i hok
                obtain ⟨hcalmed', hnone⟩ := ih (i + 1) _ top' htseen hseen.calm hstack' hrun
                refine ⟨hseen.trans hcalmed' (Grown.queries hg), fun hb hn => hnone hb ?_⟩
                by_contra hsome
                have hrunning := hcalmed.calm.running _ (hjoin hn hsome)
                simp [hok.2.1] at hrunning
              · simp only [Option.some.injEq, Prod.mk.injEq] at hrun
                obtain ⟨rfl, rfl⟩ := hrun
                exact ⟨hseen, by simp⟩

theorem engineVerify_calm {b : Bool} (ht : Tracked s) (h : Calm fam s) (hstack : s.stack = top :: rest)
    (hrun : engineVerify pull q s = some (b, s')) : Calmed fam s s' ∧ (b = true → s.scc = none → s'.scc = none) := by
  have hstamp {t : State V F} (rev : Nat) (ht : Calmed fam s t) :
      Calmed fam s (t.modifySlot q fun slot => { slot with verifiedRev := rev }) := by
    refine ⟨⟨ht.calm.toCalmAt.modify rfl rfl (ht.calm.links q), ht.calm.nodup, ht.calm.root⟩,
      ⟨ht.scc.stays, ht.scc.opens⟩, ?_⟩
    intro p hp
    refine ⟨?_, (ht.fixed p hp).2⟩
    by_cases hpq : p = q
    · subst hpq
      simpa using (ht.fixed p hp).1
    · rw [modifySlot_ne _ _ hpq]
      exact (ht.fixed p hp).1
  unfold engineVerify at hrun
  simp only at hrun
  split at hrun
  · simp only [Option.some.injEq, Prod.mk.injEq] at hrun
    obtain ⟨-, rfl⟩ := hrun
    exact ⟨.refl h, fun _ hn => hn⟩
  split at hrun
  · simp only [Option.some.injEq, Prod.mk.injEq] at hrun
    obtain ⟨-, rfl⟩ := hrun
    refine ⟨hstamp _ ⟨h.emit (by simp), .refl _, fun _ hp => ⟨hp, rfl⟩⟩, fun _ hn => hn⟩
  · cases hwalk : verifyWalk pull ((s.stack.head?.map (·.deps.length)).getD 0) 0 s with
    | none => simp [hwalk] at hrun
    | some res =>
        obtain ⟨b', t⟩ := res
        obtain ⟨hcalmed, hnone⟩ := verifyWalk_calm hpull hkeep _ _ _ _ ht h hstack hwalk
        cases b' with
        | false =>
            simp only [hwalk, Option.some.injEq, Prod.mk.injEq] at hrun
            obtain ⟨rfl, rfl⟩ := hrun
            exact ⟨hcalmed, by simp⟩
        | true =>
            simp only [hwalk, Option.some.injEq, Prod.mk.injEq] at hrun
            obtain ⟨rfl, rfl⟩ := hrun
            exact ⟨hstamp _ hcalmed, hnone⟩

end Walk

/-- A query in progress: its frame lies on the stack it was demanded from. -/
structure Running (fam : Family V F) (s : State V F) (q : Query) (t : State V F) : Prop where
  tracked : Tracked t
  calm : Calm fam t
  stack : ∃ top, t.stack = top :: s.stack ∧ top.query = q
  scc : SccStep (opened s q).toDb t.toDb
  fixed : ∀ p, (s.slots p).state = .running → (t.slots p).state = .running ∧ t.tainted p = s.tainted p

theorem Running.queries (h : Running fam s q t) : queries t.toDb = q :: EngineCalm.queries s.toDb := by
  obtain ⟨top, hstack, htop⟩ := h.stack
  simp [EngineCalm.queries, hstack, htop]

theorem queries_opened (s : State V F) (q : Query) : queries (opened s q).toDb = q :: queries s.toDb := by
  simp [queries, opened_stack, openedFrame]

/-- What an answered demand guarantees. -/
structure Returned (fam : Family V F) (s : State V F) (q : Query) (a : Answer V) (s' : State V F) : Prop where
  calmed : Calmed fam s s'
  joins : s.scc = none → s'.scc ≠ none → q ∈ sccQueries s'.toDb
  canceled : a.kind = .canceled → s'.cancelIn = some 0

section Revalidate

variable [DecidableEq F] (hpull : PullCalm fam pull) (hkeep : PullKept fam (fun _ => True) (fun _ => True) pull)

include hpull hkeep

theorem revalidate_calm (hq : q.kind.isInput = false) (ht : Tracked s) (h : Calm fam s) (hset : Settled s.toDb q)
    (hlink : ∀ f ∈ s.stack.head?, TransGen (Calls fam) f.query q) {hit r : BeginResult}
    (hrun : revalidate pull (s.slots q).state hit q s = some (r, s')) :
    (r = hit ∧ Calmed fam s s' ∧ (s.scc = none → s'.scc = none) ∧ ((s.slots q).state = .done → s'.tainted q = false)) ∨
      r = .compute ∧ Running fam s q s' := by
  have hidle : (s.slots q).state ≠ .running := by rcases hset with hs | hs <;> simp [hs]
  have hopen := h.opened hidle hlink
  have hloc := (ht.slots q).located (by rcases hset with hs | hs <;> simp [hs])
  have hopenT : Tracked (opened s q) := opened_kept ht hq trivial hloc
  have hstate : ((opened s q).slots q).state = .running := by rw [opened_slot]
  have hfixed (p : Query) (hp : (s.slots p).state = .running) : ((opened s q).slots p).state = .running := by
    by_cases hpq : p = q
    · rw [hpq, opened_slot]
    · rwa [opened_ne s hpq]
  rw [revalidate_eq] at hrun
  cases hver : engineVerify pull q (opened s q) with
  | none => simp [hver] at hrun
  | some res =>
      obtain ⟨b, u⟩ := res
      obtain ⟨hcalmed, hnone⟩ := engineVerify_calm hpull hkeep hopenT hopen (opened_stack s q) hver
      obtain ⟨htracked, hpass, hgrown⟩ :=
        engineVerify_kept hkeep (fun _ _ => .inl trivial) hq hopenT (fun _ _ _ => .inl trivial) hver
      obtain ⟨top, hstack, htop⟩ := grown_stack hgrown (opened_stack s q)
      have htop : top.query = q := htop
      have hfixedU (p : Query) (hp : (s.slots p).state = .running) :
          (u.slots p).state = .running ∧ u.tainted p = s.tainted p := hcalmed.fixed p (hfixed p hp)
      have htaint : u.tainted q = s.tainted q := (hcalmed.fixed q hstate).2
      have hne (p : Query) (hp : (s.slots p).state = .running) : p ≠ q := by
        rintro rfl
        exact hidle hp
      cases b with
      | true =>
          simp only [hver, Option.some.injEq, Prod.mk.injEq] at hrun
          obtain ⟨rfl, rfl⟩ := hrun
          rw [accept_eq _ hstack]
          have hmember : q ∉ sccQueries u.toDb := by
            intro hm
            cases hscc : s.scc with
            | none => simp [sccQueries, hnone rfl hscc] at hm
            | some scc =>
                obtain ⟨-, -, -, heq⟩ := hcalmed.scc.stays scc hscc
                rw [heq] at hm
                exact h.not_member hidle hm
          refine .inl ⟨rfl, ⟨⟨?_, hcalmed.calm.nodup, hcalmed.calm.root⟩, ?_, ?_⟩, hnone rfl, ?_⟩
          · refine hcalmed.calm.toCalmAt.pop hstack htop ?_ ?_ (.inr ⟨_, _, rfl⟩) id ?_ (fun _ _ hmem => hmem)
            · rfl
            · rfl
            · exact .inr ⟨hidle, hmember, fun hdone => htaint.trans (h.untainted q hdone)⟩
          · exact sccStep_below hcalmed.scc (opened_stack s q) (fun scc hu hn => by simp [hnone rfl hn] at hu) rfl rfl
              rfl
          · intro p hp
            simpa [hne p hp] using hfixedU p hp
          · intro hdone
            exact htaint.trans (h.untainted q hdone)
      | false =>
          simp only [hver, Option.some.injEq, Prod.mk.injEq] at hrun
          obtain ⟨rfl, rfl⟩ := hrun
          have hkept : Tracked (reject q u) := by
            have hstale : revalidate pull (s.slots q).state hit q s = some (.compute, reject q u) := by
              rw [revalidate_eq, hver]
            rcases revalidate_kept hkeep (fun _ _ => .inl trivial) hq trivial ht hset (fun _ _ _ _ => .inl trivial)
              hstale with
              hk | hk
            · exact hk.2.1
            · exact hk.2.2.1
          have heq := reject_eq (q := q) hstack
          refine .inr ⟨rfl, hkept, ?_, ⟨clearedFrame top, by rw [heq], htop⟩, ?_, ?_⟩
          · rw [heq]
            have hmod := hcalmed.calm.toCalmAt.modify (q := q) (f := fun slot =>
              { slot with deps := [], depIndex := fun _ => 0, consumed := [], fingerprint := none }) rfl rfl (by simp)
            have hst := hmod.stack
            refine ⟨⟨⟨?_, ?_, ?_, ?_⟩, hmod.links, hmod.provisional, hmod.running, ?_, hmod.untainted, hmod.log⟩,
              hcalmed.calm.nodup, hcalmed.calm.root⟩
            · simpa [State.modifySlot, hstack, clearedFrame] using hst.reach
            · simpa [State.modifySlot, hstack, clearedFrame] using hst.nodup
            · intro f hf
              rcases List.mem_cons.mp hf with rfl | hf
              · exact hst.running top (by rw [modifySlot_stack, hstack]; exact List.mem_cons_self ..)
              · exact hst.running f (by rw [modifySlot_stack, hstack]; exact List.mem_cons_of_mem _ hf)
            · intro f hf
              rcases List.mem_cons.mp hf with rfl | hf
              · simp [clearedFrame]
              · exact hst.links f (by rw [modifySlot_stack, hstack]; exact List.mem_cons_of_mem _ hf)
            · intro p hp hc
              refine (hmod.accounted p hp hc).imp_left fun hm => ?_
              simpa [EngineCalm.queries, State.modifySlot, hstack, clearedFrame] using hm
          · rw [heq]
            exact ⟨hcalmed.scc.stays, hcalmed.scc.opens⟩
          · intro p hp
            rw [heq]
            simpa [hne p hp] using hfixedU p hp

end Revalidate

theorem record_scc (s : State V F) (q : Query) (fp : Option F) : SccStep s.toDb (fixpointRecord s q fp).toDb := by
  refine ⟨?_, ?_⟩
  · intro scc hscc
    have hrecord : (fixpointRecord s q fp).scc = some { scc with members := scc.members.map fun m =>
        if m.query = q then { m with fp := fp, written := true } else m } := by
      simp [fixpointRecord, hscc]
    exact ⟨_, hrecord, rfl, sccQueries_record s q fp⟩
  · intro hnone scc hscc
    simp [fixpointRecord, hnone] at hscc

theorem record_calm (h : Calm fam s) (q : Query) (fp : Option F) : Calm fam (fixpointRecord s q fp) := by
  have hrec := sccQueries_record s q fp
  refine ⟨?_, hrec ▸ h.nodup, ?_⟩
  · rw [hrec]
    exact ⟨h.stack, h.links, h.provisional, h.running, h.accounted, h.untainted, h.log⟩
  · intro scc hscc
    simp only [fixpointRecord, Option.map_eq_some_iff] at hscc
    obtain ⟨scc', hs, rfl⟩ := hscc
    rw [hrec]
    exact h.root scc' hs

section Compute

variable (hpull : PullCalm fam pull) (hkeep : PullKept fam (fun _ => True) (fun _ => True) pull)
  (hfix : ∀ q, q.kind.isFixpoint = true → ¬ CanFail (fam.body q))

include hpull hkeep

theorem runBody_calm (p : Prog Query V) (seen : Bool) (s : State V F) (top : Frame F) {o : Outcome V} {seen' : Bool}
    (ht : Tracked s) (h : Calm fam s) (hstack : s.stack = top :: rest)
      (hcalls : ∀ c, Demands p c → Calls fam top.query c)
    (hseen : seen = true → s.cancelIn = some 0) (hrun : runBody pull p seen s = some (o, seen', s')) :
    Tracked s' ∧ Calmed fam s s' ∧ (∃ top', s'.stack = top' :: rest ∧ top'.query = top.query) ∧
      (seen' = true → s'.cancelIn = some 0) ∧ (o = .failed → CanFail p) := by
  induction p generalizing seen s top with
  | ret v =>
      simp only [runBody, Option.some.injEq, Prod.mk.injEq] at hrun
      obtain ⟨rfl, rfl, rfl⟩ := hrun
      exact ⟨ht, .refl h, ⟨top, hstack, rfl⟩, hseen, by simp⟩
  | fail =>
      simp only [runBody, Option.some.injEq, Prod.mk.injEq] at hrun
      obtain ⟨rfl, rfl, rfl⟩ := hrun
      exact ⟨ht, .refl h, ⟨top, hstack, rfl⟩, hseen, fun _ => .fail⟩
  | demand c next ih =>
      unfold runBody at hrun
      cases hcall : pull c s with
      | none => simp [hcall] at hrun
      | some res =>
          obtain ⟨a, t⟩ := res
          simp only [hcall] at hrun
          obtain ⟨htt, hpass, hgrown⟩ := pull_tracked hkeep hcall ht
          obtain ⟨hcalmed, -, hcanceled⟩ := hpull _ _ _ _ hcall ht h
            (by simpa [hstack] using TransGen.single (hcalls c (.here c next)))
          obtain ⟨top', hstack', htop'⟩ := grown_stack hgrown hstack
          have hnoteT : Tracked (noteConsumed c a.kind t) := by
            refine noteConsumed_kept htt ?_
            intro f hf hneed
            have hans := hkeep _ _ _ _ hcall ht trivial fun _ _ _ => .inl trivial
            rcases hans.recorded hneed with hnil | ⟨g, hg, hc⟩ | hfail
            · simp [hstack] at hnil
            · obtain rfl : f = g := by simpa using Option.mem_unique hf hg
              exact .inl hc
            · exact .inr hfail
          have hnoteC : Calmed fam s (noteConsumed c a.kind t) := by
            have heq := noteConsumed_rest c a.kind t
            rw [noteConsumed_stack hstack'] at heq
            rw [heq]
            have hc := hcalmed.calm
            have hst := hc.stack
            rw [hstack'] at hst
            refine ⟨⟨⟨⟨hst.reach, hst.nodup, ?_, ?_⟩, hc.links, hc.provisional, hc.running, ?_, hc.untainted, hc.log⟩,
              hc.nodup, hc.root⟩, ⟨hcalmed.scc.stays, hcalmed.scc.opens⟩, hcalmed.fixed⟩
            · intro f hf
              rcases List.mem_cons.mp hf with rfl | hf
              · exact hst.running top' (List.mem_cons_self ..)
              · exact hst.running f (List.mem_cons_of_mem _ hf)
            · intro f hf
              rcases List.mem_cons.mp hf with rfl | hf
              · exact hst.links top' (List.mem_cons_self ..)
              · exact hst.links f (List.mem_cons_of_mem _ hf)
            · intro p hp hcan
              refine (hc.accounted p hp hcan).imp_left fun hm => ?_
              simpa [queries, hstack'] using hm
          have hnoteQ : queries (noteConsumed c a.kind t).toDb = queries s.toDb := by
            simp [queries, noteConsumed_stack hstack', hstack, htop']
          have hseen' : (seen || a.kind == .canceled) = true → (noteConsumed c a.kind t).cancelIn = some 0 := by
            rw [noteConsumed_rest]
            intro hor
            rcases Bool.or_eq_true_iff.mp hor with hs | hs
            · exact hpass.sticky (hseen hs)
            · exact hcanceled (beq_iff_eq.mp hs)
          obtain ⟨ht', hcalmed', ⟨top'', hstack'', htop''⟩, hsn, hfail⟩ := ih a.value _ _ _ hnoteT hnoteC.calm
            (noteConsumed_stack hstack') (fun d hd => htop' ▸ hcalls d (.later c next _ hd)) hseen' hrun
          exact ⟨ht', hnoteC.trans hcalmed' hnoteQ, ⟨top'', hstack'', htop''.trans htop'⟩, hsn,
            fun ho => .later c next _ (hfail ho)⟩

include hfix

/-- A computed query closes its frame. A member stays running, and a tainted
column means a canceled request. -/
theorem compute_calm (hq : q.kind.isInput = false) (ht : Tracked s) (h : Calm fam s) (hstack : s.stack = top :: rest)
    (htop : top.query = q) {a : Answer V} (hrun : compute fam pull q s = some (a, s')) :
    Calm fam s' ∧ SccStep s.toDb s'.toDb ∧
      (∀ p, p ≠ q → (s.slots p).state = .running → (s'.slots p).state = .running ∧ s'.tainted p = s.tainted p) ∧
      (q.kind.isFixpoint = true → s'.tainted q = true → s'.cancelIn = some 0) ∧ a.kind ≠ .canceled := by
  unfold compute at hrun
  cases hbody : runBody pull (fam.body q) false s with
  | none => simp [hbody] at hrun
  | some res =>
      obtain ⟨o, seen, t⟩ := res
      have hcalls (c : Query) (hc : Demands (fam.body q) c) : Calls fam top.query c := by
        rw [htop]
        exact ⟨hq, hc⟩
      obtain ⟨htt, hcalmed, ⟨top', hstack', htop'⟩, hseen, hfail⟩ :=
        runBody_calm hpull hkeep _ _ _ _ ht h hstack hcalls (by simp) hbody
      have htop' : top'.query = q := htop'.trans htop
      have hc := hcalmed.calm
      have hrunning : (t.slots q).state = .running := htop' ▸ hc.stack.running top' (hstack' ▸ List.mem_cons_self ..)
      rw [hbody] at hrun
      cases o with
      | failed =>
          have hmember : q ∉ sccQueries t.toDb := fun hm => hfix q (htt.members q hm).1 (hfail rfl)
          simp only [Option.some.injEq, Prod.mk.injEq] at hrun
          obtain ⟨rfl, rfl⟩ := hrun
          refine ⟨?_, ?_, ?_, fun hk => absurd (hfail rfl) (hfix q hk), ?_⟩
          · by_cases hcan : t.cancelIn = some 0
            · rw [queryFail_canceled hstack' hcan]
              refine ⟨hc.toCalmAt.pop hstack' htop' ?_ ?_ (.inl rfl) id ?_ (fun _ _ hm => hm), hc.nodup, hc.root⟩
              · rfl
              · rfl
              · exact .inl ⟨hrunning, .inl hcan⟩
            · rw [queryFail_settled hstack' hcan]
              refine ⟨hc.toCalmAt.pop hstack' htop' ?_ ?_ (.inl rfl) sticky_tick ?_ (by simp), hc.nodup, hc.root⟩
              · rfl
              · rfl
              · exact .inr ⟨by simp [settledSlot], hmember, by simp [settledSlot]⟩
          · by_cases hcan : t.cancelIn = some 0
            · rw [queryFail_canceled hstack' hcan]
              exact ⟨hcalmed.scc.stays, hcalmed.scc.opens⟩
            · rw [queryFail_settled hstack' hcan]
              exact ⟨hcalmed.scc.stays, hcalmed.scc.opens⟩
          · intro p hp hr
            by_cases hcan : t.cancelIn = some 0
            · simpa [queryFail_canceled hstack' hcan, hp] using hcalmed.fixed p hr
            · simpa [queryFail_settled hstack' hcan, hp] using hcalmed.fixed p hr
          · split <;> simp
      | ok v =>
          have hwrite : Calm fam (t.writeColumn q v seen) := by
            refine ⟨⟨hc.stack, hc.links, hc.provisional, hc.running, hc.accounted, ?_, hc.log⟩, hc.nodup, hc.root⟩
            intro p hp
            have hpq : p ≠ q := by
              rintro rfl
              simp [State.writeColumn, hrunning] at hp
            simpa [State.writeColumn, hpq] using hc.untainted p hp
          have hfixed (p : Query) (hp : p ≠ q) (hr : (s.slots p).state = .running) :
              (t.slots p).state = .running ∧ (t.writeColumn q v seen).tainted p = s.tainted p := by
            simpa [State.writeColumn, hp] using hcalmed.fixed p hr
          have htaint : (t.writeColumn q v seen).tainted q = seen := by simp [State.writeColumn]
          simp only at hrun
          split at hrun
          · rename_i henrolled
            simp only [Option.some.injEq, Prod.mk.injEq] at hrun
            obtain ⟨rfl, rfl⟩ := hrun
            have hmember : q ∈ sccQueries t.toDb := (hc.provisional q).mp henrolled.2
            have hrecord := record_calm hwrite q (fam.fingerprint q v)
            have hwritten : SccStep s.toDb (t.writeColumn q v seen).toDb := ⟨hcalmed.scc.stays, hcalmed.scc.opens⟩
            have hsccStep := hwritten.trans (record_scc (t.writeColumn q v seen) q (fam.fingerprint q v))
              (by simp [queries, State.writeColumn, hstack', hstack, htop, htop'])
            have hslots : (fixpointRecord (t.writeColumn q v seen) q (fam.fingerprint q v)).slots = t.slots := rfl
            have htainted : (fixpointRecord (t.writeColumn q v seen) q (fam.fingerprint q v)).tainted =
              (t.writeColumn q v seen).tainted := rfl
            have hstack'' : (fixpointRecord (t.writeColumn q v seen) q (fam.fingerprint q v)).stack = top' :: rest :=
              hstack'
            have hmember' : q ∈ sccQueries (fixpointRecord (t.writeColumn q v seen) q (fam.fingerprint q v)).toDb := by
              rw [sccQueries_record]
              exact hmember
            have hcanceled : (fixpointRecord (t.writeColumn q v seen) q (fam.fingerprint q v)).cancelIn =
              t.cancelIn := rfl
            generalize fixpointRecord (t.writeColumn q v seen) q (fam.fingerprint q v) = u at *
            rw [provisionalPop_eq hstack'']
            refine ⟨⟨?_, hrecord.nodup, hrecord.root⟩, ⟨hsccStep.stays, hsccStep.opens⟩, ?_, ?_, by simp⟩
            · refine hrecord.toCalmAt.pop hstack'' htop' ?_ ?_ (.inl rfl) id ?_ (fun _ _ hm => hm)
              · rfl
              · rfl
              · exact .inl ⟨by simpa [carried, hslots] using hrunning, .inr hmember'⟩
            · intro p hp hr
              simpa [hp, hslots, htainted] using hfixed p hp hr
            · intro _ hs
              rw [htainted, htaint] at hs
              exact hcanceled.trans (hseen hs)
          · rename_i henrolled
            simp only [Option.some.injEq, Prod.mk.injEq] at hrun
            obtain ⟨rfl, rfl⟩ := hrun
            have hmember : q ∉ sccQueries t.toDb := by
              intro hm
              exact henrolled ⟨(htt.members q hm).1, (hc.provisional q).mpr hm⟩
            refine ⟨?_, ?_, ?_, ?_, ?_⟩
            · by_cases hcan : t.cancelIn = some 0
              · rw [querySucceed_canceled (s := t.writeColumn q v seen) hstack' hcan]
                refine ⟨hwrite.toCalmAt.pop (s := t.writeColumn q v seen) hstack' htop' ?_ ?_ (.inl rfl) id ?_
                  (fun _ _ hm => hm), hc.nodup, hc.root⟩
                · rfl
                · rfl
                · exact .inl ⟨hrunning, .inl hcan⟩
              · rw [querySucceed_settled (s := t.writeColumn q v seen) hstack' hcan]
                refine ⟨hwrite.toCalmAt.pop (s := t.writeColumn q v seen) hstack' htop' ?_ ?_ (.inr ⟨_, _, rfl⟩)
                  sticky_tick ?_
                  (by simp), hc.nodup, hc.root⟩
                · rfl
                · rfl
                · refine .inr ⟨by simp [settledSlot], hmember, fun _ => ?_⟩
                  rw [htaint]
                  cases seen with
                  | false => rfl
                  | true => exact absurd (hseen rfl) hcan
            · by_cases hcan : t.cancelIn = some 0
              · rw [querySucceed_canceled (s := t.writeColumn q v seen) hstack' hcan]
                exact ⟨hcalmed.scc.stays, hcalmed.scc.opens⟩
              · rw [querySucceed_settled (s := t.writeColumn q v seen) hstack' hcan]
                exact ⟨hcalmed.scc.stays, hcalmed.scc.opens⟩
            · intro p hp hr
              by_cases hcan : t.cancelIn = some 0
              · rw [querySucceed_canceled (s := t.writeColumn q v seen) hstack' hcan]
                simpa [hp, State.writeColumn] using hfixed p hp hr
              · rw [querySucceed_settled (s := t.writeColumn q v seen) hstack' hcan]
                simpa [hp, State.writeColumn] using hfixed p hp hr
            · intro _
              by_cases hcan : t.cancelIn = some 0
              · rw [querySucceed_canceled (s := t.writeColumn q v seen) hstack' hcan]
                exact fun _ => hcan
              · rw [querySucceed_settled (s := t.writeColumn q v seen) hstack' hcan]
                exact fun hs => absurd (hseen (htaint ▸ hs)) hcan
            · split <;> simp

end Compute

/-- The component under the driver: its members run off the stack, and the
frame below leads to its root. -/
structure Driving (fam : Family V F) (root : Query) (members : List Query) (s : State V F) : Prop where
  tracked : Tracked s
  calm : Calm fam s
  scc : ∃ scc, s.scc = some scc ∧ scc.root = root
  component : sccQueries s.toDb = members
  off : ∀ m ∈ members, m ∉ queries s.toDb
  link : ∀ p ∈ (queries s.toDb).head?, TransGen (Calls fam) p root

theorem head_link {root : Query} (h : ∀ p ∈ (queries s.toDb).head?, TransGen (Calls fam) p root)
    (hreach : ReflTransGen (Calls fam) root q) : ∀ f ∈ s.stack.head?, TransGen (Calls fam) f.query q := by
  intro f hf
  refine TransGen.trans_left (h f.query ?_) hreach
  rw [queries, List.head?_map, Option.mem_def.mp hf]
  rfl

section Drive

variable (hpull : PullCalm fam pull) (hkeep : PullKept fam (fun _ => True) (fun _ => True) pull)
  (hfix : ∀ q, q.kind.isFixpoint = true → ¬ CanFail (fam.body q)) {root m : Query} {members : List Query}

include hpull hkeep hfix

theorem sccRerunMember_calm (h : Driving fam root members s) (hm : m ∈ members)
    (hrun : sccRerunMember fam pull m s = some s') :
    Driving fam root members s' ∧ (s.cancelIn = some 0 → s'.cancelIn = some 0) ∧ queries s'.toDb = queries s.toDb ∧
      (∀ p, p ≠ m → (s.slots p).state = .running → (s'.slots p).state = .running ∧ s'.tainted p = s.tainted p) ∧
      (s'.tainted m = true → s'.cancelIn = some 0) := by
  obtain ⟨scc, hscc, hroot⟩ := h.scc
  have hmem : m ∈ sccQueries s.toDb := h.component.symm ▸ hm
  have hk := (h.tracked.members m hmem).1
  have hq := isFixpoint_not_input hk
  obtain ⟨htracked, hpass, hgrown⟩ := sccRerunMember_kept hkeep (fun _ _ => .inl trivial) (fun _ _ _ _ => trivial) hk
    trivial h.tracked (fun _ _ _ => .inl trivial) hrun
  have hqueries := Grown.queries hgrown
  simp only [sccRerunMember, Option.map_eq_some_iff] at hrun
  obtain ⟨⟨a, u⟩, hcomp, rfl⟩ := hrun
  generalize ht : s.modifySlot m (fun slot => { slot with deps := [], depIndex := fun _ => 0, consumed := [] }) =
    t at hcomp
  have hmodT : Tracked t := by
    rw [← ht]
    exact Kept.modify h.tracked hq (h.tracked.slots m).located .nil
  have hstack : (queryStackPush t m).stack =
      ⟨m, (t.slots m).deps, (t.slots m).depIndex, .high, false, (t.slots m).consumed⟩ :: s.stack := by
    rw [← ht]
    rfl
  have hpush : Calm fam (queryStackPush t m) := by
    have hat := h.calm.toCalmAt.push (q := m) (sccQueries s.toDb) ⟨m, [], fun _ => 0, .high, false, []⟩
      { s.slots m with deps := [], depIndex := fun _ => 0, consumed := [] } (h.off m hm)
      (head_link h.link (hroot ▸ (h.calm.root scc hscc).2 m hmem)) rfl (h.calm.running m hmem) (by simp) rfl
      (fun _ _ => Iff.rfl) (h.calm.provisional m)
    have heq : queryStackPush t m = { s with
        slots := Function.update s.slots m { s.slots m with deps := [], depIndex := fun _ => 0, consumed := [] }
        stack := ⟨m, [], fun _ => 0, .high, false, []⟩ :: s.stack } := by
      rw [← ht]
      simp [queryStackPush, State.modifySlot]
    rw [heq]
    exact ⟨hat, h.calm.nodup, h.calm.root⟩
  obtain ⟨hcalm, hsccStep, hfixed, htaint, -⟩ :=
    compute_calm hpull hkeep hfix hq (push_kept hmodT trivial) hpush hstack rfl hcomp
  have hpushScc : (queryStackPush t m).scc = s.scc := by
    rw [← ht]
    rfl
  obtain ⟨scc', hscc', hroot', hmembers'⟩ := hsccStep.stays scc (hpushScc.trans hscc)
  refine ⟨⟨htracked, hcalm, ⟨scc', hscc', hroot'.trans hroot⟩, ?_, ?_, ?_⟩, hpass.sticky, hqueries, ?_, htaint hk⟩
  · refine hmembers'.trans (Eq.trans ?_ h.component)
    simp [sccQueries, hpushScc]
  · rw [hqueries]
    exact h.off
  · rw [hqueries]
    exact h.link
  · intro p hp hr
    have hslot : ((queryStackPush t m).slots p).state = .running ∧ (queryStackPush t m).tainted p = s.tainted p := by
      rw [← ht]
      exact ⟨by simpa [queryStackPush, modifySlot_ne s _ hp] using hr, rfl⟩
    obtain ⟨hr', ht'⟩ := hfixed p hp hslot.1
    exact ⟨hr', ht'.trans hslot.2⟩

theorem drivePass_calm [DecidableEq F] (todo : List Query) (htodo : ∀ m ∈ todo, m ∈ members) (changed : Bool)
    (s : State V F) (h : Driving fam root members s) {changed' : Bool}
    (hrun : drivePass fam pull todo changed s = some (changed', s')) :
    Driving fam root members s' ∧ (s.cancelIn = some 0 → s'.cancelIn = some 0) ∧ queries s'.toDb = queries s.toDb ∧
      (∀ p, p ∉ todo → (s.slots p).state = .running → (s'.slots p).state = .running ∧ s'.tainted p = s.tainted p) ∧
      ∀ m ∈ todo, s'.tainted m = true → s'.cancelIn = some 0 := by
  induction todo generalizing changed s with
  | nil =>
      simp only [drivePass, Option.some.injEq, Prod.mk.injEq] at hrun
      obtain ⟨-, rfl⟩ := hrun
      exact ⟨h, id, rfl, fun _ _ hr => ⟨hr, rfl⟩, by simp⟩
  | cons m todo ih =>
      unfold drivePass at hrun
      cases hm : sccRerunMember fam pull m s with
      | none => simp [hm] at hrun
      | some t =>
          simp only [hm] at hrun
          obtain ⟨hd, hst, hqs, hfixed, htaint⟩ :=
            sccRerunMember_calm hpull hkeep hfix h (htodo m (List.mem_cons_self ..)) hm
          obtain ⟨hd', hst', hqs', hfixed', htaint'⟩ := ih (fun m hm => htodo m (List.mem_cons_of_mem _ hm)) _ t hd hrun
          refine ⟨hd', fun hc => hst' (hst hc), hqs'.trans hqs, ?_, ?_⟩
          · intro p hp hr
            simp only [List.mem_cons, not_or] at hp
            obtain ⟨hr₁, ht₁⟩ := hfixed p hp.1 hr
            obtain ⟨hr₂, ht₂⟩ := hfixed' p hp.2 hr₁
            exact ⟨hr₂, ht₂.trans ht₁⟩
          · intro x hx htx
            by_cases hxt : x ∈ todo
            · exact htaint' x hxt htx
            · obtain rfl : x = m := by simpa [hxt] using hx
              have hr := hd.calm.running x (hd.component.symm ▸ htodo x hx)
              rw [(hfixed' x hxt hr).2] at htx
              exact hst' (htaint htx)

theorem driveLoop_calm [DecidableEq F] (cap : Nat) (s : State V F) (h : Driving fam root members s)
    (hrun : driveLoop fam pull members (cap + 1) s = some s') :
    Driving fam root members s' ∧ (s.cancelIn = some 0 → s'.cancelIn = some 0) ∧ queries s'.toDb = queries s.toDb ∧
      (∀ p, p ∉ members → (s.slots p).state = .running → (s'.slots p).state = .running ∧ s'.tainted p = s.tainted p) ∧
      ∀ m ∈ members, s'.tainted m = true → s'.cancelIn = some 0 := by
  induction cap generalizing s with
  | zero =>
      simp only [driveLoop] at hrun
      cases hp : drivePass fam pull members false s with
      | none => simp [hp] at hrun
      | some res =>
          obtain ⟨changed, t⟩ := res
          have hpass := drivePass_calm hpull hkeep hfix members (fun _ hm => hm) _ _ h hp
          cases changed <;> simp only [hp, Option.some.injEq] at hrun <;> exact hrun ▸ hpass
  | succ cap ih =>
      unfold driveLoop at hrun
      cases hp : drivePass fam pull members false s with
      | none => simp [hp] at hrun
      | some res =>
          obtain ⟨changed, t⟩ := res
          have hpass := drivePass_calm hpull hkeep hfix members (fun _ hm => hm) _ _ h hp
          cases changed with
          | false =>
              simp only [hp, Option.some.injEq] at hrun
              exact hrun ▸ hpass
          | true =>
              simp only [hp] at hrun
              obtain ⟨hd, hst, hqs, hfixed, -⟩ := hpass
              obtain ⟨hd', hst', hqs', hfixed', htaint'⟩ := ih t hd hrun
              refine ⟨hd', fun hc => hst' (hst hc), hqs'.trans hqs, ?_, htaint'⟩
              intro p hp hr
              obtain ⟨hr₁, ht₁⟩ := hfixed p hp hr
              obtain ⟨hr₂, ht₂⟩ := hfixed' p hp hr₁
              exact ⟨hr₂, ht₂.trans ht₁⟩

omit hpull hkeep hfix in
theorem finalize_calm (members : List Query) (s : State V F) (h : CalmAt fam members s) (hnodup : members.Nodup)
    (hoff : ∀ m ∈ members, m ∉ queries s.toDb) (hlink : ∀ m ∈ members, ∀ p ∈ (queries s.toDb).head?,
      TransGen (Calls fam) p m)
    (htaint : ∀ m ∈ members, s.tainted m = true → s.cancelIn = some 0) :
    CalmAt fam [] (finalize members s) ∧
      ∀ p, p ∉ members → (s.slots p).state = .running →
        ((finalize members s).slots p).state = .running ∧ (finalize members s).tainted p = s.tainted p := by
  induction members generalizing s with
  | nil => exact ⟨h, fun _ _ hr => ⟨hr, rfl⟩⟩
  | cons m rest ih =>
      obtain ⟨hm, hnodup⟩ := List.nodup_cons.mp hnodup
      have hmem : m ∈ m :: rest := List.mem_cons_self ..
      unfold finalize
      simp only
      generalize ht : queryStackPush (s.modifySlot m fun slot => { slot with provisional := false }) m = t
      have heq : t = { s with
          slots := Function.update s.slots m { s.slots m with provisional := false }
          stack := ⟨m, (s.slots m).deps, (s.slots m).depIndex, .high, false, (s.slots m).consumed⟩ :: s.stack } := by
        rw [← ht]
        simp [queryStackPush, State.modifySlot]
      have hlinkf : ∀ f ∈ s.stack.head?, TransGen (Calls fam) f.query m :=
        fun f hf => head_link (hlink m hmem) .refl f hf
      have hpush : CalmAt fam rest t := by
        rw [heq]
        refine h.push _ _ _ (hoff m hmem) hlinkf rfl (h.running m hmem) (h.links m) rfl ?_ ?_
        · intro p hp
          simp [hp]
        · simpa using hm
      have hstack : t.stack =
          ⟨m, (s.slots m).deps, (s.slots m).depIndex, .high, false, (s.slots m).consumed⟩ :: s.stack := by
        rw [heq]
      have hcancel : t.cancelIn = s.cancelIn := by rw [heq]
      have htainted : t.tainted = s.tainted := by rw [heq]
      have hslot (p : Query) (hp : p ≠ m) : t.slots p = s.slots p := by simp [heq, hp]
      have hrunning : (t.slots m).state = .running := by
        rw [heq]
        simpa using h.running m hmem
      have hstep : CalmAt fam rest (querySucceed m (memberFp s.toDb m) t) ∧
          queries (querySucceed m (memberFp s.toDb m) t).toDb = queries s.toDb ∧
          (querySucceed m (memberFp s.toDb m) t).tainted = s.tainted ∧
          (s.cancelIn = some 0 → (querySucceed m (memberFp s.toDb m) t).cancelIn = some 0) ∧
          ∀ p, p ≠ m → (querySucceed m (memberFp s.toDb m) t).slots p = s.slots p := by
        by_cases hcan : t.cancelIn = some 0
        · rw [querySucceed_canceled hstack hcan]
          refine ⟨?_, rfl, htainted, fun _ => hcan, fun p hp => by simp [hp, hslot p hp]⟩
          refine hpush.pop hstack rfl ?_ ?_ (.inl rfl) id ?_ (fun _ _ hm => hm)
          · rfl
          · rfl
          · exact .inl ⟨hrunning, .inl hcan⟩
        · rw [querySucceed_settled hstack hcan]
          refine ⟨?_, ?_, htainted, fun hc => sticky_tick (hcancel.trans hc), fun p hp => by simp [hp, hslot p hp]⟩
          · refine hpush.pop hstack rfl ?_ ?_ (.inr ⟨_, _, rfl⟩) sticky_tick ?_ (by simp)
            · rfl
            · rfl
            · refine .inr ⟨by simp [settledSlot], hm, fun _ => ?_⟩
              rw [htainted]
              by_contra htm
              exact hcan (hcancel.trans (htaint m hmem (by simpa using htm)))
          · cases hs : s.stack <;> simp [queries, recordTop, hs]
      obtain ⟨hcalm, hqs, hts, hst, hslots⟩ := hstep
      obtain ⟨hcalm', hfixed'⟩ := ih (querySucceed m (memberFp s.toDb m) t) hcalm hnodup
        (fun x hx => hqs.symm ▸ hoff x (List.mem_cons_of_mem _ hx))
        (fun x hx => hqs.symm ▸ hlink x (List.mem_cons_of_mem _ hx))
        (fun x hx htx => hst (htaint x (List.mem_cons_of_mem _ hx) (hts ▸ htx)))
      refine ⟨hcalm', ?_⟩
      intro p hp hr
      simp only [List.mem_cons, not_or] at hp
      obtain ⟨hr', ht'⟩ := hfixed' p hp.2 (by rw [hslots p hp.1]; exact hr)
      exact ⟨hr', ht'.trans (by rw [hts])⟩

theorem fixpointDrive_calm [DecidableEq F] (h : Driving fam root members s)
    (hrun : fixpointDrive fam pull s = some s') :
    Calm fam s' ∧ s'.scc = none ∧ ∀ p, p ∉ members → (s.slots p).state = .running →
      (s'.slots p).state = .running ∧ s'.tainted p = s.tainted p := by
  obtain ⟨scc, hscc, hroot⟩ := h.scc
  unfold fixpointDrive at hrun
  simp only [hscc, h.component] at hrun
  cases hloop : driveLoop fam pull members (members.length * 64 + 32) s with
  | none => simp [hloop] at hrun
  | some t =>
      simp only [hloop, Option.some.injEq] at hrun
      subst hrun
      obtain ⟨hd, -, -, hfixed, htaint⟩ := driveLoop_calm hpull hkeep hfix (members.length * 64 + 31) s h hloop
      obtain ⟨scc', hscc', hroot'⟩ := hd.scc
      have hcalm : CalmAt fam members t := hd.component ▸ hd.calm.toCalmAt
      obtain ⟨hat, hfixed'⟩ := finalize_calm members t hcalm (hd.component ▸ hd.calm.nodup) hd.off
        (fun m hm p hp => TransGen.trans_left (hd.link p hp)
          (hroot' ▸ (hd.calm.root scc' hscc').2 m (hd.component.symm ▸ hm))) htaint
      refine ⟨⟨⟨hat.stack, hat.links, hat.provisional, hat.running, hat.accounted, hat.untainted, hat.log⟩, ?_, ?_⟩,
        rfl, ?_⟩
      · exact List.nodup_nil
      · simp
      · intro p hp hr
        obtain ⟨hr₁, ht₁⟩ := hfixed p hp hr
        obtain ⟨hr₂, ht₂⟩ := hfixed' p hp hr₁
        exact ⟨hr₂, ht₂.trans ht₁⟩

end Drive

end Ore.EngineCancel
