import Ore.EngineFacts

namespace Ore.EngineLog

open Tasks EngineModel EngineFacts

variable {V F : Type} {fam : Family V F} {s s' : State V F} {q : Query} {pull : Pull V F}

theorem log_recordDepOnParent (s : State V F) (q : Query) (fp : Option F) (dur : Durability) :
    (recordDepOnParent s q fp dur).log = s.log := by
  simp only [recordDepOnParent]
  split <;> rfl

theorem log_transferDeps (s : State V F) (q : Query) : (transferDeps s q).log = s.log := by
  simp only [transferDeps]
  split <;> rfl

theorem log_clearDeps (s : State V F) (q : Query) : (clearDeps s q).log = s.log := by
  simp only [clearDeps]
  split <;> rfl

theorem log_noteConsumed (s : State V F) (c : Query) (kind : AnswerKind) : (noteConsumed c kind s).log = s.log := by
  simp only [noteConsumed]
  split <;> rfl

theorem log_checkCancel (s : State V F) : (checkCancel s).2.log = s.log := by
  simp only [checkCancel]
  split <;> rfl

theorem log_accept (prev : QueryState) (q : Query) (s : State V F) : (accept prev q s).log = s.log := by
  simp only [accept, queryStackPop, log_recordDepOnParent, log_transferDeps]
  rfl

theorem log_reject (q : Query) (s : State V F) : (reject q s).log = s.log := log_clearDeps s q

theorem log_settle (q : Query) (outcome : QueryState) (fp : Option F) (s : State V F) :
    s.log <+: (settle q outcome fp s).2.log := by
  have hcheck : (checkCancel (transferDeps s q)).2.log = s.log := by rw [log_checkCancel, log_transferDeps]
  simp only [settle]
  split
  · exact hcheck ▸ List.prefix_refl _
  · exact hcheck ▸ List.prefix_append _ _

theorem log_querySucceed (q : Query) (fp : Option F) (s : State V F) : s.log <+: (querySucceed q fp s).log := by
  simp only [querySucceed]
  split
  · exact log_settle q .done fp s
  · simp only [queryStackPop, log_recordDepOnParent]
    exact log_settle q .done fp s

theorem log_queryFail (q : Query) (s : State V F) : s.log <+: (queryFail q s).log := log_settle q .error none s

theorem log_finalize (members : List Query) (s : State V F) : s.log <+: (finalize members s).log := by
  induction members generalizing s with
  | nil => exact List.prefix_refl _
  | cons q rest ih =>
      have hsucceed := log_querySucceed q (memberFp s.toDb q)
        (queryStackPush (s.modifySlot q fun slot => { slot with provisional := false }) q)
      exact hsucceed.trans (ih _)

def PullLogs (pull : Pull V F) : Prop := ∀ q s a s', pull q s = some (a, s') → s.log <+: s'.log

theorem runBody_logs (hpull : PullLogs pull) (p : Prog Query V) (seen : Bool) (s : State V F) {o : Outcome V}
    {seen' : Bool} (hrun : runBody pull p seen s = some (o, seen', s')) : s.log <+: s'.log := by
  induction p generalizing seen s with
  | ret v | fail =>
      simp only [runBody, Option.some.injEq, Prod.mk.injEq] at hrun
      exact hrun.2.2 ▸ List.prefix_refl _
  | demand c next ih =>
      simp only [runBody] at hrun
      cases hcall : pull c s with
      | none => simp [hcall] at hrun
      | some res =>
          obtain ⟨a, t⟩ := res
          simp only [hcall] at hrun
          have hrest := ih _ _ _ hrun
          rw [log_noteConsumed] at hrest
          exact (hpull _ _ _ _ hcall).trans hrest

theorem compute_body_logs {a : Answer V} {o : Outcome V} {seen : Bool} {t : State V F}
    (hbody : runBody pull (fam.body q) false s = some (o, seen, t)) (hrun : compute fam pull q s = some (a, s')) :
    t.log <+: s'.log := by
  rw [compute, hbody] at hrun
  cases o with
  | failed =>
      simp only [Option.some.injEq, Prod.mk.injEq] at hrun
      exact hrun.2 ▸ log_queryFail q t
  | ok v =>
      simp only at hrun
      split at hrun
      · simp only [Option.some.injEq, Prod.mk.injEq] at hrun
        rw [← hrun.2]
        simp only [provisionalPop, queryStackPop, log_transferDeps]
        exact List.prefix_refl _
      · simp only [Option.some.injEq, Prod.mk.injEq] at hrun
        exact hrun.2 ▸ log_querySucceed q _ (t.writeColumn q v seen)

theorem compute_logs (hpull : PullLogs pull) {a : Answer V} (hrun : compute fam pull q s = some (a, s')) :
    s.log <+: s'.log := by
  cases hbody : runBody pull (fam.body q) false s with
  | none => simp [compute, hbody] at hrun
  | some res =>
      obtain ⟨o, seen, t⟩ := res
      exact (runBody_logs hpull _ _ _ hbody).trans (compute_body_logs hbody hrun)

theorem log_enterCycle (q : Query) (s : State V F) : (enterCycle q s).2.log = s.log := by
  simp only [enterCycle]
  split
  · split
    · rfl
    · split <;> rfl
  · rfl

theorem sccRerunMember_logs (hpull : PullLogs pull) (hrun : sccRerunMember fam pull q s = some s') :
    s.log <+: s'.log := by
  simp only [sccRerunMember, Option.map_eq_some_iff] at hrun
  obtain ⟨⟨a, t⟩, hcompute, rfl⟩ := hrun
  exact compute_logs (s := queryStackPush (s.modifySlot q _) q) hpull hcompute

variable [DecidableEq F]

theorem verifyWalk_logs (hpull : PullLogs pull) (n i : Nat) (s : State V F) {b : Bool}
    (hrun : verifyWalk pull n i s = some (b, s')) : s.log <+: s'.log := by
  induction n generalizing i s with
  | zero =>
      simp only [verifyWalk, Option.some.injEq, Prod.mk.injEq] at hrun
      exact hrun.2 ▸ List.prefix_refl _
  | succ n ih =>
      unfold verifyWalk at hrun
      cases hdep : s.stack.head?.bind (·.deps[i]?) with
      | none => simp [hdep] at hrun
      | some dep =>
          simp only [hdep] at hrun
          cases hdisp : recomputeDispatch pull dep.query s with
          | none => simp [hdisp] at hrun
          | some t =>
              have hpulled : s.log <+: (t.emit (.compared dep s.toDb t.toDb)).log := by
                refine List.IsPrefix.trans ?_ (List.prefix_append _ _)
                unfold recomputeDispatch at hdisp
                split at hdisp
                · obtain rfl : s = t := by simpa using hdisp
                  exact List.prefix_refl _
                · obtain ⟨⟨a, u⟩, hcall, rfl⟩ := Option.map_eq_some_iff.mp hdisp
                  exact hpull _ _ _ _ hcall
              simp only [hdisp] at hrun
              split at hrun
              · exact hpulled.trans (ih _ _ hrun)
              · simp only [Option.some.injEq, Prod.mk.injEq] at hrun
                exact hrun.2 ▸ hpulled

theorem engineVerify_logs (hpull : PullLogs pull) {b : Bool} (hrun : engineVerify pull q s = some (b, s')) :
    s.log <+: s'.log := by
  simp only [engineVerify] at hrun
  split at hrun
  · simp only [Option.some.injEq, Prod.mk.injEq] at hrun
    exact hrun.2 ▸ List.prefix_refl _
  split at hrun
  · simp only [Option.some.injEq, Prod.mk.injEq] at hrun
    exact hrun.2 ▸ List.prefix_append _ _
  cases hwalk : verifyWalk pull ((s.stack.head?.map (·.deps.length)).getD 0) 0 s with
  | none => simp [hwalk] at hrun
  | some res =>
      obtain ⟨b', t⟩ := res
      have hlog := verifyWalk_logs hpull _ _ _ hwalk
      cases b' with
      | true =>
          simp only [hwalk, Option.some.injEq, Prod.mk.injEq] at hrun
          exact hrun.2 ▸ hlog
      | false =>
          simp only [hwalk, Option.some.injEq, Prod.mk.injEq] at hrun
          exact hrun.2 ▸ hlog

theorem revalidate_logs (hpull : PullLogs pull) {prev : QueryState} {hit r : BeginResult}
    (hrun : revalidate pull prev hit q s = some (r, s')) : s.log <+: s'.log := by
  simp only [revalidate] at hrun
  split at hrun
  · simp at hrun
  · rename_i u hver
    simp only [Option.some.injEq, Prod.mk.injEq] at hrun
    rw [← hrun.2, log_accept]
    exact engineVerify_logs (s := opened s q) hpull hver
  · rename_i u hver
    simp only [Option.some.injEq, Prod.mk.injEq] at hrun
    rw [← hrun.2, log_reject]
    exact engineVerify_logs (s := opened s q) hpull hver

theorem queryBegin_logs (hpull : PullLogs pull) {r : BeginResult} (hrun : queryBegin pull q s = some (r, s')) :
    s.log <+: s'.log := by
  simp only [queryBegin] at hrun
  rw [← log_checkCancel s]
  split at hrun
  · simp only [Option.some.injEq, Prod.mk.injEq] at hrun
    exact hrun.2 ▸ List.prefix_refl _
  simp only [beginSlot] at hrun
  split at hrun
  · exact revalidate_logs hpull hrun
  · exact revalidate_logs hpull hrun
  · simp only [Option.some.injEq] at hrun
    have hlog := log_enterCycle q (checkCancel s).2
    rw [hrun] at hlog
    exact hlog ▸ List.prefix_refl _
  · simp only [Option.some.injEq, Prod.mk.injEq] at hrun
    exact hrun.2 ▸ List.prefix_refl _

theorem drivePass_logs (hpull : PullLogs pull) (members : List Query) (changed : Bool) (s : State V F) {b : Bool}
    (hrun : drivePass fam pull members changed s = some (b, s')) : s.log <+: s'.log := by
  induction members generalizing changed s with
  | nil =>
      simp only [drivePass, Option.some.injEq, Prod.mk.injEq] at hrun
      exact hrun.2 ▸ List.prefix_refl _
  | cons q rest ih =>
      simp only [drivePass] at hrun
      cases hrerun : sccRerunMember fam pull q s with
      | none => simp [hrerun] at hrun
      | some t =>
          simp only [hrerun] at hrun
          exact (sccRerunMember_logs hpull hrerun).trans (ih _ _ hrun)

theorem driveLoop_logs (hpull : PullLogs pull) (members : List Query) (cap : Nat) (s : State V F)
    (hrun : driveLoop fam pull members cap s = some s') : s.log <+: s'.log := by
  induction cap generalizing s with
  | zero =>
      simp only [driveLoop, Option.some.injEq] at hrun
      exact hrun ▸ List.prefix_refl _
  | succ cap ih =>
      simp only [driveLoop] at hrun
      split at hrun
      · simp at hrun
      · rename_i t hpass
        exact (drivePass_logs hpull _ _ _ hpass).trans (ih _ hrun)
      · rename_i t hpass
        simp only [Option.some.injEq] at hrun
        exact hrun ▸ drivePass_logs hpull _ _ _ hpass

theorem fixpointDrive_logs (hpull : PullLogs pull) (hrun : fixpointDrive fam pull s = some s') : s.log <+: s'.log := by
  simp only [fixpointDrive] at hrun
  split at hrun
  · simp only [Option.some.injEq] at hrun
    exact hrun ▸ List.prefix_refl _
  split at hrun
  · simp at hrun
  · rename_i t hloop
    simp only [Option.some.injEq] at hrun
    rw [← hrun]
    exact (driveLoop_logs hpull _ _ _ hloop).trans (log_finalize _ t)

theorem computeAndDrive_drive_logs (hpull : PullLogs pull) {a a' : Answer V} {t : State V F}
    (hcompute : compute fam pull q s = some (a', t)) (hrun : computeAndDrive fam pull q s = some (a, s')) :
    t.log <+: s'.log := by
  simp only [computeAndDrive, hcompute] at hrun
  split at hrun
  · simp only [Option.map_eq_some_iff, Prod.mk.injEq] at hrun
    obtain ⟨u, hdrive, -, rfl⟩ := hrun
    exact fixpointDrive_logs hpull hdrive
  · simp only [Option.some.injEq, Prod.mk.injEq] at hrun
    exact hrun.2 ▸ List.prefix_refl _

theorem computeAndDrive_logs (hpull : PullLogs pull) {a : Answer V}
    (hrun : computeAndDrive fam pull q s = some (a, s')) : s.log <+: s'.log := by
  cases hcompute : compute fam pull q s with
  | none => simp [computeAndDrive, hcompute] at hrun
  | some res =>
      obtain ⟨a', t⟩ := res
      exact (compute_logs hpull hcompute).trans (computeAndDrive_drive_logs hpull hcompute hrun)

variable [Inhabited V]

omit [DecidableEq F] in
theorem log_slotAlloc (s : State V F) (q : Query) : (slotAlloc s q).log = s.log := by
  simp only [slotAlloc]
  split <;> rfl

omit [Inhabited V] in
theorem answerOf_logs (hpull : PullLogs pull) {r : BeginResult} {a : Answer V}
    (hrun : answerOf fam pull q r s = some (a, s')) : s.log <+: s'.log := by
  cases r with
  | cached | cycle | canceled | error | cycleProvisional =>
      simp only [answerOf, Option.some.injEq, Prod.mk.injEq] at hrun
      exact hrun.2 ▸ List.prefix_refl _
  | compute =>
      simp only [answerOf] at hrun
      split at hrun
      · simp at hrun
      · exact computeAndDrive_logs hpull hrun

theorem demandWith_logs (hpull : PullLogs pull) : PullLogs (demandWith fam pull) := by
  intro q s a s' hrun
  simp only [demandWith] at hrun
  cases hbegin : queryBegin pull q (slotAlloc s q) with
  | none => simp [hbegin] at hrun
  | some res =>
      obtain ⟨r, t⟩ := res
      simp only [hbegin] at hrun
      have hlog := queryBegin_logs hpull hbegin
      rw [log_slotAlloc] at hlog
      have hemit : s.log <+: (t.emit (.answered q r t.toDb)).log := hlog.trans (List.prefix_append _ _)
      exact hemit.trans (answerOf_logs hpull hrun)

theorem demand_logs (fam : Family V F) (depth : Nat) : PullLogs (demand fam depth) := by
  induction depth with
  | zero =>
      intro q s a s' hrun
      simp [demand] at hrun
  | succ depth ih => exact demandWith_logs ih

end Ore.EngineLog
