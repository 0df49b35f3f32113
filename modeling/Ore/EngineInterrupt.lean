import Ore.EngineLog
import Ore.EngineDemand

namespace Ore.EngineInterrupt

open Tasks EngineModel EngineFacts EngineSound EngineNested EngineDemand EngineLog

variable {V F : Type}

def plainDb (db : Db V F) : Db V F := { db with cancelIn := none }

def plainEvent : Event V F → Event V F
  | .answered q r db => .answered q r (plainDb db)
  | .skipped q db => .skipped q (plainDb db)
  | .compared dep before after => .compared dep (plainDb before) (plainDb after)
  | .finished q deps consumed => .finished q deps consumed

/-- The state as it would be had no cancel been requested. -/
def plain (s : State V F) : State V F := { s with cancelIn := none, log := s.log.map plainEvent }

def Unrefused (log : List (Event V F)) : Prop :=
  ∀ dep before after, .compared dep before after ∈ log → dep.query.kind.isInput = true ∨ before.cancelIn ≠ some 0

theorem Unrefused.mono {log log' : List (Event V F)} (h : Unrefused log') (hle : log <+: log') : Unrefused log :=
  fun dep before after hmem => h dep before after (hle.subset hmem)

variable {fam : Family V F} {ranks : Nat → Query → Nat} {hist : Nat → Inputs V} {r i : Nat} {q c : Query}
variable {pull : Pull V F} {s s' : State V F} {top : Frame F} {rest : List (Frame F)} {seen : List Query}

section Plain

@[simp] theorem plain_emit (s : State V F) (e : Event V F) : plain (s.emit e) = (plain s).emit (plainEvent e) := by
  simp [plain, State.emit]

theorem plain_noteConsumed (s : State V F) (c : Query) (kind : AnswerKind) :
    plain (noteConsumed c kind s) = noteConsumed c kind (plain s) := by
  simp only [noteConsumed, plain]
  split <;> rfl

theorem plain_accept (prev : QueryState) (q : Query) (hstack : s.stack = top :: rest) :
    plain (accept prev q s) = accept prev q (plain s) := by
  rw [accept_eq prev hstack, accept_eq (s := plain s) prev hstack]
  rfl

theorem plain_reject (q : Query) (hstack : s.stack = top :: rest) : plain (reject q s) = reject q (plain s) := by
  rw [reject_eq hstack, reject_eq (s := plain s) hstack]
  rfl

theorem plain_slotAlloc [Inhabited V] (s : State V F) (q : Query) : plain (slotAlloc s q) = slotAlloc (plain s) q := by
  have hloc : isLocated (plain s).toDb q = isLocated s.toDb q := rfl
  simp only [slotAlloc, hloc]
  split <;> rfl

theorem checkCancel_plain (s : State V F) : checkCancel (plain s) = (false, plain s) := rfl

theorem checkCancel_visible (h : s.cancelIn = some 0) : checkCancel s = (true, s) := by
  simp [checkCancel, h]

theorem checkCancel_passes (h : s.cancelIn ≠ some 0) :
    (checkCancel s).1 = false ∧ plain (checkCancel s).2 = plain s ∧ (checkCancel s).2.log = s.log := by
  have hc : (s.cancelIn == some 0) = false := by simpa using h
  rw [checkCancel_eq, hc]
  exact ⟨rfl, rfl, rfl⟩

theorem plain_querySucceed (q : Query) (fp : Option F) (hstack : s.stack = top :: rest) (h : s.cancelIn ≠ some 0) :
    plain (querySucceed q fp s) = querySucceed q fp (plain s) := by
  rw [querySucceed_settled hstack h, querySucceed_eq (s := plain s) q fp hstack rfl]
  simp [plain, plainEvent]

theorem plain_queryFail (q : Query) (hstack : s.stack = top :: rest) (h : s.cancelIn ≠ some 0) :
    plain (queryFail q s) = queryFail q (plain s) := by
  rw [queryFail_settled hstack h, queryFail_eq (s := plain s) hstack rfl]
  simp [plain, plainEvent]

end Plain

section Spec

variable (fam : Family V F) (ranks : Nat → Query → Nat) (hist : Nat → Inputs V)

/-- Once the cancel is visible, nothing that was in progress ends, and what is
settled stays right. -/
structure Drift (s s' : State V F) : Prop where
  sound : Sound fam ranks hist (plain s').toDb
  log : LogOk fam ranks hist (plain s').log
  visible : s'.cancelIn = some 0
  current : s'.current = s.current
  request : s'.request = s.request
  running : ∀ p, (s.slots p).state = .running → (s'.slots p).state = .running

/-- A demand that was interrupted leaves its query in progress. -/
structure Cut (s : State V F) (q : Query) (s' : State V F) : Prop extends Drift fam ranks hist s s' where
  stack : s'.stack = s.stack
  state : (s'.slots q).state = .running

/-- A pull is refused, or goes as without the cancel, or is interrupted. -/
structure PullCut [Inhabited V] (pull : Pull V F) : Prop where
  refused : ∀ q s a s', pull q s = some (a, s') → s.cancelIn = some 0 →
    s' = (slotAlloc s q).emit (.answered q .canceled (slotAlloc s q).toDb)
  cycle : ∀ q s a s', pull q s = some (a, s') → s.cancelIn ≠ some 0 → Sound fam ranks hist (plain s).toDb →
    (s.slots q).state = .running → q.kind.isFixpoint = false → pull q (plain s) = some (a, plain s')
  call : ∀ q s a s', pull q s = some (a, s') → s.cancelIn ≠ some 0 → Pre fam ranks hist (plain s) q → Unrefused s'.log →
    pull q (plain s) = some (a, plain s') ∨ Cut fam ranks hist s q s'

end Spec

theorem Drift.trans {t u : State V F} (h : Drift fam ranks hist s t) (h' : Drift fam ranks hist t u) :
    Drift fam ranks hist s u :=
  ⟨h'.sound, h'.log, h'.visible, h'.current.trans h.current, h'.request.trans h.request,
    fun p hp => h'.running p (h.running p hp)⟩

theorem Drift.since {t u : State V F} (h : Drift fam ranks hist t u) (hcurrent : t.current = s.current)
    (hrequest : t.request = s.request) (hrunning : ∀ p, (s.slots p).state = .running → (t.slots p).state = .running) :
    Drift fam ranks hist s u :=
  ⟨h.sound, h.log, h.visible, h.current.trans hcurrent, h.request.trans hrequest, fun p hp =>
    h.running p (hrunning p hp)⟩

theorem Drift.after {t u : State V F} (h : Drift fam ranks hist t u) (hext : Ext (plain s).toDb (plain t).toDb) :
    Drift fam ranks hist s u :=
  h.since hext.current hext.request fun p hp => (congrArg Slot.state (hext.running p hp).1).trans hp

theorem Drift.restack {t : State V F} (h : Drift fam ranks hist s t) (stack : List (Frame F)) :
    Drift fam ranks hist s { t with stack := stack } :=
  ⟨h.sound.anyStack stack t.running t.tainted, h.log, h.visible, h.current, h.request, h.running⟩

/-- The slot of an interrupted query stays in progress for the sweep, whatever
else is done to it. -/
theorem drift_abandon {t u : State V F} (h : Drift fam ranks hist s t) (hq : q.kind.isInput = false)
    (hstate : (t.slots q).state = .running) (hstate' : (u.slots q).state = .running)
    (hprovisional : (u.slots q).provisional = (t.slots q).provisional)
    (hrouted : (u.slots q).routed = (t.slots q).routed)
    (hother : ∀ p, p ≠ q → u.slots p = t.slots p ∧ u.columns p = t.columns p)
    (hlog : u.log = t.log) (hcancel : u.cancelIn = t.cancelIn) (hcurrent : u.current = t.current)
    (hrequest : u.request = t.request) (hchanged : u.lastChanged = t.lastChanged) (hscc : u.scc = t.scc) :
    Drift fam ranks hist s u := by
  refine ⟨?_, ?_, hcancel.trans h.visible, hcurrent.trans h.current, hrequest.trans h.request, ?_⟩
  · refine h.sound.replace (q := q) hcurrent hrequest hchanged rfl hscc hother ?_ ?_ ?_ ?_ ?_
    · exact hprovisional.trans (h.sound.provisional q)
    · intro _
      have hloc := h.sound.located q (by simp [plain, hstate])
      simpa [isLocated, plain, hrouted] using hloc
    · intro hempty
      simp [plain, hstate'] at hempty
    · intro hin
      simp [hq] at hin
    · intro _ hset
      simp [Settled, plain, hstate'] at hset
  · simpa [plain, hlog] using h.log
  · intro p hp
    by_cases hpq : p = q
    · rw [hpq]
      exact hstate'
    · rw [(hother p hpq).1]
      exact h.running p hp

theorem Drift.fail {t : State V F} (h : Drift fam ranks hist s t) (hstack : t.stack = top :: rest)
    (hq : q.kind.isInput = false) (hstate : (t.slots q).state = .running) :
    Drift fam ranks hist s (queryFail q t) ∧ ((queryFail q t).slots q).state = .running ∧
      (queryFail q t).stack = rest := by
  rw [queryFail_canceled hstack h.visible]
  have hrunning : (Function.update t.slots q (carried (t.slots q) top) q).state = .running := by
    simpa [carried] using hstate
  refine ⟨drift_abandon h hq hstate hrunning ?_ ?_ ?_ rfl rfl rfl rfl rfl rfl, hrunning, rfl⟩
  · simp [carried]
  · simp [carried]
  · intro p hp
    simp [hp]

theorem Drift.succeed {t : State V F} (h : Drift fam ranks hist s t) (hstack : t.stack = top :: rest)
    (hq : q.kind.isInput = false) (hstate : (t.slots q).state = .running) (v : V) (seen : Bool) (fp : Option F) :
    Drift fam ranks hist s (querySucceed q fp (t.writeColumn q v seen)) ∧
      ((querySucceed q fp (t.writeColumn q v seen)).slots q).state = .running ∧
      (querySucceed q fp (t.writeColumn q v seen)).stack = rest := by
  rw [querySucceed_canceled (s := t.writeColumn q v seen) hstack h.visible]
  have hrunning : (Function.update t.slots q (carried (t.slots q) top) q).state = .running := by
    simpa [carried] using hstate
  refine ⟨drift_abandon h hq hstate hrunning ?_ ?_ ?_ rfl rfl rfl rfl rfl rfl, hrunning, rfl⟩
  · simp [carried, State.writeColumn]
  · simp [carried, State.writeColumn]
  · intro p hp
    simp [State.writeColumn, hp]

theorem Drift.reject {t : State V F} (h : Drift fam ranks hist s t) (hstack : t.stack = top :: rest)
    (hq : q.kind.isInput = false) (hstate : (t.slots q).state = .running) :
    Drift fam ranks hist s (reject q t) ∧ ((reject q t).slots q).state = .running ∧
      (reject q t).stack = clearedFrame top :: rest := by
  obtain ⟨hcol, hcur, hreq, hchg, hcan, hscc, hlog⟩ := reject_rest t q
  have hrunning : ((EngineModel.reject q t).slots q).state = .running := by
    rw [reject_slot]
    exact hstate
  refine ⟨drift_abandon h hq hstate hrunning ?_ ?_ ?_ hlog hcan hcur hreq hchg hscc, hrunning, reject_stack hstack⟩
  · rw [reject_slot]
  · rw [reject_slot]
  · intro p hp
    exact ⟨reject_ne t hp, by rw [hcol]⟩

section Adrift

variable [Inhabited V]

theorem drift_refused (hsound : Sound fam ranks hist (plain s).toDb) (hlog : LogOk fam ranks hist (plain s).log)
    (hvisible : s.cancelIn = some 0) (q : Query) :
    Drift fam ranks hist s ((slotAlloc s q).emit (.answered q .canceled (slotAlloc s q).toDb)) ∧
      ((slotAlloc s q).emit (.answered q .canceled (slotAlloc s q).toDb)).stack = s.stack := by
  obtain ⟨hsound', hext, hstack, hlog', -, -⟩ := slotAlloc_sound hsound q
  rw [← plain_slotAlloc] at hsound' hext hstack hlog'
  have hcancel : (slotAlloc s q).cancelIn = s.cancelIn := by
    simp only [slotAlloc]
    split <;> rfl
  refine ⟨⟨?_, ?_, hcancel.trans hvisible, hext.current, hext.request, ?_⟩, hstack⟩
  · rw [plain_emit]
    exact hsound'
  · rw [plain_emit]
    exact LogOk.emit (hlog' ▸ hlog) trivial
  · intro p hp
    have hslot := (hext.running p hp).1
    exact (congrArg Slot.state hslot).trans hp

theorem runBody_adrift (hpull : PullCut fam ranks hist pull) (p : Prog Query V) (b : Bool) (s : State V F)
    (top : Frame F)
    (hsound : Sound fam ranks hist (plain s).toDb) (hlog : LogOk fam ranks hist (plain s).log)
    (hvisible : s.cancelIn = some 0) (hstack : s.stack = top :: rest) {o : Outcome V} {b' : Bool}
    (hrun : runBody pull p b s = some (o, b', s')) :
    Drift fam ranks hist s s' ∧ ∃ top', s'.stack = top' :: rest := by
  induction p generalizing b s top with
  | ret v | fail =>
      simp only [runBody, Option.some.injEq, Prod.mk.injEq] at hrun
      obtain ⟨-, -, rfl⟩ := hrun
      exact ⟨⟨hsound, hlog, hvisible, rfl, rfl, fun _ hp => hp⟩, top, hstack⟩
  | demand c next ih =>
      simp only [runBody] at hrun
      cases hcall : pull c s with
      | none => simp [hcall] at hrun
      | some res =>
          obtain ⟨a, t⟩ := res
          simp only [hcall] at hrun
          obtain rfl := hpull.refused c s a t hcall hvisible
          obtain ⟨hdrift, hstack'⟩ := drift_refused hsound hlog hvisible c
          generalize (slotAlloc s c).emit (.answered c .canceled (slotAlloc s c).toDb) = t at hdrift hstack' hrun
          have hnote : Drift fam ranks hist s (noteConsumed c a.kind t) := by
            rw [noteConsumed_rest]
            exact hdrift.restack _
          obtain ⟨hdrift', htop⟩ := ih _ _ _ _ hnote.sound hnote.log hnote.visible
            (noteConsumed_stack (hstack'.trans hstack)) hrun
          exact ⟨hnote.trans hdrift', htop⟩

theorem compute_adrift (hpull : PullCut fam ranks hist pull) (hsound : Sound fam ranks hist (plain s).toDb)
    (hlog : LogOk fam ranks hist (plain s).log) (hvisible : s.cancelIn = some 0) (hstack : s.stack = top :: rest)
    (hq : q.kind.isInput = false) (hstate : (s.slots q).state = .running) {a : Answer V}
    (hrun : compute fam pull q s = some (a, s')) :
    Drift fam ranks hist s s' ∧ (s'.slots q).state = .running ∧ s'.stack = rest := by
  unfold compute at hrun
  cases hbody : runBody pull (fam.body q) false s with
  | none => simp [hbody] at hrun
  | some res =>
      obtain ⟨o, seen, t⟩ := res
      obtain ⟨hdrift, top', hstack'⟩ := runBody_adrift hpull _ _ _ _ hsound hlog hvisible hstack hbody
      have hrunning := hdrift.running q hstate
      rw [hbody] at hrun
      cases o with
      | failed =>
          simp only [Option.some.injEq, Prod.mk.injEq] at hrun
          obtain ⟨-, rfl⟩ := hrun
          exact hdrift.fail hstack' hq hrunning
      | ok v =>
          have hprov : fixpointEnrolled (t.writeColumn q v seen).toDb q = false := hdrift.sound.provisional q
          simp only [hprov, Bool.false_eq_true, and_false, if_false, Option.some.injEq, Prod.mk.injEq] at hrun
          obtain ⟨-, rfl⟩ := hrun
          exact hdrift.succeed hstack' hq hrunning v seen _

end Adrift

section Bodies

variable [Inhabited V] (hfam : LawfulAt fam ranks hist) (hspec : PullSpec fam ranks hist pull) (hlogs : PullLogs pull)
  (hpull : PullCut fam ranks hist pull)

include hfam hspec hlogs hpull

theorem runBody_cut (p : Prog Query V) (b : Bool) (s : State V F) (top : Frame F) (seen : List Query)
    (h : Computing fam ranks hist (plain s) q top rest seen)
    (hleft : Remains fam ranks hist s.current q seen p) {o : Outcome V} {b' : Bool}
      (hrun : runBody pull p b s = some (o, b', s')) (hunref : Unrefused s'.log) :
    runBody pull p b (plain s) = some (o, b', plain s') ∨
      Drift fam ranks hist s s' ∧ ∃ top', s'.stack = top' :: rest := by
  induction p generalizing b s top seen with
  | ret v | fail =>
      simp only [runBody, Option.some.injEq, Prod.mk.injEq] at hrun
      obtain ⟨rfl, rfl, rfl⟩ := hrun
      exact .inl rfl
  | demand c next ih =>
      by_cases hvisible : s.cancelIn = some 0
      · exact .inr (runBody_adrift hpull _ _ _ _ h.sound h.log hvisible h.stack hrun)
      simp only [runBody] at hrun
      cases hcall : pull c s with
      | none => simp [hcall] at hrun
      | some res =>
          obtain ⟨a, t⟩ := res
          simp only [hcall] at hrun
          have hc : ReadsOf fam ranks hist s.current q c := hleft.asked
          have hunref' : Unrefused t.log := by
            refine hunref.mono ?_
            have hlog := runBody_logs hlogs _ _ _ hrun
            rwa [log_noteConsumed] at hlog
          have hstep : pull c (plain s) = some (a, plain t) ∨ Cut fam ranks hist s c t := by
            by_cases hne : c = q
            · subst hne
              exact .inl (hpull.cycle _ _ _ _ hcall hvisible h.sound h.state (hfam.selfBottom _ c hc))
            · exact hpull.call _ _ _ _ hcall hvisible (h.pre hfam hc hne) hunref'
          rcases hstep with hplain | hcut
          · obtain ⟨⟨top', hcomp⟩, hext, hval⟩ := h.answer hfam hspec hc hplain
            have hnote := hcomp.note c a.kind
            rw [← plain_noteConsumed] at hnote
            have hcurrent : (noteConsumed c a.kind t).current = s.current := by
              rw [noteConsumed_rest]
              exact hext.current
            have hnext := hleft.next hval
            rw [← hcurrent] at hnext
            rcases ih _ _ _ _ _ hnote hnext hrun with hrest | ⟨hdrift, htop⟩
            · left
              rw [plain_noteConsumed] at hrest
              simp only [runBody, hplain]
              exact hrest
            · refine .inr ⟨hdrift.after ?_, htop⟩
              rw [noteConsumed_rest]
              exact ⟨hext.current, hext.request, hext.lastChanged, hext.running, hext.noNew, hext.fresh, hext.settled⟩
          · have hnote : Drift fam ranks hist s (noteConsumed c a.kind t) := by
              rw [noteConsumed_rest]
              exact hcut.toDrift.restack _
            obtain ⟨hdrift, htop⟩ := runBody_adrift hpull _ _ _ _ hnote.sound hnote.log hnote.visible
              (noteConsumed_stack (hcut.stack.trans h.stack)) hrun
            exact .inr ⟨hnote.trans hdrift, htop⟩

/-- A body that has ended either went as without the cancel and may settle, or
finds the cancel visible. -/
theorem body_cut (h : Computing fam ranks hist (plain s) q top rest []) (hq : q.kind.isInput = false) {o : Outcome V}
    {b : Bool} (hrun : runBody pull (fam.body q) false s = some (o, b, s')) (hunref : Unrefused s'.log) :
    (s'.cancelIn ≠ some 0 ∧ runBody pull (fam.body q) false (plain s) = some (o, b, plain s') ∧
        Sound fam ranks hist (plain s').toDb ∧ ∃ top', s'.stack = top' :: rest) ∨
      Drift fam ranks hist s s' ∧ (s'.slots q).state = .running ∧ ∃ top', s'.stack = top' :: rest := by
  rcases runBody_cut hfam hspec hlogs hpull _ _ _ _ _ h (.start hq) hrun hunref with hplain | ⟨hdrift, htop⟩
  · obtain ⟨top', hcomp, hext, -⟩ := runBody_spec hfam hspec _ _ _ _ _ h (.start hq) hplain
    by_cases hvisible : s'.cancelIn = some 0
    · have hdrift : Drift fam ranks hist s' s' := ⟨hcomp.sound, hcomp.log, hvisible, rfl, rfl, fun _ hp => hp⟩
      exact .inr ⟨hdrift.after hext, hcomp.state, top', hcomp.stack⟩
    · exact .inl ⟨hvisible, hplain, hcomp.sound, top', hcomp.stack⟩
  · exact .inr ⟨hdrift, hdrift.running q h.state, htop⟩

theorem compute_cut (h : Computing fam ranks hist (plain s) q top rest []) (hq : q.kind.isInput = false) {a : Answer V}
    (hrun : compute fam pull q s = some (a, s')) (hunref : Unrefused s'.log) :
    compute fam pull q (plain s) = some (a, plain s') ∨
      Drift fam ranks hist s s' ∧ (s'.slots q).state = .running ∧ s'.stack = rest := by
  cases hbody : runBody pull (fam.body q) false s with
  | none => simp [compute, hbody] at hrun
  | some res =>
      obtain ⟨o, seen, t⟩ := res
      have hends := body_cut hfam hspec hlogs hpull h hq hbody (hunref.mono (compute_body_logs hbody hrun))
      rw [compute, hbody] at hrun
      cases o with
      | failed =>
          simp only [Option.some.injEq, Prod.mk.injEq] at hrun
          obtain ⟨rfl, rfl⟩ := hrun
          rcases hends with ⟨hlive, hplain, -, top', hstack⟩ | ⟨hdrift, hstate, top', hstack⟩
          · left
            rw [compute, hplain, plain_queryFail q hstack hlive]
            simp [checkCancel_plain, (checkCancel_passes hlive).1]
          · exact .inr (hdrift.fail hstack hq hstate)
      | ok v =>
          have hprov : fixpointEnrolled (t.writeColumn q v seen).toDb q = false := by
            rcases hends with ⟨-, -, hsound, -⟩ | ⟨hdrift, -⟩
            · exact hsound.provisional q
            · exact hdrift.sound.provisional q
          simp only [hprov, Bool.false_eq_true, and_false, if_false, Option.some.injEq, Prod.mk.injEq] at hrun
          obtain ⟨rfl, rfl⟩ := hrun
          rcases hends with ⟨hlive, hplain, -, top', hstack⟩ | ⟨hdrift, hstate, top', hstack⟩
          · left
            have hprov' : fixpointEnrolled ((plain t).writeColumn q v seen).toDb q = false := hprov
            have hcheck : (checkCancel (t.writeColumn q v seen)).1 = false :=
              (checkCancel_passes (s := t.writeColumn q v seen) hlive).1
            rw [compute, hplain, plain_querySucceed (s := t.writeColumn q v seen) q _ hstack hlive]
            simp only [hprov', hcheck, Bool.false_eq_true, and_false, if_false]
            rfl
          · exact .inr (hdrift.succeed hstack hq hstate v seen _)

variable [DecidableEq F]

/-- A walk that is interrupted finds the dep in progress and rejects. -/
theorem verifyWalk_cut (n i : Nat) (s : State V F) (top : Frame F)
    (h : Verifying fam ranks hist (plain s) q top rest r i) {b : Bool} (hrun : verifyWalk pull n i s = some (b, s'))
    (hunref : Unrefused s'.log) :
    verifyWalk pull n i (plain s) = some (b, plain s') ∨
      b = false ∧ Drift fam ranks hist s s' ∧ ∃ top', s'.stack = top' :: rest := by
  induction n generalizing i s top with
  | zero =>
      simp only [verifyWalk, Option.some.injEq, Prod.mk.injEq] at hrun
      obtain ⟨rfl, rfl⟩ := hrun
      exact .inl rfl
  | succ n ih =>
      have hstack : s.stack = top :: rest := h.stack
      simp only [verifyWalk, hstack, List.head?_cons, Option.bind_some] at hrun
      cases hdep : top.deps[i]? with
      | none => simp [hdep] at hrun
      | some dep =>
          simp only [hdep] at hrun
          cases hdisp : recomputeDispatch pull dep.query s with
          | none => simp [hdisp] at hrun
          | some t =>
              simp only [hdisp] at hrun
              have hlog : (t.emit (.compared dep s.toDb t.toDb)).log <+: s'.log := by
                split at hrun
                · exact verifyWalk_logs hlogs _ _ _ hrun
                · simp only [Option.some.injEq, Prod.mk.injEq] at hrun
                  exact hrun.2 ▸ List.prefix_refl _
              have hlive : dep.query.kind.isInput = true ∨ s.cancelIn ≠ some 0 :=
                hunref dep s.toDb t.toDb (hlog.subset (by simp [State.emit]))
              have hstep : recomputeDispatch pull dep.query (plain s) = some (plain t) ∨
                  Cut fam ranks hist s dep.query t := by
                unfold recomputeDispatch at hdisp ⊢
                split at hdisp
                · rename_i hin
                  injection hdisp with hdisp
                  simp [hin, hdisp]
                · rename_i hin
                  obtain ⟨⟨a, u⟩, hcall, rfl⟩ := Option.map_eq_some_iff.mp hdisp
                  have hunref' : Unrefused u.log := hunref.mono ((List.prefix_append _ _).trans hlog)
                  refine (hpull.call _ _ _ _ hcall (hlive.resolve_left hin)
                    (h.pre hfam (by simp [names, hdep])) hunref').imp_left fun hplain => ?_
                  simp [hin, hplain]
              rcases hstep with hplain | hcut
              · obtain ⟨-, -, hext, hfresh, top', -, hgo⟩ := h.dispatch hfam hspec hdep hplain
                have hevent : EventOk fam ranks hist (.compared dep (plain s).toDb (plain t).toDb) := fun _ _ => hfresh
                have hwalk : verifyWalk pull (n + 1) i (plain s) =
                    if isLocated s.toDb dep.query ∧ (t.slots dep.query).state = .done ∧
                        (t.slots dep.query).fingerprint = dep.fp then
                      verifyWalk pull n (i + 1) (plain (t.emit (.compared dep s.toDb t.toDb)))
                    else some (false, plain (t.emit (.compared dep s.toDb t.toDb))) := by
                  simp only [verifyWalk, h.stack, List.head?_cons, Option.bind_some, hdep, hplain, plain_emit]
                  rfl
                rw [hwalk]
                split at hrun
                · rename_i hok
                  rw [if_pos hok]
                  have hver := (hgo hok.2.1 hok.2.2).1.emit hevent
                  rcases ih (i + 1) (t.emit (.compared dep s.toDb t.toDb)) top' (by rw [plain_emit]; exact hver)
                    hrun with
                    hrest | ⟨hb, hdrift, htop⟩
                  · exact .inl hrest
                  · refine .inr ⟨hb, hdrift.after ?_, htop⟩
                    rw [plain_emit]
                    exact hext
                · rename_i hok
                  rw [if_neg hok]
                  simp only [Option.some.injEq, Prod.mk.injEq] at hrun
                  obtain ⟨rfl, rfl⟩ := hrun
                  exact .inl rfl
              · have hstate := hcut.state
                simp only [hstate, reduceCtorEq, false_and, and_false, if_false, Option.some.injEq,
                  Prod.mk.injEq] at hrun
                obtain ⟨rfl, rfl⟩ := hrun
                refine .inr ⟨rfl, ⟨?_, ?_, hcut.visible, hcut.current, hcut.request, hcut.running⟩, top, ?_⟩
                · rw [plain_emit]
                  exact hcut.sound
                · rw [plain_emit]
                  refine hcut.log.emit ?_
                  intro hdone _
                  have hdone : (t.slots dep.query).state = .done := hdone
                  simp [hstate] at hdone
                · exact hcut.stack.trans hstack

omit [Inhabited V] hfam hspec hlogs hpull in
theorem engineVerify_walked (hstack : s.stack = top :: rest) (hcur : (s.slots q).verifiedRev ≠ effectiveRevision s.toDb)
    (hskip : ¬ s.lastChanged (s.slots q).durability ≤ (s.slots q).verifiedRev) :
    engineVerify pull q s =
      match verifyWalk pull top.deps.length 0 s with
      | some (true, t) => some (true, t.modifySlot q fun slot => { slot with verifiedRev := effectiveRevision s.toDb })
      | res => res := by
  refine (if_neg hcur).trans ((if_neg hskip).trans ?_)
  rw [hstack]
  rfl

omit [Inhabited V] hfam hspec hlogs hpull in
/-- Verification differs from that without a cancel only as its walk does. -/
theorem engineVerify_plain (drift : State V F → Prop) (hstack : s.stack = top :: rest)
    (hwalk : ∀ b t, verifyWalk pull top.deps.length 0 s = some (b, t) → t.log = s'.log →
      verifyWalk pull top.deps.length 0 (plain s) = some (b, plain t) ∨ b = false ∧ drift t) {b : Bool}
    (hrun : engineVerify pull q s = some (b, s')) :
    engineVerify pull q (plain s) = some (b, plain s') ∨ b = false ∧ drift s' := by
  simp only [engineVerify] at hrun
  split at hrun
  · rename_i hcur
    simp only [Option.some.injEq, Prod.mk.injEq] at hrun
    obtain ⟨rfl, rfl⟩ := hrun
    exact .inl (if_pos hcur)
  rename_i hcur
  split at hrun
  · rename_i hskip
    simp only [Option.some.injEq, Prod.mk.injEq] at hrun
    obtain ⟨rfl, rfl⟩ := hrun
    left
    refine (if_neg hcur).trans ((if_pos hskip).trans ?_)
    simp only [plain, State.modifySlot, State.emit, List.map_append, List.map_cons, List.map_nil, plainEvent]
    rfl
  · rename_i hskip
    have hplain : (plain s).stack = top :: rest := hstack
    rw [engineVerify_walked hplain hcur hskip]
    rw [hstack] at hrun
    simp only [List.head?_cons, Option.map_some, Option.getD_some] at hrun
    cases hres : verifyWalk pull top.deps.length 0 s with
    | none => simp [hres] at hrun
    | some res =>
        obtain ⟨b', t⟩ := res
        rw [hres] at hrun
        cases b' with
        | true =>
            simp only [Option.some.injEq, Prod.mk.injEq] at hrun
            obtain ⟨rfl, rfl⟩ := hrun
            have hleft := (hwalk true t hres rfl).resolve_right (by simp)
            rw [hleft]
            exact .inl rfl
        | false =>
            simp only [Option.some.injEq, Prod.mk.injEq] at hrun
            obtain ⟨rfl, rfl⟩ := hrun
            rcases hwalk false t hres rfl with hleft | hright
            · rw [hleft]
              exact .inl rfl
            · exact .inr hright

theorem engineVerify_cut (h : Verifying fam ranks hist (plain s) q top rest r 0) {b : Bool}
    (hrun : engineVerify pull q s = some (b, s')) (hunref : Unrefused s'.log) :
    engineVerify pull q (plain s) = some (b, plain s') ∨
      b = false ∧ Drift fam ranks hist s s' ∧ ∃ top', s'.stack = top' :: rest := by
  have hstack : s.stack = top :: rest := h.stack
  refine engineVerify_plain (fun t => Drift fam ranks hist s t ∧ ∃ top', t.stack = top' :: rest) hstack ?_ hrun
  intro b t hwalk hlog
  exact verifyWalk_cut hfam hspec hlogs hpull _ _ s _ h hwalk (hlog ▸ hunref)

/-- Verification of a settled query goes as without the cancel, or ends in a
computation under a visible cancel. -/
theorem revalidate_cut (hpre : Pre fam ranks hist (plain s) q)
    (hq : q.kind.isInput = false) (hset : Settled s.toDb q) {hit res : BeginResult}
    (hrun : revalidate pull (s.slots q).state hit q s = some (res, s')) (hunref : Unrefused s'.log) :
    revalidate pull (s.slots q).state hit q (plain s) = some (res, plain s') ∨
      res = .compute ∧ Drift fam ranks hist s s' ∧ (s'.slots q).state = .running ∧ ∃ top,
        s'.stack = top :: s.stack := by
  rw [revalidate_eq] at hrun ⊢
  have hver : Verifying fam ranks hist (plain (opened s q)) q (openedFrame s q) s.stack (s.slots q).verifiedRev 0 :=
    opened_verifying hpre hq hset
  cases hverify : engineVerify pull q (opened s q) with
  | none => simp [hverify] at hrun
  | some out =>
      obtain ⟨b, u⟩ := out
      rw [hverify] at hrun
      have hlog : u.log = s'.log := by
        cases b with
        | true =>
            simp only [Option.some.injEq, Prod.mk.injEq] at hrun
            rw [← hrun.2, log_accept]
        | false =>
            simp only [Option.some.injEq, Prod.mk.injEq] at hrun
            rw [← hrun.2, log_reject]
      rcases engineVerify_cut hfam hspec hlogs hpull hver hverify (hlog ▸ hunref) with hplain | ⟨rfl, hdrift, top, htop⟩
      · left
        have hplain : engineVerify pull q (opened (plain s) q) = some (b, plain u) := hplain
        obtain ⟨t, top, ht, -, -, -, hstack, -⟩ := engineVerify_spec hfam hspec hpre hq hset hplain
        have hustack : u.stack = top :: s.stack := by
          have : (plain u).stack = top :: (plain s).stack := by rcases ht with ht | ht <;> rw [ht] <;> exact hstack
          exact this
        rw [hplain]
        cases b with
        | true =>
            simp only [Option.some.injEq, Prod.mk.injEq] at hrun
            obtain ⟨rfl, rfl⟩ := hrun
            rw [plain_accept _ _ hustack]
        | false =>
            simp only [Option.some.injEq, Prod.mk.injEq] at hrun
            obtain ⟨rfl, rfl⟩ := hrun
            rw [plain_reject _ hustack]
      · simp only [Option.some.injEq, Prod.mk.injEq] at hrun
        obtain ⟨rfl, rfl⟩ := hrun
        have hopened : ∀ p, (s.slots p).state = .running → ((opened s q).slots p).state = .running := by
          intro p hp
          have hpq : p ≠ q := by
            rintro rfl
            rcases hset with hs | hs <;> simp [hs] at hp
          rw [opened_ne s hpq]
          exact hp
        have hdrift' : Drift fam ranks hist s u :=
          ⟨hdrift.sound, hdrift.log, hdrift.visible, hdrift.current, hdrift.request,
            fun p hp => hdrift.running p (hopened p hp)⟩
        obtain ⟨hrej, hstate, hstack⟩ := hdrift'.reject htop hq (hdrift.running q (by rw [opened_slot]))
        exact .inr ⟨rfl, hrej, hstate, _, hstack⟩

omit [Inhabited V] hfam hspec hlogs hpull in
theorem computeAndDrive_eq {a : Answer V} (hcompute : compute fam pull q s = some (a, s')) (hscc : s'.scc = none) :
    computeAndDrive fam pull q s = some (a, s') := by
  have hroot : fixpointIsRoot s'.toDb q = false := by simp [fixpointIsRoot, hscc]
  simp [computeAndDrive, hcompute, hroot]

theorem computeAndDrive_cut (h : Computing fam ranks hist (plain s) q top rest []) (hq : q.kind.isInput = false)
    {a : Answer V} (hrun : computeAndDrive fam pull q s = some (a, s')) (hunref : Unrefused s'.log) :
    computeAndDrive fam pull q (plain s) = some (a, plain s') ∨
      Drift fam ranks hist s s' ∧ (s'.slots q).state = .running ∧ s'.stack = rest := by
  cases hcompute : compute fam pull q s with
  | none => simp [computeAndDrive, hcompute] at hrun
  | some res =>
      obtain ⟨a', t⟩ := res
      have hlog := computeAndDrive_drive_logs hlogs hcompute hrun
      rcases compute_cut hfam hspec hlogs hpull h hq hcompute (hunref.mono hlog) with hplain | hcut
      · have hscc : (plain t).scc = none := (compute_spec hfam hspec h hq hplain).1.scc
        have hres := computeAndDrive_eq hcompute hscc
        obtain ⟨rfl, rfl⟩ := Prod.mk.inj (Option.some.inj (hres.symm.trans hrun))
        exact .inl (computeAndDrive_eq hplain hscc)
      · have hres := computeAndDrive_eq hcompute hcut.1.sound.scc
        obtain ⟨rfl, rfl⟩ := Prod.mk.inj (Option.some.inj (hres.symm.trans hrun))
        exact .inr hcut

omit hfam hspec hlogs in
theorem computeAndDrive_adrift (hsound : Sound fam ranks hist (plain s).toDb)
    (hlog : LogOk fam ranks hist (plain s).log)
    (hvisible : s.cancelIn = some 0) (hstack : s.stack = top :: rest) (hq : q.kind.isInput = false)
    (hstate : (s.slots q).state = .running) {a : Answer V} (hrun : computeAndDrive fam pull q s = some (a, s')) :
    Drift fam ranks hist s s' ∧ (s'.slots q).state = .running ∧ s'.stack = rest := by
  cases hcompute : compute fam pull q s with
  | none => simp [computeAndDrive, hcompute] at hrun
  | some res =>
      obtain ⟨a', t⟩ := res
      have hcut := compute_adrift hpull hsound hlog hvisible hstack hq hstate hcompute
      have hres := computeAndDrive_eq hcompute hcut.1.sound.scc
      obtain ⟨rfl, rfl⟩ := Prod.mk.inj (Option.some.inj (hres.symm.trans hrun))
      exact hcut

/-- A settled derived query is answered as without the cancel, or cut. -/
theorem settled_cut (hpre : Pre fam ranks hist (plain s) q)
    (hq : q.kind.isInput = false)
    (hset : Settled s.toDb q) {hit res : BeginResult} (hhit : hit = .cached ∨ hit = .error) {t : State V F}
    (hrev : revalidate pull (s.slots q).state hit q s = some (res, t)) {a : Answer V}
    (hrun : answerOf fam pull q res (t.emit (.answered q res t.toDb)) = some (a, s')) (hunref : Unrefused s'.log) :
    (revalidate pull (s.slots q).state hit q (plain s) = some (res, plain t) ∧
      answerOf fam pull q res ((plain t).emit (.answered q res (plain t).toDb)) = some (a, plain s')) ∨
      Cut fam ranks hist s q s' := by
  have hlog : t.log <+: s'.log := (List.prefix_append _ _).trans (answerOf_logs hlogs hrun)
  rcases revalidate_cut hfam hspec hlogs hpull hpre hq hset hrev (hunref.mono hlog) with
    hplain | ⟨rfl, hdrift, hstate, top, hstack⟩
  · rcases revalidate_spec hfam hspec hpre hq hset hplain with ⟨rfl, -⟩ | ⟨rfl, -, hopens, top, hcomp⟩
    · refine .inl ⟨hplain, ?_⟩
      rcases hhit with rfl | rfl
      · simp only [answerOf, Option.some.injEq, Prod.mk.injEq] at hrun
        obtain ⟨rfl, rfl⟩ := hrun
        rw [plain_emit]
        rfl
      · simp only [answerOf, Option.some.injEq, Prod.mk.injEq] at hrun
        obtain ⟨rfl, rfl⟩ := hrun
        rw [plain_emit]
        rfl
    · simp only [answerOf, hq, Bool.false_eq_true, if_false] at hrun ⊢
      have hcomp' : Computing fam ranks hist (plain (t.emit (.answered q .compute t.toDb))) q top s.stack [] := by
        rw [plain_emit]
        exact hcomp.emit trivial
      rcases computeAndDrive_cut hfam hspec hlogs hpull hcomp' hq hrun hunref with hleft | ⟨hdrift, hstate, hstack⟩
      · rw [plain_emit] at hleft
        exact .inl ⟨hplain, hleft⟩
      · refine .inr ⟨hdrift.since hopens.current hopens.request ?_, hstack, hstate⟩
        intro p hp
        have hpq : p ≠ q := by
          rintro rfl
          exact hpre.idle hp
        exact (congrArg Slot.state (hopens.running p hpq hp).1).trans hp
  · simp only [answerOf, hq, Bool.false_eq_true, if_false] at hrun
    have hsound : Sound fam ranks hist (plain (t.emit (.answered q .compute t.toDb))).toDb := by
      rw [plain_emit]
      exact hdrift.sound
    have hlogok : LogOk fam ranks hist (plain (t.emit (.answered q .compute t.toDb))).log := by
      rw [plain_emit]
      exact hdrift.log.emit trivial
    obtain ⟨hdrift', hstate', hstack'⟩ :=
      computeAndDrive_adrift hpull hsound hlogok hdrift.visible hstack hq hstate hrun
    exact .inr ⟨hdrift'.since hdrift.current hdrift.request hdrift.running, hstack', hstate'⟩

omit [Inhabited V] hfam hspec hlogs hpull in
/-- A settled slot without deps is accepted as without the cancel. -/
theorem leaf_plain (hdeps : (s.slots q).deps = []) {prev : QueryState} {hit res : BeginResult}
    (hrun : revalidate pull prev hit q s = some (res, s')) :
    res = hit ∧ revalidate pull prev hit q (plain s) = some (res, plain s') := by
  rw [revalidate_eq] at hrun ⊢
  have hwalk (u : State V F) : verifyWalk pull (openedFrame s q).deps.length 0 u = some (true, u) := by
    rw [show (openedFrame s q).deps = [] from hdeps]
    rfl
  have hverify : ∃ u, engineVerify pull q (opened s q) = some (true, u) ∧ u.stack = openedFrame s q :: s.stack := by
    simp only [engineVerify, opened_stack, List.head?_cons, Option.map_some, Option.getD_some, hwalk]
    split
    · exact ⟨_, rfl, opened_stack s q⟩
    · split
      · exact ⟨_, rfl, opened_stack s q⟩
      · exact ⟨_, rfl, opened_stack s q⟩
  obtain ⟨u, hver, hstack⟩ := hverify
  have hver' : engineVerify pull q (opened (plain s) q) = some (true, plain u) := by
    refine (engineVerify_plain (fun _ => False) (opened_stack s q) ?_ hver).resolve_right fun h => h.2
    intro b t hrun _
    rw [hwalk, Option.some.injEq, Prod.mk.injEq] at hrun
    obtain ⟨rfl, rfl⟩ := hrun
    exact .inl (hwalk _)
  rw [hver] at hrun
  simp only [Option.some.injEq, Prod.mk.injEq] at hrun
  obtain ⟨rfl, rfl⟩ := hrun
  rw [hver']
  exact ⟨rfl, by rw [plain_accept _ _ hstack]⟩

theorem begun_cut (hpre : Pre fam ranks hist (plain s) q)
    (hloc : isLocated s.toDb q = true) {res : BeginResult} {t : State V F} (hbegin : beginSlot pull q s = some (res, t))
    {a : Answer V} (hrun : answerOf fam pull q res (t.emit (.answered q res t.toDb)) = some (a, s'))
    (hunref : Unrefused s'.log) :
    (beginSlot pull q (plain s) = some (res, plain t) ∧
      answerOf fam pull q res ((plain t).emit (.answered q res (plain t).toDb)) = some (a, plain s')) ∨
      Cut fam ranks hist s q s' := by
  have hslots : (plain s).slots = s.slots := rfl
  by_cases hin : q.kind.isInput = true
  · rcases hpre.sound.input q hin with hempty | hslot
    · have hempty : (s.slots q).state = .empty := hempty
      simp only [beginSlot, hempty, Option.some.injEq, Prod.mk.injEq] at hbegin
      obtain ⟨rfl, -⟩ := hbegin
      simp [answerOf, hin] at hrun
    · have hdone : (s.slots q).state = .done := hslot.state
      simp only [beginSlot, hslots, hdone] at hbegin ⊢
      obtain ⟨rfl, hplain⟩ := leaf_plain (s := s) hslot.deps hbegin
      simp only [answerOf, Option.some.injEq, Prod.mk.injEq] at hrun
      obtain ⟨rfl, rfl⟩ := hrun
      rw [plain_emit]
      exact .inl ⟨hplain, rfl⟩
  · have hq : q.kind.isInput = false := by simpa using hin
    cases hstate : (s.slots q).state with
    | running => exact absurd hstate hpre.idle
    | empty =>
        simp only [beginSlot, hslots, hstate, Option.some.injEq, Prod.mk.injEq] at hbegin ⊢
        obtain ⟨rfl, rfl⟩ := hbegin
        simp only [answerOf, hq, Bool.false_eq_true, if_false] at hrun ⊢
        have hopens := opened_opens (plain s) q
        have hcomp := computing_start hpre (opened_sound hpre.sound hq hloc) hpre.log hopens (opened_stack (plain s) q)
          (hpre.sound.unused q hstate)
        have hcomp' : Computing fam ranks hist (plain (trackRunning (opened s q) q)) q (openedFrame s q) s.stack [] :=
          ⟨hcomp.sound.anyStack _ _ s.tainted, hcomp.log, hcomp.stack, hcomp.state, hcomp.running, hcomp.failures,
            hcomp.tiers, hcomp.recorded, hcomp.ordered, hcomp.fps, hcomp.low⟩
        have hcomp'' := hcomp'.emit (e := .answered q .compute (plain (trackRunning (opened s q) q)).toDb) trivial
        rcases computeAndDrive_cut (s := (trackRunning (opened s q) q).emit
            (.answered q .compute (trackRunning (opened s q) q).toDb)) hfam hspec hlogs hpull
            (by rw [plain_emit]; exact hcomp'') hq hrun hunref with hleft | ⟨hdrift, hrunning, hstack⟩
        · rw [plain_emit] at hleft
          exact .inl ⟨⟨trivial, rfl⟩, hleft⟩
        · refine .inr ⟨hdrift.since rfl rfl ?_, hstack, hrunning⟩
          intro p hp
          have hpq : p ≠ q := by
            rintro rfl
            simp [hstate] at hp
          exact (congrArg Slot.state (opened_ne s hpq)).trans hp
    | done =>
        simp only [beginSlot, hslots, hstate] at hbegin ⊢
        rw [← hstate] at hbegin ⊢
        exact settled_cut hfam hspec hlogs hpull hpre hq (.inl hstate) (.inl rfl) hbegin hrun hunref
    | error =>
        simp only [beginSlot, hslots, hstate] at hbegin ⊢
        rw [← hstate] at hbegin ⊢
        exact settled_cut hfam hspec hlogs hpull hpre hq (.inr hstate) (.inr rfl) hbegin hrun hunref

end Bodies

variable [Inhabited V] [DecidableEq F]

theorem demandWith_cut (hfam : LawfulAt fam ranks hist) (hspec : PullSpec fam ranks hist pull)
    (hlogs : PullLogs pull) (hpull : PullCut fam ranks hist pull) : PullCut fam ranks hist (demandWith fam pull) := by
  have hcancel (s : State V F) (q : Query) : (slotAlloc s q).cancelIn = s.cancelIn := by
    simp only [slotAlloc]
    split <;> rfl
  refine ⟨?_, ?_, ?_⟩
  · intro q s a s' hrun hvisible
    have hcheck := checkCancel_visible ((hcancel s q).trans hvisible)
    simp only [demandWith, queryBegin, hcheck, if_true, answerOf, Option.some.injEq, Prod.mk.injEq] at hrun
    exact hrun.2.symm
  · intro q s a s' hrun hlive hsound hstate hkind
    have hloc : isLocated s.toDb q = true := hsound.located q (by simp [plain, hstate])
    have halloc : slotAlloc s q = s := by simp [slotAlloc, hloc]
    have halloc' : slotAlloc (plain s) q = plain s := by rw [← plain_slotAlloc, halloc]
    obtain ⟨hcheck, hplain, -⟩ := checkCancel_passes hlive
    have hslots : (checkCancel s).2.slots = s.slots := by rw [checkCancel_eq]
    simp only [demandWith, halloc, queryBegin, hcheck, Bool.false_eq_true, if_false, beginSlot, hslots, hstate,
      enterCycle,
      hkind, answerOf, Option.some.injEq, Prod.mk.injEq] at hrun
    obtain ⟨rfl, rfl⟩ := hrun
    have hstate' : ((plain s).slots q).state = .running := hstate
    simp only [demandWith, halloc', queryBegin, checkCancel_plain, Bool.false_eq_true, if_false, beginSlot, hstate',
      enterCycle, hkind, answerOf, plain_emit, hplain, plainEvent]
    rw [← hplain]
    rfl
  · intro q s a s' hrun hlive hpre hunref
    obtain ⟨hpre', hext, hstack, hloc, -⟩ := slotAlloc_spec hpre
    rw [← plain_slotAlloc] at hpre' hext hstack hloc
    obtain ⟨hcheck, hplain, -⟩ := checkCancel_passes ((hcancel s q).trans_ne hlive)
    simp only [demandWith, queryBegin, hcheck, Bool.false_eq_true, if_false] at hrun
    cases hbegin : beginSlot pull q (checkCancel (slotAlloc s q)).2 with
    | none => simp [hbegin] at hrun
    | some res =>
        obtain ⟨r, t⟩ := res
        simp only [hbegin] at hrun
        rw [← hplain] at hpre' hloc
        rcases begun_cut hfam hspec hlogs hpull hpre' hloc hbegin hrun hunref with ⟨hleft, hans⟩ | hcut
        · left
          rw [hplain, plain_slotAlloc] at hleft
          have hcheck' : checkCancel (slotAlloc (plain s) q) = (false, slotAlloc (plain s) q) := by
            rw [← plain_slotAlloc]
            rfl
          simp only [demandWith, queryBegin, hcheck', Bool.false_eq_true, if_false, hleft]
          exact hans
        · right
          have hext' : Ext (plain s).toDb (plain (checkCancel (slotAlloc s q)).2).toDb := by
            rw [hplain]
            exact hext
          refine ⟨hcut.toDrift.after hext', hcut.stack.trans ?_, hcut.state⟩
          rw [checkCancel_eq]
          exact hstack

/-- Nested to any depth, a demand is refused, or goes as without the cancel, or
is interrupted. -/
theorem demand_cut (hfam : LawfulAt fam ranks hist) (depth : Nat) :
    PullCut fam ranks hist (demand fam depth) := by
  induction depth with
  | zero =>
      exact ⟨fun _ _ _ _ h => by simp [demand] at h, fun _ _ _ _ h => by simp [demand] at h,
        fun _ _ _ _ h => by simp [demand] at h⟩
  | succ depth ih => exact demandWith_cut hfam (demand_spec hfam depth) (demand_logs fam depth) ih

end Ore.EngineInterrupt
