import Ore.EngineInterrupt
import Ore.EngineIncremental

namespace Ore.EngineStamps

open Tasks EngineModel EngineFacts EngineSteps EngineSound EngineNested EngineDemand EngineRuns EngineDiscipline
open EngineFailures EngineIncremental EngineLog EngineInterrupt

variable {V F : Type} {fam : Family V F} {rank : Query → Nat} {ranks : Nat → Query → Nat} {hist : Nat → Inputs V}
    {s s' : State V F} {q : Query}

/-- The steps that keep the cache right, a cancel among them: as without cancels,
and requests do not nest and demands are made inside them. -/
def CancelOk (fam : Family V F) (s : State V F) : Op V → Prop
  | .edit q v dur => StepOk fam s (.edit q v dur)
  | .sourceEdit q v dur => StepOk fam s (.sourceEdit q v dur)
  | .requestBegin revision => revision = s.current ∧ s.request = 0
  | .requestEnd => True
  | .demand q => FailuresKnown fam s.toDb q ∧ s.request ≠ 0
  | .cancel _ => True

/-- The invariant between two operations: what is still in progress waits for the
sweep at the end of a canceled request. -/
structure Paused (fam : Family V F) (ranks : Nat → Query → Nat) (hist : Nat → Inputs V) (s : State V F) : Prop where
  sound : Sound fam ranks hist (plain s).toDb
  log : LogOk fam ranks hist (plain s).log
  running : ∀ p, (s.slots p).state = .running → p ∈ s.running ∧ s.cancelIn = some 0 ∧ s.request ≠ 0
  stack : s.stack = []
  bounded : s.current < revLimit

namespace Paused

/-- Outside a request, or before the cancel is visible, nothing is in progress. -/
theorem quiet (h : Paused fam ranks hist s) (hidle : s.request = 0 ∨ s.cancelIn ≠ some 0) :
    Quiet fam ranks hist (plain s) := by
  refine ⟨h.sound, h.log, ?_, h.stack, h.bounded⟩
  intro p hp
  obtain ⟨-, hvisible, hrequest⟩ := h.running p hp
  rcases hidle with hr | hc
  · exact hrequest hr
  · exact hc hvisible

theorem of_quiet (h : Quiet fam ranks hist (plain s)) : Paused fam ranks hist s :=
  ⟨h.sound, h.log, fun p hp => absurd hp (h.idle p), h.stack, h.bounded⟩

/-- The sweep empties what a canceled request left in progress. -/
theorem sweep (h : Paused fam ranks hist s) : Quiet fam ranks hist (plain (engineSweepRunning s)) := by
  have hslot (p : Query) : (engineSweepRunning s).slots p = s.slots p ∨ p.kind.isInput = false ∧
      ((engineSweepRunning s).slots p).state = .empty ∧ ((engineSweepRunning s).slots p).deps = [] ∧
      ((engineSweepRunning s).slots p).provisional = (s.slots p).provisional := by
    simp only [engineSweepRunning, sweepSlot]
    split
    · split
      · rename_i hrun
        refine .inr ⟨?_, rfl, rfl, rfl⟩
        by_contra hin
        rcases h.sound.input p (by simpa using hin) with hs | hs
        · exact absurd (hrun.symm.trans hs) (by simp)
        · exact absurd (hrun.symm.trans hs.state) (by simp)
      · exact .inl rfl
    · exact .inl rfl
  have hsound := (EngineRuns.Sound.reset h.sound hslot).anyStack s.stack [] s.tainted
  refine ⟨hsound, h.log, ?_, h.stack, h.bounded⟩
  intro p hp
  have hp : ((engineSweepRunning s).slots p).state = .running := hp
  rcases hslot p with heq | ⟨-, hempty, -⟩
  · rw [heq] at hp
    have hmem := (h.running p hp).1
    have hswept : ((engineSweepRunning s).slots p).state = .empty := by
      simp [engineSweepRunning, sweepSlot, hmem, hp]
    rw [heq, hp] at hswept
    simp at hswept
  · rw [hempty] at hp
    simp at hp

end Paused

theorem logOk_mem (h : LogOk fam ranks hist (plain s).log) {e : Event V F} (he : e ∈ s.log) :
    EventOk fam ranks hist (plainEvent e) := h _ (List.mem_map_of_mem he)

variable [DecidableEq F] [Inhabited V] {depth : Nat}

theorem step_logs {op : Op V} (hstep : step fam depth s op = some s') : s.log <+: s'.log := by
  cases op with
  | edit q v dur | sourceEdit q v dur =>
      simp only [step, Option.ite_none_right_eq_some, Option.some.injEq] at hstep
      obtain ⟨-, rfl⟩ := hstep
      exact List.prefix_refl _
  | requestBegin revision =>
      simp only [step, Option.ite_none_right_eq_some, Option.some.injEq] at hstep
      obtain ⟨-, rfl⟩ := hstep
      exact List.prefix_refl _
  | requestEnd =>
      simp only [step, Option.ite_none_right_eq_some, Option.some.injEq] at hstep
      obtain ⟨-, rfl⟩ := hstep
      unfold engineCompact
      split <;> exact List.prefix_refl _
  | demand q =>
      simp only [step, Option.map_eq_some_iff] at hstep
      obtain ⟨⟨a, t⟩, hdemand, rfl⟩ := hstep
      exact demand_logs fam depth q s a t hdemand
  | cancel checks =>
      simp only [step, Option.some.injEq] at hstep
      subst hstep
      exact List.prefix_refl _

/-- A demand that returns normally, is interrupted or is refused keeps the
invariant. -/
theorem Paused.demand (hfam : LawfulAt fam ranks hist) (h : Paused fam ranks hist s)
    (htidy : Tidy (fun _ => True) s) (hfail : FailuresKnownAt fam ranks hist s.toDb q)
    (hheld : TiersHeldBelow fam ranks hist s.toDb q) (hrequest : s.request ≠ 0) {a : Answer V}
    (hrun : EngineModel.demand fam depth q s = some (a, s')) (hunref : Unrefused s'.log) :
      Paused fam ranks hist s' := by
  obtain ⟨htidy', hpass⟩ := demand_tidy (fun _ _ => .inl trivial) htidy (fun _ _ _ _ => .inl trivial) hrun
  have htracked (p : Query) (hp : (s'.slots p).state = .running) (hvisible : s'.cancelIn = some 0) :
      p ∈ s'.running ∧ s'.cancelIn = some 0 ∧ s'.request ≠ 0 := by
    refine ⟨?_, hvisible, hpass.request ▸ hrequest⟩
    rcases hpass.tracked p id hp with hold | hnew
    · exact hpass.mono p (h.running p hold).1
    · exact hnew
  have hbounded : s'.current < revLimit := hpass.current ▸ h.bounded
  by_cases hvisible : s.cancelIn = some 0
  · obtain rfl := (demand_cut hfam depth).refused q s a s' hrun hvisible
    obtain ⟨hdrift, -⟩ := drift_refused h.sound h.log hvisible q
    exact ⟨hdrift.sound, hdrift.log, fun p hp => htracked p hp hdrift.visible, htidy'.stack, hbounded⟩
  · have hquiet := h.quiet (.inr hvisible)
    have hpre : Pre fam ranks hist (plain s) q := ⟨hquiet.sound, hquiet.log, fun p hp => absurd hp (hquiet.idle p),
      hfail, hheld⟩
    rcases (demand_cut hfam depth).call q s a s' hrun hvisible hpre hunref with hplain | hcut
    · exact .of_quiet (hquiet.demand hfam hfail hheld hplain)
    · exact ⟨hcut.sound, hcut.log, fun p hp => htracked p hp hcut.visible, htidy'.stack, hbounded⟩

theorem step_current {op : Op V} (htidy : Tidy (fun _ => True) s) (hok : CancelOk fam s op)
    (hstep : step fam depth s op = some s') : s'.current = s.current + (edited op).toList.length := by
  cases op with
  | edit q v dur | sourceEdit q v dur =>
      simp only [step, Option.ite_none_right_eq_some, Option.some.injEq] at hstep
      obtain ⟨-, rfl⟩ := hstep
      exact Nat.mod_eq_of_lt hok.2
  | requestBegin revision =>
      simp only [step, Option.ite_none_right_eq_some, Option.some.injEq] at hstep
      obtain ⟨-, rfl⟩ := hstep
      rfl
  | requestEnd =>
      simp only [step, Option.ite_none_right_eq_some, Option.some.injEq] at hstep
      obtain ⟨-, rfl⟩ := hstep
      unfold engineCompact
      split <;> rfl
  | demand q =>
      simp only [step, Option.map_eq_some_iff] at hstep
      obtain ⟨⟨a, t⟩, hrun, rfl⟩ := hstep
      exact (demand_tidy (fun _ _ => .inl trivial) htidy (fun _ _ _ _ => .inl trivial) hrun).2.current
  | cancel checks =>
      simp only [step, Option.some.injEq] at hstep
      subst hstep
      rfl

omit [DecidableEq F] [Inhabited V] in
theorem plain_engineCompact (s : State V F) : plain (engineCompact s) = engineCompact (plain s) := by
  by_cases h : s.current > orphanThreshold
  · have h' : (plain s).current > orphanThreshold := h
    rw [engineCompact, engineCompact, if_pos h, if_pos h']
    rfl
  · have h' : ¬ (plain s).current > orphanThreshold := h
    rw [engineCompact, engineCompact, if_neg h, if_neg h']

theorem step_paused (hfam : LawfulAt fam ranks hist) {op : Op V}
    (htidy : Tidy (fun _ => True) s) (h : Paused fam ranks hist s)
    (hhist : ∀ e, edited op = some e → hist (s.current + 1) = setInput (hist s.current) e)
    (hok : CancelOk fam s op) (htiers : TiersOk fam ranks hist s op) (hstep : step fam depth s op = some s')
    (hunref : Unrefused s'.log) : Paused fam ranks hist s' := by
  -- outside a request the operation acts as if there were no cancel
  have houtside (hrequest : s.request = 0) (hok' : StepOk fam (plain s) op)
      (htiers' : TiersOk fam ranks hist (plain s) op) (hplain : step fam depth (plain s) op = some (plain s')) :
      Paused fam ranks hist s' :=
    .of_quiet (step_quiet hfam (h.quiet (.inl hrequest)) hhist hok' htiers' hplain).1
  cases op with
  | edit q v dur | sourceEdit q v dur =>
      simp only [step, Option.ite_none_right_eq_some, Option.some.injEq] at hstep
      obtain ⟨hcond, rfl⟩ := hstep
      exact houtside hcond.2 hok trivial (if_pos hcond)
  | requestBegin revision =>
      simp only [step, Option.ite_none_right_eq_some, Option.some.injEq] at hstep
      obtain ⟨hcond, rfl⟩ := hstep
      exact houtside hok.2 hok.1 trivial (if_pos hcond)
  | requestEnd =>
      simp only [step, Option.ite_none_right_eq_some, Option.some.injEq] at hstep
      obtain ⟨-, rfl⟩ := hstep
      apply Paused.of_quiet
      rw [plain_engineCompact]
      exact h.sweep.compact
  | demand q =>
      simp only [step, Option.map_eq_some_iff] at hstep
      obtain ⟨⟨a, t⟩, hrun, rfl⟩ := hstep
      exact h.demand hfam htidy (hok.1.at ranks hist) htiers hok.2 hrun hunref
  | cancel checks =>
      simp only [step, Option.some.injEq] at hstep
      subst hstep
      refine ⟨h.sound, h.log, ?_, h.stack, h.bounded⟩
      intro p hp
      obtain ⟨hmem, hvisible, hrequest⟩ := h.running p hp
      exact ⟨hmem, by simp [hvisible], hrequest⟩

/-- The invariant holds along every run whose walks are never refused. -/
theorem reached_paused {ops : List (Op V)} (hfam : LawfulAt fam ranks (history ops))
    (hkept : AllSteps (TiersOk fam ranks (history ops)) fam depth ops (initial V F))
    (hok : AllSteps (CancelOk fam) fam depth ops (initial V F))
    (hrun : EngineModel.run fam depth ops (initial V F) = some s) (hunref : Unrefused s.log) :
    Paused fam ranks (history ops) s := by
  have hnil : [] ++ ops ++ [] = ops := by simp
  have hinitial : Paused fam ranks (history ops) (initial V F) := .of_quiet (s := initial V F) (initial_quiet rfl)
  have hreached := run_history (fun s op => CancelOk fam s op ∧ TiersOk fam ranks (history ops) s op)
    (fun s => Tidy (fun _ => True) s ∧ (Unrefused s.log → Paused fam ranks (history ops) s)) [] [] ?_
    ⟨initial_tidy, fun _ => hinitial⟩ rfl (hok.and hkept) hrun
  · exact hreached.1.2 hunref
  · rw [hnil]
    intro s op s' hinv hok hstep hhist
    refine ⟨⟨run_keepsTidy hinv.1 (run_cons.mpr ⟨s', hstep, run_nil.mpr rfl⟩), fun hunref => ?_⟩,
      step_current hinv.1 hok.1 hstep⟩
    exact step_paused hfam hinv.1 (hinv.2 (hunref.mono (step_logs hstep))) hhist hok.1 hok.2 hstep hunref

/-- Whenever a walk finds a dep unmoved, the dep is an input or settled at the
current revision, and whenever the engine answers from a DONE slot, the stored
result is the result from scratch: in every run, with cancels that become visible
anywhere but where a walk pulls a dep. -/
theorem cancel_validates_current (hfam : Lawful fam rank) {ops : List (Op V)}
    (hkept : AllSteps (TiersOk fam (fun _ => rank) (history ops)) fam depth ops (initial V F))
    (hok : AllSteps (CancelOk fam) fam depth ops (initial V F))
    (hrun : EngineModel.run fam depth ops (initial V F) = some s) (hunref : Unrefused s.log) :
    (∀ dep before after, .compared dep before after ∈ s.log → (after.slots dep.query).state = .done →
      (after.slots dep.query).fingerprint = dep.fp → dep.query.kind.isInput = true ∨ Fresh after dep.query) ∧
    ∀ q db, .answered q .cached db ∈ s.log → (db.slots q).state = .done →
      (system fam).eval rank db.columns q = .ok (db.columns q) := by
  have hlog := (reached_paused (hfam.at _) hkept hok hrun hunref).log
  refine ⟨?_, ?_⟩
  · intro dep before after hmem hdone hfp
    exact logOk_mem hlog hmem hdone hfp
  · intro q db hmem hdone
    obtain ⟨hsound, hfresh⟩ := logOk_mem hlog hmem
    have hsame := fresh_from_scratch hsound hfresh hdone
    exact hsame

theorem compared_of_run (fam : Family V F) (depth : Nat) (ops : List (Op V)) (s : State V F)
    (test : Dep F → Db V F → Bool)
    (h : ((EngineModel.run fam depth ops s).map fun s' => s'.log.any fun e => match e with
      | .compared dep _ after => test dep after
      | _ => false) = some true) :
    ∃ s', EngineModel.run fam depth ops s = some s' ∧ ∃ dep before after, .compared dep before after ∈ s'.log ∧
      test dep after = true := by
  obtain ⟨s', hrun, e, he, htest⟩ := logged_of_run fam depth ops s _ h
  cases e with
  | compared dep before after => exact ⟨s', hrun, dep, before, after, he, htest⟩
  | answered q r db | skipped q db | finished q deps consumed => simp at htest

def refusedOps : List (Op Nat) :=
  [.edit ⟨.sourceText, 1⟩ 7 .low, .requestBegin 2, .demand ⟨.lineIndex, 1⟩, .requestEnd,
    .edit ⟨.sourceText, 1⟩ 8 .low, .requestBegin 3, .cancel 1, .demand ⟨.lineIndex, 1⟩, .requestEnd,
    .requestBegin 3, .demand ⟨.lineIndex, 1⟩]

/-- The refused parse passes for unmoved, and the index is served stale. -/
theorem cancel_validates_stale : Lawful chain kindRank ∧ ∃ s,
    EngineModel.run chain 4 refusedOps (initial Nat Nat) = some s ∧
    (∃ dep before after, .compared dep before after ∈ s.log ∧ (after.slots dep.query).state = .done ∧
      (after.slots dep.query).fingerprint = dep.fp ∧ dep.query.kind.isInput = false ∧
      (after.slots dep.query).verifiedRev < after.current) ∧
    ∃ db, .answered ⟨.lineIndex, 1⟩ .cached db ∈ s.log ∧ (db.slots ⟨.lineIndex, 1⟩).state = .done ∧
      (system chain).eval kindRank db.columns ⟨.lineIndex, 1⟩ ≠ .ok (db.columns ⟨.lineIndex, 1⟩) := by
  obtain ⟨s, hrun, dep, before, after, hcompared, hstale⟩ := compared_of_run chain 4 refusedOps (initial Nat Nat)
    (fun dep after => decide ((after.slots dep.query).state = .done ∧ (after.slots dep.query).fingerprint = dep.fp ∧
      dep.query.kind.isInput = false ∧ (after.slots dep.query).verifiedRev < after.current)) (by decide +kernel)
  obtain ⟨s', hrun', db, hmem, hdone, htest⟩ := served_of_run chain 4 refusedOps (initial Nat Nat) ⟨.lineIndex, 1⟩
    (fun db => decide ((system chain).eval kindRank db.columns ⟨.lineIndex, 1⟩ ≠ .ok (db.columns ⟨.lineIndex, 1⟩)))
    (by decide +kernel)
  obtain rfl : s = s' := Option.some.inj (hrun.symm.trans hrun')
  exact ⟨chain_lawful, s, hrun, ⟨dep, before, after, hcompared, of_decide_eq_true hstale⟩, db, hmem, hdone,
    of_decide_eq_true htest⟩

/-- The same, canceled while the parse is computed anew. -/
def interruptedOps : List (Op Nat) :=
  [.edit ⟨.sourceText, 1⟩ 7 .low, .requestBegin 2, .demand ⟨.lineIndex, 1⟩, .requestEnd,
    .edit ⟨.sourceText, 1⟩ 8 .low, .requestBegin 3, .cancel 3, .demand ⟨.lineIndex, 1⟩, .requestEnd,
    .requestBegin 3, .demand ⟨.lineIndex, 1⟩, .demand ⟨.lineIndex, 1⟩]

def cancelCheck (s : State V F) : Op V → Bool
  | .requestBegin revision => revision == s.current && s.request == 0
  | .requestEnd | .cancel _ => true
  | .demand _ => s.request != 0
  | op => stepCheck s op

omit [DecidableEq F] [Inhabited V] in
theorem cancelOk_of_check (hfail : ∀ q, ¬ CanFail (fam.body q)) (s : State V F) (op : Op V)
    (h : cancelCheck s op = true) : CancelOk fam s op := by
  cases op with
  | edit q v dur => exact stepOk_of_check hfail s (.edit q v dur) h
  | sourceEdit q v dur => exact stepOk_of_check hfail s (.sourceEdit q v dur) h
  | requestBegin revision =>
      simp only [cancelCheck, Bool.and_eq_true, beq_iff_eq] at h
      exact h
  | requestEnd | cancel checks => trivial
  | demand q =>
      simp only [cancelCheck, bne_iff_ne] at h
      exact ⟨fun c _ _ hc => absurd hc (hfail c), h⟩

def refusals (log : List (Event V F)) : Bool :=
  log.any fun e => match e with
    | .compared dep before _ => !dep.query.kind.isInput && before.cancelIn == some 0
    | _ => false

omit [DecidableEq F] [Inhabited V] in
theorem unrefused_of_check {log : List (Event V F)} (h : refusals log = false) : Unrefused log := by
  intro dep before after hmem
  have hevent := List.any_eq_false.mp h _ hmem
  simp only [Bool.and_eq_true, Bool.not_eq_eq_eq_not, Bool.not_true, beq_iff_eq, not_and] at hevent
  by_cases hin : dep.query.kind.isInput = true
  · exact .inl hin
  · exact .inr (hevent (by simpa using hin))

theorem cancel_validates_current_interrupted : ∃ s db,
    EngineModel.run chain 4 interruptedOps (initial Nat Nat) = some s ∧
    .answered ⟨.lineIndex, 1⟩ .cached db ∈ s.log ∧ db.columns ⟨.lineIndex, 1⟩ = 8 ∧
    (system chain).eval kindRank db.columns ⟨.lineIndex, 1⟩ = .ok (db.columns ⟨.lineIndex, 1⟩) := by
  have hkept : AllSteps (TiersOk chain (fun _ => kindRank) (history interruptedOps)) chain 4 interruptedOps
      (initial Nat Nat) :=
    tiersOk_of_static chain_static chain_lawful ⟨by decide, by decide, trivial⟩
  have hsteps : AllSteps (CancelOk chain) chain 4 interruptedOps (initial Nat Nat) :=
    allSteps_of_check (cancelOk_of_check chain_succeeds) (by decide +kernel)
  obtain ⟨s, hrun, hcheck⟩ := found_of_run chain 4 interruptedOps (initial Nat Nat) (fun s => !refusals s.log)
    (by decide +kernel)
  obtain ⟨s', hrun', db, hmem, hdone, htest⟩ := served_of_run chain 4 interruptedOps (initial Nat Nat) ⟨.lineIndex, 1⟩
    (fun db => db.columns ⟨.lineIndex, 1⟩ == 8) (by decide +kernel)
  obtain rfl : s = s' := Option.some.inj (hrun.symm.trans hrun')
  have hunref : Unrefused s.log := unrefused_of_check (by simpa using hcheck)
  exact ⟨s, db, hrun, hmem, beq_iff_eq.mp htest,
    (cancel_validates_current chain_lawful hkept hsteps hrun hunref).2 _ db hmem hdone⟩

end Ore.EngineStamps
