import Ore.EngineRuns
import Ore.EngineFailures

namespace Ore.EngineIncremental

open Tasks EngineModel EngineFacts EngineSteps EngineSound EngineNested EngineDemand EngineRuns EngineDiscipline
open EngineRecording EngineFailures

variable {V F : Type}

def fingerprintWalk [DecidableEq F] (pull : Pull V F) : List (Dep F) → State V F → Option (Bool × State V F)
  | [], s => some (true, s)
  | dep :: rest, s =>
      match recomputeDispatch pull dep.query s with
      | none => none
      | some s => if (s.slots dep.query).fingerprint = dep.fp then fingerprintWalk pull rest s else some (false, s)

variable {fam : Family V F} {rank : Query → Nat} {ranks : Nat → Query → Nat} {hist : Nat → Inputs V}
    {s s' : State V F} {q : Query}

theorem eval_columns {db : Db V F} (h : Sound fam ranks hist db) (q : Query) :
    (system fam).eval (ranks db.current) db.columns q = evalAt fam ranks hist db.current q :=
  System.eval_inputs _ h.content q

/-- A query settled at the current revision holds the result from scratch. -/
theorem fresh_from_scratch {db : Db V F} (h : Sound fam ranks hist db) (hfresh : Fresh db q)
    (hdone : (db.slots q).state = .done) : (system fam).eval (ranks db.current) db.columns q = .ok (db.columns q) := by
  have heval := (fresh_slot (s := ⟨db, []⟩) h hfresh).1
  rw [eval_columns h, heval, outcome, hdone]
  rfl

/-- A query settled at the current revision has current fingerprints for its
children. -/
theorem fresh_deps {db : Db V F} (h : Sound fam ranks hist db) (hfresh : Fresh db q) :
    ∀ d ∈ (db.slots q).deps, d.fp = fpOf fam d.query ((system fam).eval (ranks db.current) db.columns d.query) := by
  intro d hd
  by_cases hin : q.kind.isInput = true
  · obtain hempty | hslot := h.input q hin
    · rcases hfresh.1 with hs | hs <;> simp [hs] at hempty
    · simp [hslot.deps] at hd
  · obtain ⟨-, hmemo⟩ := h.memo q (by simpa using hin) hfresh.1
    rw [eval_columns h, hmemo.fps d hd, hfresh.2]

variable [DecidableEq F] {pull : Pull V F}

/-- Pulling queries whose recorded fingerprints are those of the current
results finds no fingerprint moved. -/
theorem fingerprintWalk_unmoved (hpull : PullSpec fam ranks hist pull)
    (hkeep : PullKept fam (fun _ => True) (fun _ => True) pull) (hfam : LawfulAt fam ranks hist) {deps : List (Dep F)}
    (hreads : ∀ d ∈ deps, ReadsOf fam ranks hist s.current q d.query ∧ d.query ≠ q)
    (hfps : ∀ d ∈ deps, d.fp = fpOf fam d.query (evalAt fam ranks hist s.current d.query))
    (hsound : Sound fam ranks hist s.toDb) (hlog : LogOk fam ranks hist s.log)
    (hkept : Kept (fun _ => True) (fun _ => True) s)
    (hrunning : ∀ p, (s.slots p).state = .running → ranks s.current q ≤ ranks s.current p)
    (hfail : FailuresKnownAt fam ranks hist s.toDb q) (htiers : TiersHeldBelow fam ranks hist s.toDb q)
    (hset : ∀ d ∈ deps, d.query.kind.isInput = true → (s.slots d.query).state = .done) {b : Bool}
    (hwalk : fingerprintWalk pull deps s = some (b, s')) : b = true := by
  induction deps generalizing s with
  | nil =>
      simp only [fingerprintWalk, Option.some.injEq, Prod.mk.injEq] at hwalk
      exact hwalk.1.symm
  | cons dep rest ih =>
      obtain ⟨hread, hne⟩ := hreads dep (List.mem_cons_self ..)
      have hfp := hfps dep (List.mem_cons_self ..)
      have htail {d : Dep F} (hd : d ∈ rest) : d ∈ dep :: rest := List.mem_cons_of_mem _ hd
      unfold fingerprintWalk at hwalk
      cases hdisp : recomputeDispatch pull dep.query s with
      | none => simp [hdisp] at hwalk
      | some t =>
          simp only [hdisp] at hwalk
          unfold recomputeDispatch at hdisp
          split at hdisp
          · rename_i hin
            obtain rfl : s = t := by simpa using hdisp
            have hslot := (hsound.input dep.query hin).resolve_left (by simp [hset dep (List.mem_cons_self ..) hin])
            have heq : (s.slots dep.query).fingerprint = dep.fp := by
              rw [hfp, evalAt, System.eval_input (system fam) hin, hslot.fp, hsound.content _ hin]
              rfl
            rw [if_pos heq] at hwalk
            exact ih (fun d hd => hreads d (htail hd)) (fun d hd => hfps d (htail hd)) hsound hlog hkept hrunning hfail
              htiers (fun d hd => hset d (htail hd)) hwalk
          · simp only [Option.map_eq_some_iff] at hdisp
            obtain ⟨⟨a, u⟩, hcall', rfl⟩ := hdisp
            have hpost := hpull.call _ _ _ _ hcall' ⟨hsound, hlog,
              fun p hp => Nat.lt_of_lt_of_le (rank_of_reads hfam hread hne) (hrunning p hp), hfail.child hfam hread hne,
              htiers.child hread⟩
            have hans := hkeep _ _ _ _ hcall' hkept trivial fun _ _ _ => .inl trivial
            have heq : (u.slots dep.query).fingerprint = dep.fp := by
              rw [(fresh_slot hpost.sound hpost.fresh).2.1, hfp, hpost.ext.current]
            simp only [heq, if_true] at hwalk
            refine ih (s := u) ?_ ?_ hpost.sound hpost.log hans.kept ?_ (hfail.ext hpost.ext) (htiers.ext hpost.ext)
              ?_ hwalk
            · intro d hd
              rw [hpost.ext.current]
              exact hreads d (htail hd)
            · intro d hd
              rw [hpost.ext.current]
              exact hfps d (htail hd)
            · intro p hp
              rw [hpost.ext.current]
              exact hrunning p (hpost.ext.noNew p hp)
            · intro d hd hin
              exact hans.passes.inputs _ (fun hx => hx) hin (hset d (htail hd) hin)

def chain : Family Nat Nat where
  body q := match q.kind with
    | .fileAst => .demand ⟨.sourceText, q.key⟩ .ret
    | .lineIndex => .demand ⟨.fileAst, q.key⟩ .ret
    | _ => .ret 0
  bottom _ := 0
  onError _ := 0
  fingerprint _ v := some v

/-- The same, but a first source tells which of two others is parsed. -/
def selecting : Family Nat Nat where
  body q := match q.kind with
    | .fileAst => .demand ⟨.sourceText, 1⟩ fun x => .demand ⟨.sourceText, if x = 0 then 2 else 3⟩ .ret
    | .lineIndex => .demand ⟨.fileAst, q.key⟩ .ret
    | _ => .ret 0
  bottom _ := 0
  onError _ := 0
  fingerprint _ v := some v

def kindRank (q : Query) : Nat :=
  match q.kind with
  | .lineIndex => 2
  | .fileAst => 1
  | _ => 0

theorem chain_lawful : Lawful chain kindRank := by
  have hlt (q c : Query) (h : Demands (chain.body q) c) : kindRank c < kindRank q := by
    cases hk : q.kind <;> simp_all [chain, kindRank]
  refine ⟨fun q c _ h => .inr (hlt q c h), fun q h => absurd (hlt q q h.2) (Nat.lt_irrefl _), ?_, ?_⟩
  · intro q v w h
    simpa [chain] using h
  · intro q _ v
    simp [chain]

theorem selecting_lawful : Lawful selecting kindRank := by
  have hlt (q c : Query) (h : Demands (selecting.body q) c) : kindRank c < kindRank q := by
    cases hk : q.kind <;> simp_all [selecting, kindRank]
    rcases h with rfl | ⟨v, rfl⟩ <;> simp
  refine ⟨fun q c _ h => .inr (hlt q c h), fun q h => absurd (hlt q q h.2) (Nat.lt_irrefl _), ?_, ?_⟩
  · intro q v w h
    simpa [selecting] using h
  · intro q _ v
    simp [selecting]

theorem chain_static : StaticReads chain := by
  intro q ask ask'
  cases hk : q.kind <;> simp [chain, hk, reads]

theorem chain_succeeds (q : Query) : ¬ CanFail (chain.body q) := by
  cases hk : q.kind <;> simp [chain, hk]

/-- A library source is parsed and indexed; then a workspace source changes. -/
def chainOps : List (Op Nat) :=
  [.edit ⟨.sourceText, 1⟩ 7 .high, .requestBegin 2, .demand ⟨.lineIndex, 1⟩, .requestEnd,
    .edit ⟨.sourceText, 2⟩ 5 .low, .requestBegin 3, .demand ⟨.lineIndex, 1⟩]

theorem chain_kept : AllSteps (TiersOk chain (fun _ => kindRank) (history chainOps)) chain 4 chainOps
    (initial Nat Nat) :=
  tiersOk_of_static chain_static chain_lawful ⟨by decide, by decide, trivial⟩

/-- What the evaluation of `chainOps` shows: the index is served, skipped and
finished over the parse. -/
theorem chainOps_checks :
    checkSteps stepCheck chain 4 chainOps (initial Nat Nat) = true ∧
    ((EngineModel.run chain 4 chainOps (initial Nat Nat)).map fun s =>
      s.log.any (servedWith ⟨.lineIndex, 1⟩ fun _ => true)) = some true ∧
    ((EngineModel.run chain 4 chainOps (initial Nat Nat)).map fun s =>
      s.log.any (skippedWith ⟨.lineIndex, 1⟩ fun db =>
        (fingerprintWalk (demand chain 4) (db.slots ⟨.lineIndex, 1⟩).deps ⟨db, []⟩).isSome)) = some true ∧
    ((EngineModel.run chain 4 chainOps (initial Nat Nat)).map fun s =>
      s.log.any (finishedWith ⟨.lineIndex, 1⟩ fun _ consumed =>
        decide (((⟨.fileAst, 1⟩ : Query), AnswerKind.succeeded) ∈ consumed))) = some true := by
  decide +kernel

theorem chain_steps : AllSteps (StepOk chain) chain 4 chainOps (initial Nat Nat) :=
  allSteps_of_check (stepOk_of_check chain_succeeds) chainOps_checks.1

/-- The parse moves from a library source to a workspace source with the same
content, which is then edited. -/
def selectingOps : List (Op Nat) :=
  [.edit ⟨.sourceText, 1⟩ 0 .high, .edit ⟨.sourceText, 2⟩ 7 .high, .edit ⟨.sourceText, 3⟩ 7 .low,
    .requestBegin 4, .demand ⟨.lineIndex, 1⟩, .requestEnd,
    .edit ⟨.sourceText, 1⟩ 1 .high, .requestBegin 5, .demand ⟨.lineIndex, 1⟩, .requestEnd,
    .edit ⟨.sourceText, 3⟩ 8 .low, .requestBegin 6, .demand ⟨.lineIndex, 1⟩]

theorem selectingOps_checks :
    ((EngineModel.run selecting 4 selectingOps (initial Nat Nat)).map fun s =>
      s.log.any (servedWith ⟨.lineIndex, 1⟩ fun db => decide
        ((system selecting).eval kindRank db.columns ⟨.lineIndex, 1⟩ ≠ .ok (db.columns ⟨.lineIndex, 1⟩)))) = some true ∧
    ((EngineModel.run selecting 4 selectingOps (initial Nat Nat)).map fun s =>
      s.log.any (skippedWith ⟨.lineIndex, 1⟩ fun db => (fingerprintWalk (demand selecting 4)
        (db.slots ⟨.lineIndex, 1⟩).deps ⟨db, []⟩).map (·.1) == some false)) = some true := by
  decide +kernel

variable [Inhabited V] {depth : Nat} {ops : List (Op V)}

section Runs

variable (hfam : Lawful fam rank)
  (hkept : AllSteps (TiersOk fam (fun _ => rank) (history ops)) fam depth ops (initial V F))
  (hok : AllSteps (StepOk fam) fam depth ops (initial V F))
    (hrun : EngineModel.run fam depth ops (initial V F) = some s)

include hfam hkept hok hrun

/-- Incremental soundness: whenever the engine answers from a DONE slot, the
stored result is the result of computing the query from scratch on the inputs
as they are. -/
theorem cached_from_scratch (q : Query) (db : Db V F) (hmem : .answered q .cached db ∈ s.log)
    (hdone : (db.slots q).state = .done) : (system fam).eval rank db.columns q = .ok (db.columns q) := by
  obtain ⟨hsound, hfresh⟩ := (reached_quiet (hfam.at _) hkept hok hrun).log _ hmem
  exact fresh_from_scratch hsound hfresh hdone

/-- Whenever a slot is accepted by its durability alone, the recorded
fingerprints are those of the results from scratch, and a walk over the deps
that pulls each of them finds none moved. -/
theorem skip_agrees_with_walk (q : Query) (db : Db V F) (hmem : .skipped q db ∈ s.log) :
    (∀ d ∈ (db.slots q).deps, d.fp = fpOf fam d.query ((system fam).eval rank db.columns d.query)) ∧
      ∀ nested b t, fingerprintWalk (demand fam nested) (db.slots q).deps ⟨db, []⟩ = some (b, t) → b = true := by
  rcases (reached_quiet (hfam.at _) hkept hok hrun).log _ hmem with hdeps | ⟨hsound, hrunning, hfail, htiers, hrec⟩
  · simp [hdeps, fingerprintWalk]
  · refine ⟨fun d hd => ?_, fun nested b t hwalk => ?_⟩
    · rw [eval_columns hsound]
      exact (hrec d hd).2.2
    · rcases (run_tidy hrun).kept.log _ hmem with hdeps | hdb
      · simp only [hdeps, fingerprintWalk, Option.some.injEq, Prod.mk.injEq] at hwalk
        exact hwalk.1.symm
      · refine fingerprintWalk_unmoved (s := ⟨db, []⟩) (demand_spec (hfam.at _) nested)
          (demand_kept (fun _ _ => .inl trivial) (fun _ _ _ _ => trivial) nested) (hfam.at _)
          (fun d hd => ⟨(hrec d hd).1, (hrec d hd).2.1⟩) (fun d hd => (hrec d hd).2.2) hsound (by simp [LogOk])
          ⟨hdb, by simp⟩ hrunning hfail htiers ?_ hwalk
        exact (hdb.slots q).buffer.inputs

end Runs

/-- The index stays at the tier of the library source, and is served stale. -/
theorem cached_stale : Lawful selecting kindRank ∧ ∃ s, EngineModel.run selecting 4 selectingOps (initial Nat Nat) =
    some s ∧
    ∃ db, .answered ⟨.lineIndex, 1⟩ .cached db ∈ s.log ∧ (db.slots ⟨.lineIndex, 1⟩).state = .done ∧
      (system selecting).eval kindRank db.columns ⟨.lineIndex, 1⟩ ≠ .ok (db.columns ⟨.lineIndex, 1⟩) := by
  obtain ⟨s, hrun, db, hmem, hdone, htest⟩ := served_of_run selecting 4 selectingOps (initial Nat Nat) ⟨.lineIndex, 1⟩
    (fun db => decide ((system selecting).eval kindRank db.columns ⟨.lineIndex, 1⟩ ≠ .ok (db.columns ⟨.lineIndex, 1⟩)))
    selectingOps_checks.1
  exact ⟨selecting_lawful, s, hrun, db, hmem, hdone, of_decide_eq_true htest⟩

theorem cached_from_scratch_chain : ∃ s db, EngineModel.run chain 4 chainOps (initial Nat Nat) = some s ∧
    .answered ⟨.lineIndex, 1⟩ .cached db ∈ s.log ∧
    (system chain).eval kindRank db.columns ⟨.lineIndex, 1⟩ = .ok (db.columns ⟨.lineIndex, 1⟩) := by
  obtain ⟨s, hrun, db, hmem, hdone, -⟩ := served_of_run chain 4 chainOps (initial Nat Nat) ⟨.lineIndex, 1⟩
    (fun _ => true) chainOps_checks.2.1
  exact ⟨s, db, hrun, hmem, cached_from_scratch chain_lawful chain_kept chain_steps hrun _ db hmem hdone⟩

/-- The durability path accepts the index although the walk finds its dep
moved. -/
theorem skip_disagrees : ∃ s, EngineModel.run selecting 4 selectingOps (initial Nat Nat) = some s ∧
    ∃ db, .skipped ⟨.lineIndex, 1⟩ db ∈ s.log ∧
      ((fingerprintWalk (demand selecting 4) (db.slots ⟨.lineIndex, 1⟩).deps ⟨db, []⟩).map (·.1)) = some false := by
  obtain ⟨s, hrun, db, hmem, htest⟩ := skipped_of_run selecting 4 selectingOps (initial Nat Nat) ⟨.lineIndex, 1⟩
    (fun db => (fingerprintWalk (demand selecting 4) (db.slots ⟨.lineIndex, 1⟩).deps ⟨db, []⟩).map (·.1) == some false)
    selectingOps_checks.2
  exact ⟨s, hrun, db, hmem, beq_iff_eq.mp htest⟩

theorem skip_agrees_with_walk_chain : ∃ s db, EngineModel.run chain 4 chainOps (initial Nat Nat) = some s ∧
    .skipped ⟨.lineIndex, 1⟩ db ∈ s.log ∧
    (∃ t, fingerprintWalk (demand chain 4) (db.slots ⟨.lineIndex, 1⟩).deps ⟨db, []⟩ = some (true, t)) := by
  obtain ⟨s, hrun, db, hmem, htest⟩ := skipped_of_run chain 4 chainOps (initial Nat Nat) ⟨.lineIndex, 1⟩
    (fun db => (fingerprintWalk (demand chain 4) (db.slots ⟨.lineIndex, 1⟩).deps ⟨db, []⟩).isSome)
    chainOps_checks.2.2.1
  obtain ⟨⟨b, t⟩, hwalk⟩ := Option.isSome_iff_exists.mp htest
  have hagree := (skip_agrees_with_walk chain_lawful chain_kept chain_steps hrun _ db hmem).2 4 b t hwalk
  exact ⟨s, db, hrun, hmem, t, hagree ▸ hwalk⟩

/-- Two runs that see the same inputs agree on what they serve and on what they
have settled, in whatever order they demanded it. -/
theorem stored_order_independent {ops' : List (Op V)} {depth' : Nat} (hfam : Lawful fam rank)
    (hkept : AllSteps (TiersOk fam (fun _ => rank) (history ops)) fam depth ops (initial V F))
    (hok : AllSteps (StepOk fam) fam depth ops (initial V F))
    (hrun : EngineModel.run fam depth ops (initial V F) = some s)
    (hkept' : AllSteps (TiersOk fam (fun _ => rank) (history ops')) fam depth' ops' (initial V F))
    (hok' : AllSteps (StepOk fam) fam depth' ops' (initial V F))
    (hrun' : EngineModel.run fam depth' ops' (initial V F) = some s') :
    (∀ q db db', .answered q .cached db ∈ s.log → .answered q .cached db' ∈ s'.log →
      (db.slots q).state = .done → (db'.slots q).state = .done →
      (∀ i, i.kind.isInput = true → db.columns i = db'.columns i) → db.columns q = db'.columns q) ∧
    ∀ q, (s.slots q).state = .done → (s.slots q).verifiedRev = s.current → (s'.slots q).state = .done →
      (s'.slots q).verifiedRev = s'.current → (∀ i, i.kind.isInput = true → s.columns i = s'.columns i) →
      s.columns q = s'.columns q := by
  have hquiet := reached_quiet (hfam.at _) hkept hok hrun
  have hquiet' := reached_quiet (hfam.at _) hkept' hok' hrun'
  refine ⟨?_, ?_⟩
  · intro q db db' hmem hmem' hdone hdone' hinputs
    obtain ⟨hsound, hfresh⟩ := hquiet.log _ hmem
    obtain ⟨hsound', hfresh'⟩ := hquiet'.log _ hmem'
    have heval := fresh_from_scratch hsound hfresh hdone
    have heval' := fresh_from_scratch hsound' hfresh' hdone'
    rw [System.eval_inputs (system fam) hinputs, heval'] at heval
    exact (Outcome.ok.inj heval).symm
  · intro q hdone hrev hdone' hrev' hinputs
    have heval := fresh_from_scratch hquiet.sound ⟨.inl hdone, hrev⟩ hdone
    have heval' := fresh_from_scratch hquiet'.sound ⟨.inl hdone', hrev'⟩ hdone'
    rw [System.eval_inputs (system fam) hinputs, heval'] at heval
    exact (Outcome.ok.inj heval).symm

def twoCycle : Family Nat Nat where
  body q := match q.kind with
    | .fileAst => .demand ⟨.lineIndex, q.key⟩ fun x => .ret (x + 1)
    | .lineIndex => .demand ⟨.fileAst, q.key⟩ fun x => .ret (x + 1)
    | _ => .ret 0
  bottom _ := 0
  onError _ := 0
  fingerprint _ v := some v

theorem twoCycle_checks :
    ((EngineModel.run twoCycle 4 [.requestBegin 1, .demand ⟨.fileAst, 1⟩, .demand ⟨.lineIndex, 1⟩]
      (initial Nat Nat)).map fun s =>
        s.log.any (servedWith ⟨.lineIndex, 1⟩ fun db => db.columns ⟨.lineIndex, 1⟩ == 1)) = some true ∧
    ((EngineModel.run twoCycle 4 [.requestBegin 1, .demand ⟨.lineIndex, 1⟩, .demand ⟨.lineIndex, 1⟩]
      (initial Nat Nat)).map fun s =>
        s.log.any (servedWith ⟨.lineIndex, 1⟩ fun db => db.columns ⟨.lineIndex, 1⟩ == 2)) = some true := by
  decide +kernel

/-- What is stored for a member of the cycle depends on who was demanded first. -/
theorem stored_order_dependent :
    (∃ s, EngineModel.run twoCycle 4 [.requestBegin 1, .demand ⟨.fileAst, 1⟩, .demand ⟨.lineIndex, 1⟩]
      (initial Nat Nat) = some s ∧
      ∃ db, .answered ⟨.lineIndex, 1⟩ .cached db ∈ s.log ∧ (db.slots ⟨.lineIndex, 1⟩).state = .done ∧
        db.columns ⟨.lineIndex, 1⟩ = 1) ∧
    (∃ s, EngineModel.run twoCycle 4 [.requestBegin 1, .demand ⟨.lineIndex, 1⟩, .demand ⟨.lineIndex, 1⟩]
      (initial Nat Nat) = some s ∧
      ∃ db, .answered ⟨.lineIndex, 1⟩ .cached db ∈ s.log ∧ (db.slots ⟨.lineIndex, 1⟩).state = .done ∧
        db.columns ⟨.lineIndex, 1⟩ = 2) := by
  refine ⟨?_, ?_⟩
  · obtain ⟨s, hrun, db, hmem, hdone, htest⟩ := served_of_run twoCycle 4
      [.requestBegin 1, .demand ⟨.fileAst, 1⟩, .demand ⟨.lineIndex, 1⟩] (initial Nat Nat) ⟨.lineIndex, 1⟩
      (fun db => db.columns ⟨.lineIndex, 1⟩ == 1) twoCycle_checks.1
    exact ⟨s, hrun, db, hmem, hdone, beq_iff_eq.mp htest⟩
  · obtain ⟨s, hrun, db, hmem, hdone, htest⟩ := served_of_run twoCycle 4
      [.requestBegin 1, .demand ⟨.lineIndex, 1⟩, .demand ⟨.lineIndex, 1⟩] (initial Nat Nat) ⟨.lineIndex, 1⟩
      (fun db => db.columns ⟨.lineIndex, 1⟩ == 2) twoCycle_checks.2
    exact ⟨s, hrun, db, hmem, hdone, beq_iff_eq.mp htest⟩

def recursive : Family Nat Nat where
  body q := match q.kind with
    | .fileAst => .demand ⟨.sourceText, q.key⟩ .ret
    | .typeOfDecl => .demand q fun own => .demand ⟨.fileAst, q.key⟩ fun parsed => .ret (own + parsed)
    | _ => .ret 0
  bottom _ := 3
  onError _ := 0
  fingerprint _ v := some v

def typeRank (q : Query) : Nat :=
  match q.kind with
  | .typeOfDecl => 2
  | .fileAst => 1
  | _ => 0

theorem recursive_demands {q c : Query} (h : Demands (recursive.body q) c) :
    c = q ∧ q.kind = .typeOfDecl ∨ typeRank c < typeRank q := by
  cases hk : q.kind <;> simp_all [recursive, typeRank]
  rcases h with h | ⟨v, rfl⟩
  · exact .inl h
  · exact .inr (by simp)

theorem recursive_lawful : Lawful recursive typeRank := by
  refine ⟨fun q c _ h => (recursive_demands h).imp_left And.left, fun q h => ?_, ?_, ?_⟩
  · rcases recursive_demands h.2 with ⟨-, hk⟩ | hlt
    · rw [hk]
      rfl
    · exact absurd hlt (Nat.lt_irrefl _)
  · intro q v w h
    simpa [recursive] using h
  · intro q _ v
    simp [recursive]

theorem recursive_static : StaticReads recursive := by
  intro q ask ask'
  cases hk : q.kind <;> simp [recursive, hk, reads]

theorem recursive_succeeds (q : Query) : ¬ CanFail (recursive.body q) := by
  cases hk : q.kind <;> simp [recursive, hk]

def typeOps : List (Op Nat) :=
  [.edit ⟨.sourceText, 1⟩ 7 .high, .requestBegin 2, .demand ⟨.typeOfDecl, 1⟩, .requestEnd,
    .edit ⟨.sourceText, 2⟩ 5 .low, .requestBegin 3, .demand ⟨.typeOfDecl, 1⟩]

def parseFirstOps : List (Op Nat) :=
  [.edit ⟨.sourceText, 1⟩ 7 .high, .edit ⟨.sourceText, 2⟩ 5 .low, .requestBegin 3, .demand ⟨.fileAst, 1⟩,
    .demand ⟨.typeOfDecl, 1⟩]

def cycledAt (q : Query) : Event Nat Nat → Bool
  | .answered p .cycle _ => p == q
  | _ => false

def typeSettled (s : State Nat Nat) : Bool :=
  s.log.any (cycledAt ⟨.typeOfDecl, 1⟩) && decide ((s.slots ⟨.typeOfDecl, 1⟩).state = .done ∧
    (s.slots ⟨.typeOfDecl, 1⟩).verifiedRev = 3 ∧ s.current = 3 ∧ s.columns ⟨.typeOfDecl, 1⟩ = 10)

theorem typeOps_checks :
    checkSteps stepCheck recursive 4 typeOps (initial Nat Nat) = true ∧
      (EngineModel.run recursive 4 typeOps (initial Nat Nat)).map typeSettled = some true ∧
    checkSteps stepCheck recursive 4 parseFirstOps (initial Nat Nat) = true ∧
      (EngineModel.run recursive 4 parseFirstOps (initial Nat Nat)).map typeSettled = some true := by
  decide +kernel

/-- Both runs answer the type's demand for itself with a cycle, and store the same. -/
theorem stored_order_independent_cycle : ∃ s s',
    EngineModel.run recursive 4 typeOps (initial Nat Nat) = some s ∧
    EngineModel.run recursive 4 parseFirstOps (initial Nat Nat) = some s' ∧
    s.log.any (cycledAt ⟨.typeOfDecl, 1⟩) = true ∧ s'.log.any (cycledAt ⟨.typeOfDecl, 1⟩) = true ∧
    s.columns ⟨.typeOfDecl, 1⟩ = s'.columns ⟨.typeOfDecl, 1⟩ ∧ s.columns ⟨.typeOfDecl, 1⟩ = 10 := by
  have hkept : AllSteps (TiersOk recursive (fun _ => typeRank) (history typeOps)) recursive 4 typeOps
      (initial Nat Nat) :=
    tiersOk_of_static recursive_static recursive_lawful ⟨by decide, by decide, trivial⟩
  have hkept' : AllSteps (TiersOk recursive (fun _ => typeRank) (history parseFirstOps)) recursive 4 parseFirstOps
      (initial Nat Nat) :=
    tiersOk_of_static recursive_static recursive_lawful ⟨by decide, by decide, trivial⟩
  obtain ⟨hcheck, htest, hcheck', htest'⟩ := typeOps_checks
  have hsteps := allSteps_of_check (stepOk_of_check recursive_succeeds) hcheck
  have hsteps' := allSteps_of_check (stepOk_of_check recursive_succeeds) hcheck'
  obtain ⟨s, hrun, hs⟩ := found_of_run recursive 4 typeOps (initial Nat Nat) typeSettled htest
  obtain ⟨s', hrun', hs'⟩ := found_of_run recursive 4 parseFirstOps (initial Nat Nat) typeSettled htest'
  simp only [typeSettled, Bool.and_eq_true, decide_eq_true_eq] at hs hs'
  obtain ⟨hcycle, hdone, hrev, hcurrent, hvalue⟩ := hs
  obtain ⟨hcycle', hdone', hrev', hcurrent', -⟩ := hs'
  refine ⟨s, s', hrun, hrun', hcycle, hcycle', ?_, hvalue⟩
  refine (stored_order_independent recursive_lawful hkept hsteps hrun hkept' hsteps' hrun').2 _
    hdone (hrev.trans hcurrent.symm) hdone' (hrev'.trans hcurrent'.symm) ?_
  intro i hi
  rw [(reached_quiet (recursive_lawful.at _) hkept hsteps hrun).sound.content i hi,
    (reached_quiet (recursive_lawful.at _) hkept' hsteps' hrun').sound.content i hi, hcurrent, hcurrent']
  rfl

/-- When the failures below each demand are foreseen, a body that ends has an
entry for every settled answer it used; and a slot is then served only while
each of its entries has the fingerprint of the child's current result. -/
theorem failing_child_recorded (hfix : ∀ q, q.kind.isFixpoint = true → ¬ CanFail (fam.body q))
    (hforeseen : AllSteps (FailuresForeseen fam) fam depth ops (initial V F))
    (hrun : EngineModel.run fam depth ops (initial V F) = some s) :
    (∀ q deps consumed, .finished q deps consumed ∈ s.log → ∀ x ∈ consumed, needsDep x.2 = true →
      x.1 ∈ deps.map (·.query)) ∧
    ∀ rank, Lawful fam rank → AllSteps (TiersOk fam (fun _ => rank) (history ops)) fam depth ops (initial V F) →
      AllSteps (StepOk fam) fam depth ops (initial V F) →
      ∀ q r db, .answered q r db ∈ s.log → r = .cached ∨ r = .error → ∀ d ∈ (db.slots q).deps,
        d.fp = fpOf fam d.query ((system fam).eval rank db.columns d.query) := by
  refine ⟨?_, ?_⟩
  · have htidy : Tidy (fun _ => False) s := by
      refine run_invariant (FailuresForeseen fam) (Tidy fun _ => False) ?_ initial_tidy hforeseen hrun
      intro s op s' h hok hstep
      by_cases hop : ∃ q, op = .demand q
      · obtain ⟨q, rfl⟩ := hop
        simp only [step, Option.map_eq_some_iff] at hstep
        obtain ⟨⟨a, t⟩, hdemand, rfl⟩ := hstep
        refine (demand_tidy ?_ h (fun c hne hc hfail => .inr (hok c hne hc hfail)) hdemand).1
        intro c hfail
        by_cases hk : c.kind.isFixpoint = true
        · exact absurd hfail (hfix c hk)
        · exact .inr (by simpa using hk)
      · exact step_tidy h (fun q hq => hop ⟨q, hq⟩) hstep
    intro q deps consumed hmem x hx hneed
    exact (htidy.kept.log _ hmem x hx hneed).resolve_right fun hfalse => hfalse.2
  · intro rank hfam hkept hok q r db hmem hr
    have hevent := (reached_quiet (hfam.at _) hkept hok hrun).log _ hmem
    rcases hr with rfl | rfl
    · exact fresh_deps hevent.1 hevent.2
    · exact fresh_deps hevent.1 hevent.2

/-- A source that does not parse while it is empty. -/
def fallible : Family Nat Nat where
  body q := match q.kind with
    | .fileAst => .demand ⟨.sourceText, q.key⟩ fun x => if x = 0 then .fail else .ret x
    | .lineIndex => .demand ⟨.fileAst, q.key⟩ .ret
    | _ => .ret 0
  bottom _ := 0
  onError _ := 9
  fingerprint _ v := some v

/-- The index is computed over a failed parse, and the source is repaired. -/
def fallibleOps : List (Op Nat) :=
  [.edit ⟨.sourceText, 1⟩ 0 .low, .requestBegin 2, .demand ⟨.lineIndex, 1⟩, .requestEnd,
    .edit ⟨.sourceText, 1⟩ 1 .low, .requestBegin 3, .demand ⟨.lineIndex, 1⟩]

def failsUnrecorded (child : Query) (deps : List (Dep Nat)) (consumed : List (Query × AnswerKind)) : Bool :=
  decide ((child, AnswerKind.failed) ∈ consumed ∧ child ∉ deps.map (·.query))

/-- The parse succeeds by now, and the index still holds what an error leaves. -/
def repairMissed (db : Db Nat Nat) : Bool :=
  decide ((system fallible).eval kindRank db.columns ⟨.fileAst, 1⟩ = .ok 1 ∧ db.columns ⟨.lineIndex, 1⟩ = 9)

theorem fallibleOps_checks :
    ((EngineModel.run fallible 4 fallibleOps (initial Nat Nat)).map fun s =>
      s.log.any (finishedWith ⟨.lineIndex, 1⟩ (failsUnrecorded ⟨.fileAst, 1⟩))) = some true ∧
    ((EngineModel.run fallible 4 fallibleOps (initial Nat Nat)).map fun s =>
      s.log.any (servedWith ⟨.lineIndex, 1⟩ repairMissed)) = some true := by
  decide +kernel

/-- A fresh failure leaves no entry, and the repair goes unnoticed. -/
theorem failing_child_unrecorded : ∃ s, EngineModel.run fallible 4 fallibleOps (initial Nat Nat) = some s ∧
    (∃ deps consumed, .finished ⟨.lineIndex, 1⟩ deps consumed ∈ s.log ∧
      (⟨.fileAst, 1⟩, .failed) ∈ consumed ∧ ⟨.fileAst, 1⟩ ∉ deps.map (·.query)) ∧
    ∃ db, .answered ⟨.lineIndex, 1⟩ .cached db ∈ s.log ∧
      (system fallible).eval kindRank db.columns ⟨.fileAst, 1⟩ = .ok 1 ∧ db.columns ⟨.lineIndex, 1⟩ = 9 := by
  obtain ⟨s, hrun, deps, consumed, hfin, htest⟩ := finished_of_run fallible 4 fallibleOps (initial Nat Nat)
    ⟨.lineIndex, 1⟩ (failsUnrecorded ⟨.fileAst, 1⟩) fallibleOps_checks.1
  obtain ⟨s', hrun', db, hmem, -, htest'⟩ := served_of_run fallible 4 fallibleOps (initial Nat Nat) ⟨.lineIndex, 1⟩
    repairMissed fallibleOps_checks.2
  obtain rfl : s = s' := Option.some.inj (hrun.symm.trans hrun')
  exact ⟨s, hrun, ⟨deps, consumed, hfin, of_decide_eq_true htest⟩, db, hmem, of_decide_eq_true htest'⟩

theorem failing_child_recorded_chain : ∃ s deps consumed, EngineModel.run chain 4 chainOps (initial Nat Nat) = some s ∧
    .finished ⟨.lineIndex, 1⟩ deps consumed ∈ s.log ∧ (⟨.fileAst, 1⟩, .succeeded) ∈ consumed ∧
    ⟨.fileAst, 1⟩ ∈ deps.map (·.query) := by
  obtain ⟨s, hrun, deps, consumed, hfin, htest⟩ := finished_of_run chain 4 chainOps (initial Nat Nat) ⟨.lineIndex, 1⟩
    (fun _ consumed => decide (((⟨.fileAst, 1⟩ : Query), AnswerKind.succeeded) ∈ consumed)) chainOps_checks.2.2.2
  have hforeseen : AllSteps (FailuresForeseen chain) chain 4 chainOps (initial Nat Nat) := by
    refine allSteps_of_forall fun s op => ?_
    cases op with
    | demand q => exact fun c _ _ hfail => absurd hfail (chain_succeeds c)
    | edit q v dur | sourceEdit q v dur | requestBegin revision | requestEnd | cancel checks => trivial
  have hconsumed := of_decide_eq_true htest
  have hrec := (failing_child_recorded (fun q _ => chain_succeeds q) hforeseen hrun).1 _ _ _ hfin _ hconsumed rfl
  exact ⟨s, deps, consumed, hrun, hfin, hconsumed, hrec⟩

end Ore.EngineIncremental
