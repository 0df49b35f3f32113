import Ore.EngineIncremental
import Ore.EngineTotal

namespace Ore.EngineAcyclic

open Tasks EngineModel EngineFacts EngineSteps EngineSound EngineNested EngineDemand EngineRuns EngineFailures
open EngineIncremental EngineRecording EngineTotal

variable {V F : Type}

/-- A family of bodies that always succeed, without fingerprint collisions, whose
demands have no cycle at any revision. They may differ between revisions. -/
structure AcyclicAt (fam : Family V F) (ranks : Nat → Query → Nat) (hist : Nat → Inputs V) : Prop where
  lower : ∀ r q c, ReadsOf fam ranks hist r q c → ranks r c < ranks r q
  succeeds : ∀ q, ¬ CanFail (fam.body q)
  injective : ∀ q v w, fam.fingerprint q v = fam.fingerprint q w → v = w

variable {fam : Family V F} {ranks : Nat → Query → Nat} {hist : Nat → Inputs V} {s : State V F} {q : Query}

theorem AcyclicAt.lawful (h : AcyclicAt fam ranks hist) : LawfulAt fam ranks hist where
  ranked r q c hq hc := .inr (h.lower r q c ⟨hq, hc⟩)
  selfBottom r q hq := absurd (h.lower r q q hq) (Nat.lt_irrefl _)
  injective := h.injective
  failNone q hq := absurd hq (h.succeeds q)

theorem AcyclicAt.known (h : AcyclicAt fam ranks hist) (s : Db V F) (q : Query) : FailuresKnownAt fam ranks hist s q :=
  fun c _ _ hc => absurd hc (h.succeeds c)

variable [DecidableEq F] [Inhabited V] {depth : Nat}

/-- No walk closes a cycle over deps recorded under older inputs, and a demand
over set inputs returns. -/
theorem no_spurious_cycle {ops : List (Op V)} (hacyclic : AcyclicAt fam ranks (history ops))
    (hkept : AllSteps (TiersOk fam ranks (history ops)) fam depth ops (initial V F))
    (hok : AllSteps (StepOk fam) fam depth ops (initial V F))
    (hrun : EngineModel.run fam depth ops (initial V F) = some s) :
    (∀ q r db, .answered q r db ∈ s.log → r ≠ .cycle ∧ r ≠ .cycleProvisional) ∧
    ∀ q n, ranks s.current q < n → Supplied fam s.toDb q → TiersHeldBelow fam ranks (history ops) s.toDb q →
      ∃ a s', demand fam (n + 1) q s = some (a, s') := by
  have hquiet := reached_quiet hacyclic.lawful hkept hok hrun
  refine ⟨?_, ?_⟩
  · intro q r db hmem
    have hevent := hquiet.log _ hmem
    constructor
    · rintro rfl
      exact Nat.lt_irrefl _ (hacyclic.lower db.current q q hevent)
    · rintro rfl
      exact hevent
  · intro q n hrank hsup hheld
    refine (demand_total hacyclic.lawful n).call q s hrank ?_ (run_tidy hrun).kept hsup
    exact ⟨hquiet.sound, hquiet.log, fun p hp => absurd hp (hquiet.idle p), hacyclic.known s.toDb q, hheld⟩

/-- A declaration asks for its body's scopes while its index says so, and the
scopes ask for the declaration while a source says so. -/
def turning : Family Nat Nat where
  body q := match q.kind with
    | .fileAst => .demand ⟨.sourceText, 1⟩ fun x => .demand ⟨.sourceText, if x = 0 then 2 else 3⟩ .ret
    | .lineIndex => .demand ⟨.fileAst, q.key⟩ .ret
    | .typeOfDecl => .demand ⟨.lineIndex, q.key⟩ fun x => if x = 7 then .demand ⟨.bodyScopes, q.key⟩ .ret else .ret x
    | .bodyScopes => .demand ⟨.sourceText, 4⟩ fun x => if x = 1 then .demand ⟨.typeOfDecl, q.key⟩ .ret else .ret x
    | _ => .ret 0
  bottom _ := 0
  onError _ := 0
  fingerprint _ v := some v

/-- The rank of a query while the last source has the given content. -/
def turningRank (x : Nat) (q : Query) : Nat :=
  match q.kind with
  | .fileAst => 1
  | .lineIndex => 2
  | .typeOfDecl => 3
  | .bodyScopes => if x = 1 then 4 else 1
  | _ => 0

def turningRanks (ops : List (Op Nat)) (r : Nat) : Query → Nat :=
  turningRank ((history ops r).value ⟨.sourceText, 4⟩)

/-- What the index reads. -/
def selected (inputs : Query → Nat) : Nat :=
  inputs ⟨.sourceText, if inputs ⟨.sourceText, 1⟩ = 0 then 2 else 3⟩

theorem turning_index (x : Nat) (inputs : Query → Nat) (key : Nat) :
    (system turning).eval (turningRank x) inputs ⟨.lineIndex, key⟩ = .ok (selected inputs) := by
  simp [System.eval, System.evalFuel, system, turning, turningRank, QueryKind.isInput, Tasks.run, System.answer,
    selected]

/-- The two demands never hold at once. -/
theorem turning_acyclic {ops : List (Op Nat)}
    (h : ∀ r, (history ops r).value ⟨.sourceText, 4⟩ = 1 → selected (history ops r).value ≠ 7) :
    AcyclicAt turning (turningRanks ops) (history ops) := by
  refine ⟨?_, ?_, ?_⟩
  · rintro r ⟨kind, key⟩ c ⟨-, hc⟩
    have hr := h r
    unfold readsAt turningRanks at hc
    unfold turningRanks
    generalize (history ops r).value = inputs at hc hr
    have hturn (k : Nat) : (system turning).ask (turningRank (inputs ⟨.sourceText, 4⟩)) inputs ⟨.typeOfDecl, k⟩
        ⟨.lineIndex, k⟩ = selected inputs := by
      rw [System.ask, turning_index]
      rfl
    have hback (k : Nat) : (system turning).ask (turningRank (inputs ⟨.sourceText, 4⟩)) inputs ⟨.bodyScopes, k⟩
        ⟨.sourceText, 4⟩ = inputs ⟨.sourceText, 4⟩ := by
      rw [System.ask, System.eval_input (system turning) rfl]
      rfl
    cases kind with
    | fileAst =>
        simp only [turning, reads, List.mem_cons, List.not_mem_nil, or_false] at hc
        rcases hc with rfl | rfl <;> simp [turningRank]
    | lineIndex =>
        simp only [turning, reads, List.mem_cons, List.not_mem_nil, or_false] at hc
        subst hc
        simp [turningRank]
    | typeOfDecl =>
        have hbody : turning.body ⟨.typeOfDecl, key⟩ = .demand ⟨.lineIndex, key⟩ fun x =>
          if x = 7 then .demand ⟨.bodyScopes, key⟩ .ret else .ret x := rfl
        simp only [hbody, reads, hturn] at hc
        split at hc
        · rename_i hseven
          have hone : inputs ⟨.sourceText, 4⟩ ≠ 1 := fun hone => hr hone hseven
          simp only [reads, List.mem_cons, List.not_mem_nil, or_false] at hc
          rcases hc with rfl | rfl <;> simp [turningRank, hone]
        · simp only [reads, List.mem_cons, List.not_mem_nil, or_false] at hc
          subst hc
          simp [turningRank]
    | bodyScopes =>
        have hbody : turning.body ⟨.bodyScopes, key⟩ = .demand ⟨.sourceText, 4⟩ fun x =>
          if x = 1 then .demand ⟨.typeOfDecl, key⟩ .ret else .ret x := rfl
        simp only [hbody, reads, hback] at hc
        split at hc
        · rename_i hone
          simp only [reads, List.mem_cons, List.not_mem_nil, or_false] at hc
          rcases hc with rfl | rfl <;> simp [turningRank, hone]
        · rename_i hone
          simp only [reads, List.mem_cons, List.not_mem_nil, or_false] at hc
          subst hc
          simp [turningRank, hone]
    | _ => simp [turning, reads] at hc
  · rintro ⟨kind, key⟩ hfail
    cases kind <;> simp [turning] at hfail
    all_goals
      obtain ⟨v, hfail⟩ := hfail
      split at hfail <;> simp at hfail
  · intro q v w hfp
    simpa [turning] using hfp

/-- The declaration is demanded, its index moves to a workspace source with the
same content, and then the demand turns around. -/
def turningOps (dur : Durability) : List (Op Nat) :=
  [.edit ⟨.sourceText, 1⟩ 0 dur, .edit ⟨.sourceText, 2⟩ 7 dur, .edit ⟨.sourceText, 3⟩ 7 .low,
    .edit ⟨.sourceText, 4⟩ 0 .low, .requestBegin 5, .demand ⟨.typeOfDecl, 1⟩, .requestEnd,
    .edit ⟨.sourceText, 1⟩ 1 dur, .requestBegin 6, .demand ⟨.typeOfDecl, 1⟩, .requestEnd,
    .edit ⟨.sourceText, 3⟩ 8 .low, .edit ⟨.sourceText, 4⟩ 1 .low, .requestBegin 8, .demand ⟨.typeOfDecl, 1⟩,
    .demand ⟨.bodyScopes, 1⟩]

theorem turningOps_acyclic (dur : Durability) :
    AcyclicAt turning (turningRanks (turningOps dur)) (history (turningOps dur)) := by
  apply turning_acyclic
  have hlast (r : Nat) : history (turningOps dur) r = history (turningOps dur) (min r 8) := by
    have htake : ((turningOps dur).filterMap edited).take (r - 1) =
        ((turningOps dur).filterMap edited).take (min r 8 - 1) := by
      rcases Nat.le_total r 8 with hle | hle
      · rw [Nat.min_eq_left hle]
      · rw [Nat.min_eq_right hle, List.take_of_length_le (l := (turningOps dur).filterMap edited) (show _ ≤ r - 1 by
          simp only [turningOps, List.filterMap_cons, edited, List.filterMap_nil, List.length_cons, List.length_nil]
          omega)]
        rfl
    rw [history, htake, history]
  have hall : ∀ r ≤ 8, (history (turningOps dur) r).value ⟨.sourceText, 4⟩ = 1 →
      selected (history (turningOps dur) r).value ≠ 7 := by
    cases dur <;> decide
  intro r
  rw [hlast]
  exact hall _ (Nat.min_le_right r 8)

theorem tier_low {edits : List (Query × Nat × Durability)} {x : Inputs Nat} (h : ∀ e ∈ edits, e.2.2 = .low)
    (hx : ∀ i, x.tier i = .low) (i : Query) : (edits.foldl setInput x).tier i = .low := by
  induction edits generalizing x with
  | nil => exact hx i
  | cons e rest ih =>
      refine ih (fun e he => h e (List.mem_cons_of_mem _ he)) ?_
      intro j
      by_cases hj : j = e.1
      · simp [setInput, hj, h e (List.mem_cons_self ..)]
      · simp [setInput, hj, hx j]

theorem turningOps_kept : TiersKeptAt turning (turningRanks (turningOps .low)) (history (turningOps .low)) := by
  have hlow (r : Nat) (i : Query) : (history (turningOps .low) r).tier i = .low := by
    refine tier_low ?_ (fun _ => rfl) i
    intro e he
    have hedits : ∀ e ∈ (turningOps .low).filterMap edited, e.2.2 = .low := by decide
    exact hedits e (List.mem_of_mem_take he)
  rintro r r' - ⟨kind, key⟩ hq - i hi
  unfold turningRanks at hi ⊢
  generalize (history (turningOps .low) r).value = inputs
  have hsource (x key : Nat) : (system turning).Touches (turningRank x) inputs ⟨.fileAst, key⟩ ⟨.sourceText, 1⟩ :=
    .read rfl (List.mem_cons_self ..) (by simp) (.input rfl)
  have hindex (x key : Nat) : (system turning).Touches (turningRank x) inputs ⟨.lineIndex, key⟩ ⟨.sourceText, 1⟩ :=
    .read rfl (List.mem_cons_self ..) (by simp) (hsource x key)
  have htouch : ∃ j, (system turning).Touches (turningRank (inputs ⟨.sourceText, 4⟩)) inputs ⟨kind, key⟩ j := by
    cases kind with
    | fileAst => exact ⟨_, hsource _ key⟩
    | lineIndex => exact ⟨_, hindex _ key⟩
    | typeOfDecl => exact ⟨_, .read rfl (List.mem_cons_self ..) (by simp) (hindex _ key)⟩
    | bodyScopes => exact ⟨_, .read rfl (List.mem_cons_self ..) (by simp) (.input rfl)⟩
    | sourceText | fileSet | check => simp [QueryKind.isInput] at hq
    | _ =>
        cases hi with
        | input hin => simp [system, QueryKind.isInput] at hin
        | read _ hc _ _ => simp [system, turning, reads] at hc
  obtain ⟨j, hj⟩ := htouch
  refine ⟨j, hj, ?_⟩
  rw [hlow, hlow]
  exact Durability.le_refl _

theorem answered_of_run (fam : Family V F) (depth : Nat) (ops : List (Op V)) (s : State V F)
    (test : Query → BeginResult → Bool)
    (h : ((EngineModel.run fam depth ops s).map fun s' => s'.log.any fun e => match e with
      | .answered q r _ => test q r
      | _ => false) = some true) :
    ∃ s', EngineModel.run fam depth ops s = some s' ∧ ∃ q r db, .answered q r db ∈ s'.log ∧ test q r = true := by
  obtain ⟨s', hrun, e, he, htest⟩ := logged_of_run fam depth ops s _ h
  cases e with
  | answered q r db => exact ⟨s', hrun, q, r, db, he, htest⟩
  | compared dep before after | skipped q db | finished q deps consumed => simp at htest

theorem no_spurious_cycle_turning : ∃ s, EngineModel.run turning 6 (turningOps .low) (initial Nat Nat) = some s ∧
    (∃ db, .answered ⟨.typeOfDecl, 1⟩ .compute db ∈ s.log) ∧
    (∀ q r db, .answered q r db ∈ s.log → r ≠ .cycle ∧ r ≠ .cycleProvisional) := by
  have hkept : AllSteps (TiersOk turning (turningRanks (turningOps .low)) (history (turningOps .low))) turning 6
      (turningOps .low) (initial Nat Nat) :=
    tiersOk_of_kept turningOps_kept (turningOps_acyclic .low).lawful
  have hsteps : AllSteps (StepOk turning) turning 6 (turningOps .low) (initial Nat Nat) :=
    allSteps_of_check (stepOk_of_check (turningOps_acyclic .low).succeeds) (by decide +kernel)
  obtain ⟨s, hrun, q, r, db, he, htest⟩ := answered_of_run turning 6 (turningOps .low) (initial Nat Nat)
    (fun q r => q == ⟨.typeOfDecl, 1⟩ && r == .compute) (by decide +kernel)
  simp only [Bool.and_eq_true, beq_iff_eq] at htest
  obtain ⟨rfl, rfl⟩ := htest
  exact ⟨s, hrun, ⟨db, he⟩, (no_spurious_cycle (turningOps_acyclic .low) hkept hsteps hrun).1⟩

/-- The index keeps the tier of a library source and is taken for unmoved, so the
walk goes on to the scopes, which ask for the declaration by now. -/
theorem spurious_cycle : AcyclicAt turning (turningRanks (turningOps .high)) (history (turningOps .high)) ∧
    ∃ s, EngineModel.run turning 6 (turningOps .high) (initial Nat Nat) = some s ∧
      ∃ db, .answered ⟨.typeOfDecl, 1⟩ .cycle db ∈ s.log := by
  obtain ⟨s, hrun, q, r, db, he, htest⟩ := answered_of_run turning 6 (turningOps .high) (initial Nat Nat)
    (fun q r => q == ⟨.typeOfDecl, 1⟩ && r == .cycle) (by decide +kernel)
  simp only [Bool.and_eq_true, beq_iff_eq] at htest
  obtain ⟨rfl, rfl⟩ := htest
  exact ⟨turningOps_acyclic .high, s, hrun, db, he⟩

end Ore.EngineAcyclic
