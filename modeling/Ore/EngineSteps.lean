import Ore.EngineFacts

namespace Ore.EngineSteps

open EngineModel EngineFacts

variable {V F : Type} [DecidableEq F] [Inhabited V] {fam : Family V F} {depth : Nat} {s s' : State V F}

/-- Every step of a run meets its condition in the state it starts from. -/
def AllSteps (ok : State V F → Op V → Prop) (fam : Family V F) (depth : Nat) : List (Op V) → State V F → Prop
  | [], _ => True
  | op :: rest, s => ok s op ∧ ∀ s', step fam depth s op = some s' → AllSteps ok fam depth rest s'

theorem run_nil : run fam depth [] s = some s' ↔ s = s' := by
  simp [run]

theorem run_cons {op : Op V} {rest : List (Op V)} :
    run fam depth (op :: rest) s = some s' ↔ ∃ t, step fam depth s op = some t ∧ run fam depth rest t = some s' := by
  simp [run, List.foldlM_cons, Option.bind_eq_some_iff]

theorem run_invariant (ok : State V F → Op V → Prop) (inv : State V F → Prop)
    (hstep : ∀ s op s', inv s → ok s op → step fam depth s op = some s' → inv s') {ops : List (Op V)} (hinv : inv s)
    (hok : AllSteps ok fam depth ops s) (hrun : run fam depth ops s = some s') : inv s' := by
  induction ops generalizing s with
  | nil => exact run_nil.mp hrun ▸ hinv
  | cons op rest ih =>
      obtain ⟨t, hop, hrest⟩ := run_cons.mp hrun
      exact ih (hstep s op t hinv hok.1 hop) (hok.2 t hop) hrest

theorem AllSteps.and {ok ok' : State V F → Op V → Prop} {ops : List (Op V)} (h : AllSteps ok fam depth ops s)
    (h' : AllSteps ok' fam depth ops s) : AllSteps (fun s op => ok s op ∧ ok' s op) fam depth ops s := by
  induction ops generalizing s with
  | nil => trivial
  | cons op rest ih => exact ⟨⟨h.1, h'.1⟩, fun t ht => ih (h.2 t ht) (h'.2 t ht)⟩

theorem allSteps_of_forall {ok : State V F → Op V → Prop} (h : ∀ s op, ok s op) {ops : List (Op V)} :
    AllSteps ok fam depth ops s := by
  induction ops generalizing s with
  | nil => trivial
  | cons op rest ih => exact ⟨h s op, fun _ _ => ih⟩

/-- A condition that can be evaluated is checked along the run. -/
def checkSteps (ok : State V F → Op V → Bool) (fam : Family V F) (depth : Nat) : List (Op V) → State V F → Bool
  | [], _ => true
  | op :: rest, s => ok s op && match step fam depth s op with
      | none => true
      | some s' => checkSteps ok fam depth rest s'

theorem allSteps_of_check {ok : State V F → Op V → Prop} {okB : State V F → Op V → Bool}
    (himp : ∀ s op, okB s op = true → ok s op) {ops : List (Op V)} (h : checkSteps okB fam depth ops s = true) :
    AllSteps ok fam depth ops s := by
  induction ops generalizing s with
  | nil => trivial
  | cons op rest ih =>
      simp only [checkSteps, Bool.and_eq_true] at h
      refine ⟨himp s op h.1, ?_⟩
      intro t ht
      have hrest := h.2
      rw [ht] at hrest
      exact ih hrest

theorem found_of_run (fam : Family V F) (depth : Nat) (ops : List (Op V)) (s : State V F) (test : State V F → Bool)
    (h : (run fam depth ops s).map test = some true) :
    ∃ s', run fam depth ops s = some s' ∧ test s' = true := by
  simpa using h

theorem logged_of_run (fam : Family V F) (depth : Nat) (ops : List (Op V)) (s : State V F) (test : Event V F → Bool)
    (h : ((run fam depth ops s).map fun s' => s'.log.any test) = some true) :
    ∃ s', run fam depth ops s = some s' ∧ ∃ e ∈ s'.log, test e = true := by
  obtain ⟨s', hrun, hany⟩ := found_of_run _ _ _ _ _ h
  exact ⟨s', hrun, List.any_eq_true.mp hany⟩

def servedWith (q : Query) (test : Db V F → Bool) : Event V F → Bool
  | .answered p .cached db => p == q && ((db.slots q).state == .done && test db)
  | _ => false

theorem served_of_run (fam : Family V F) (depth : Nat) (ops : List (Op V)) (s : State V F) (q : Query)
    (test : Db V F → Bool)
    (h : ((run fam depth ops s).map fun s' => s'.log.any (servedWith q test)) = some true) :
    ∃ s', run fam depth ops s = some s' ∧ ∃ db, .answered q .cached db ∈ s'.log ∧ (db.slots q).state = .done ∧
      test db = true := by
  obtain ⟨s', hrun, e, he, hfound⟩ := logged_of_run _ _ _ _ _ h
  refine ⟨s', hrun, ?_⟩
  unfold servedWith at hfound
  split at hfound
  · simp only [Bool.and_eq_true, beq_iff_eq] at hfound
    obtain ⟨rfl, hstate, htest⟩ := hfound
    exact ⟨_, he, hstate, htest⟩
  · simp at hfound

def skippedWith (q : Query) (test : Db V F → Bool) : Event V F → Bool
  | .skipped p db => p == q && test db
  | _ => false

theorem skipped_of_run (fam : Family V F) (depth : Nat) (ops : List (Op V)) (s : State V F) (q : Query)
    (test : Db V F → Bool)
    (h : ((run fam depth ops s).map fun s' => s'.log.any (skippedWith q test)) = some true) :
    ∃ s', run fam depth ops s = some s' ∧ ∃ db, .skipped q db ∈ s'.log ∧ test db = true := by
  obtain ⟨s', hrun, e, he, hfound⟩ := logged_of_run _ _ _ _ _ h
  refine ⟨s', hrun, ?_⟩
  unfold skippedWith at hfound
  split at hfound
  · simp only [Bool.and_eq_true, beq_iff_eq] at hfound
    obtain ⟨rfl, htest⟩ := hfound
    exact ⟨_, he, htest⟩
  · simp at hfound

def finishedWith (q : Query) (test : List (Dep F) → List (Query × AnswerKind) → Bool) : Event V F → Bool
  | .finished p deps consumed => p == q && test deps consumed
  | _ => false

theorem finished_of_run (fam : Family V F) (depth : Nat) (ops : List (Op V)) (s : State V F) (q : Query)
    (test : List (Dep F) → List (Query × AnswerKind) → Bool)
    (h : ((run fam depth ops s).map fun s' => s'.log.any (finishedWith q test)) = some true) :
    ∃ s', run fam depth ops s = some s' ∧ ∃ deps consumed, .finished q deps consumed ∈ s'.log ∧
      test deps consumed = true := by
  obtain ⟨s', hrun, e, he, hfound⟩ := logged_of_run _ _ _ _ _ h
  refine ⟨s', hrun, ?_⟩
  unfold finishedWith at hfound
  split at hfound
  · simp only [Bool.and_eq_true, beq_iff_eq] at hfound
    obtain ⟨rfl, htest⟩ := hfound
    exact ⟨_, _, he, htest⟩
  · simp at hfound

end Ore.EngineSteps
