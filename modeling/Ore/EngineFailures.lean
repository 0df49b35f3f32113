import Ore.EngineRecording
import Ore.EngineSteps

namespace Ore.EngineFailures

open Tasks EngineModel EngineFacts EngineSteps EngineSound EngineDiscipline EngineRecording

variable {V F : Type} {fam : Family V F} {scope scope' tolerated : Query → Prop} {s s' : State V F} {q : Query}

/-- The invariant of recording between two operations. -/
structure Tidy (tolerated : Query → Prop) (s : State V F) : Prop where
  kept : Kept (fun _ => True) tolerated s
  stack : s.stack = []

theorem Kept.rescope (h : Kept scope tolerated s) (hstack : s.stack = [])
    (hdeps : ∀ p, scope' p → ∀ d ∈ (s.slots p).deps, scope' d.query) (hmembers : ∀ m ∈ sccQueries s.toDb, scope' m) :
    Kept scope' tolerated s where
  slots p := by
    obtain ⟨hloc, hbuf, hin⟩ := h.slots p
    exact ⟨hloc, ⟨hbuf.covers, hbuf.inputs, hdeps p⟩, hin⟩
  frames f hf := by simp [hstack] at hf
  members m hm := ⟨(h.members m hm).1, hmembers m hm⟩
  log := h.log

theorem Kept.tidy (h : Kept scope tolerated s) (hstack : s.stack = []) : Tidy tolerated s :=
  ⟨Kept.rescope h hstack (fun _ _ _ _ => trivial) fun _ _ => trivial, hstack⟩

theorem Tidy.reset (h : Tidy tolerated s) (hstack : s'.stack = []) (hscc : s'.scc = s.scc) (hlog : s'.log = s.log)
    (hslot : ∀ p, s'.slots p = s.slots p ∨
      (p.kind.isInput = false ∧ (s'.slots p).state = .empty ∧ (s'.slots p).deps = [] ∧ (s'.slots p).consumed = []) ∨
      (p.kind.isInput = true ∧ (s'.slots p).state = .done ∧ (s'.slots p).deps = (s.slots p).deps ∧
        (s'.slots p).consumed = (s.slots p).consumed)) : Tidy tolerated s' := by
  have hinputs (p : Query) (hp : p.kind.isInput = true) (hd : (s.slots p).state = .done) :
    (s'.slots p).state = .done := by
    rcases hslot p with heq | ⟨hder, -⟩ | ⟨-, hdone, -⟩
    · rw [heq, hd]
    · simp [hp] at hder
    · exact hdone
  refine ⟨h.kept.step _ hinputs ?_ (by simp [hstack]) (fun m hm => .inl ?_) (fun e he => .inl (hlog ▸ he)), hstack⟩
  · intro p
    rcases hslot p with heq | ⟨hder, hempty, hdeps, hcons⟩ | ⟨hin, hdone, hdeps, hcons⟩
    · exact .inl heq
    · refine .inr ⟨fun hne => absurd hempty hne, ?_, fun hin => by simp [hin] at hder⟩
      rw [hdeps, hcons]
      exact .nil
    · refine .inr ⟨fun _ => ?_, ?_, fun _ => ⟨hdeps.trans ((h.kept.slots p).input hin).1, .inr hdone⟩⟩
      · cases hk : p.kind <;> simp_all [QueryKind.isInput, QueryKind.isHashRouted]
      · rw [hdeps, hcons]
        exact (h.kept.slots p).buffer.mono hinputs
  · simpa [sccQueries, hscc] using hm

theorem Tidy.edit (h : Tidy tolerated s) (hin : q.kind.isInput = true) {slot : Slot F} (hstate : slot.state = .done)
    (hdeps : slot.deps = (s.slots q).deps) (hcons : slot.consumed = (s.slots q).consumed)
    (hslots : s'.slots = Function.update s.slots q slot) (hstack : s'.stack = s.stack) (hscc : s'.scc = s.scc)
    (hlog : s'.log = s.log) : Tidy tolerated s' := by
  refine h.reset (hstack.trans h.stack) hscc hlog ?_
  intro p
  by_cases hp : p = q
  · subst hp
    exact .inr (.inr (by simpa [hslots] using ⟨hin, hstate, hdeps, hcons⟩))
  · exact .inl (by simp [hslots, hp])

theorem Tidy.sweep (h : Tidy tolerated s) : Tidy tolerated (engineSweepRunning s) := by
  refine h.reset h.stack rfl rfl ?_
  intro p
  simp only [engineSweepRunning]
  by_cases hp : p ∈ s.running
  · rw [if_pos hp, sweepSlot]
    split
    · rename_i hrun
      refine .inr (.inl ⟨?_, rfl, rfl, rfl⟩)
      by_contra hin
      rcases ((h.kept.slots p).input (by simpa using hin)).2 with hs | hs <;> simp [hs] at hrun
    · exact .inl rfl
  · exact .inl (by simp [hp])

theorem Tidy.reclaim (h : Tidy tolerated s) (threshold : Nat) : Tidy tolerated (reclaimOrphans s threshold) := by
  refine h.reset h.stack rfl rfl ?_
  intro p
  simp only [reclaimOrphans]
  split
  · rename_i hcond
    exact .inr (.inl ⟨hcond.1, rfl, rfl, rfl⟩)
  · exact .inl rfl

theorem Tidy.compact (h : Tidy tolerated s) : Tidy tolerated (engineCompact s) := by
  unfold engineCompact
  split
  · exact h.reclaim _
  · exact h

theorem step_tidy [DecidableEq F] [Inhabited V] {depth : Nat} {op : Op V} (h : Tidy tolerated s)
    (hop : ∀ q, op ≠ .demand q) (hstep : step fam depth s op = some s') : Tidy tolerated s' := by
  cases op with
  | edit q v dur =>
      simp only [step, Option.ite_none_right_eq_some, Option.some.injEq] at hstep
      obtain ⟨⟨hin, -⟩, rfl⟩ := hstep
      refine h.edit hin ?_ ?_ ?_ rfl rfl rfl rfl <;> rfl
  | sourceEdit q v dur =>
      simp only [step, Option.ite_none_right_eq_some, Option.some.injEq] at hstep
      obtain ⟨⟨hin, -⟩, rfl⟩ := hstep
      refine h.edit hin ?_ ?_ ?_ rfl rfl rfl rfl <;> rfl
  | requestBegin revision =>
      simp only [step, Option.ite_none_right_eq_some, Option.some.injEq] at hstep
      obtain ⟨-, rfl⟩ := hstep
      exact h.reset h.stack rfl rfl fun _ => .inl rfl
  | requestEnd =>
      simp only [step, Option.ite_none_right_eq_some, Option.some.injEq] at hstep
      obtain ⟨-, rfl⟩ := hstep
      refine Tidy.compact ?_
      exact h.sweep.reset h.stack rfl rfl fun _ => .inl rfl
  | demand q => exact absurd rfl (hop q)
  | cancel checks =>
      simp only [step, Option.some.injEq] at hstep
      subst hstep
      exact h.reset h.stack rfl rfl fun _ => .inl rfl

theorem initial_tidy [Inhabited V] : Tidy tolerated (initial V F) := by
  refine ⟨⟨⟨?_, ?_, ?_⟩, ?_⟩, rfl⟩
  · intro p
    exact ⟨fun hne => absurd rfl hne, .nil, fun _ => ⟨rfl, .inl rfl⟩⟩
  · simp [initial]
  · simp [initial, sccQueries]
  · simp [initial]

section Foreseen

/-- What a demand can lead to: through a body, or through a recorded dep. -/
def Edge (fam : Family V F) (s : Db V F) (p c : Query) : Prop := Calls fam p c ∨ ∃ d ∈ (s.slots p).deps, d.query = c

/-- The queries a demand of `q` can lead to. An unfinished component is resumed
with all its members. -/
def Reached (fam : Family V F) (s : Db V F) (q c : Query) : Prop :=
  ∃ r, (r = q ∨ r ∈ sccQueries s) ∧ Relation.ReflTransGen (Edge fam s) r c

/-- Before a demand, every other query that it can lead to and that can fail is
settled at the revision of the request. -/
def FailuresForeseen (fam : Family V F) (s : State V F) : Op V → Prop
  | .demand q => ∀ c, c ≠ q → Reached fam s.toDb q c → CanFail (fam.body c) → Verified s.toDb c
  | _ => True

variable [DecidableEq F] [Inhabited V] {depth : Nat}

theorem demand_tidy (hfix : ∀ c, CanFail (fam.body c) → tolerated c ∨ c.kind.isFixpoint = false) (h : Tidy tolerated s)
    (hknown : ∀ c, c ≠ q → Reached fam s.toDb q c → CanFail (fam.body c) → tolerated c ∨ Verified s.toDb c)
      {a : Answer V}
    (hrun : demand fam depth q s = some (a, s')) : Tidy tolerated s' ∧ Passes s.toDb s'.toDb := by
  have hclosed : ∀ p c, Reached fam s.toDb q p → Calls fam p c → Reached fam s.toDb q c := by
    rintro p c ⟨r, hr, hpath⟩ hcall
    exact ⟨r, hr, hpath.tail (.inl hcall)⟩
  have hkept : Kept (Reached fam s.toDb q) tolerated s := by
    refine Kept.rescope h.kept h.stack ?_ fun m hm => ⟨m, .inr hm, .refl⟩
    rintro p ⟨r, hr, hpath⟩ d hd
    exact ⟨r, hr, hpath.tail (.inr ⟨d, hd, rfl⟩)⟩
  cases depth with
  | zero => simp [demand] at hrun
  | succ depth =>
      have hans := demandWith_answered (demand_kept hfix hclosed depth) hfix hclosed hkept ⟨q, .inl rfl, .refl⟩
        (fun c hne hc hfail => (hknown c hne hc hfail).imp_right .inl) (.inl h.stack) hrun
      refine ⟨Kept.tidy hans.kept ?_, hans.passes⟩
      have hgrown := hans.grown
      rw [h.stack] at hgrown
      exact hgrown.nil_left

theorem run_keepsTidy {ops : List (Op V)} (h : Tidy (fun _ => True) s) (hrun : run fam depth ops s = some s') :
    Tidy (fun _ => True) s' := by
  refine run_invariant (fun _ _ => True) (Tidy fun _ => True) ?_ h ?_ hrun
  · intro s op s' h _ hstep
    by_cases hop : ∃ q, op = .demand q
    · obtain ⟨q, rfl⟩ := hop
      simp only [step, Option.map_eq_some_iff] at hstep
      obtain ⟨⟨a, t⟩, hdemand, rfl⟩ := hstep
      exact (demand_tidy (fun _ _ => .inl trivial) h (fun _ _ _ _ => .inl trivial) hdemand).1
    · exact step_tidy h (fun q hq => hop ⟨q, hq⟩) hstep
  · exact allSteps_of_forall fun _ _ => trivial

/-- Whatever the family and the run, only fresh failures go unrecorded. -/
theorem run_tidy {ops : List (Op V)} (hrun : run fam depth ops (initial V F) = some s) : Tidy (fun _ => True) s :=
  run_keepsTidy initial_tidy hrun

end Foreseen

end Ore.EngineFailures
