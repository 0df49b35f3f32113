import Ore.EngineIncremental
import Ore.EngineTotal
import Ore.SlotRows

namespace Ore.EngineReclaim

open Tasks EngineModel EngineSteps EngineSound EngineNested EngineDemand EngineRuns EngineDiscipline EngineFailures
open EngineTotal EngineIncremental EngineCalm

variable {V F : Type} [DecidableEq F] [Inhabited V] {fam : Family V F} {depth : Nat} {s s' : State V F}

/-- The inputs that a run sets. -/
def written (ops : List (Op V)) : List Query := (ops.filterMap edited).map (·.1)

theorem step_written {op : Op V} (h : Tidy (fun _ => True) s) (hstep : step fam depth s op = some s') (i : Query)
    (hin : i.kind.isInput = true) (hset : (s.slots i).state = .done ∨ i ∈ written [op]) :
      (s'.slots i).state = .done := by
  have hkeep (hnone : edited op = none) : (s.slots i).state = .done := by
    simpa [written, hnone] using hset
  cases op with
  | edit q v dur | sourceEdit q v dur =>
      simp only [step, Option.ite_none_right_eq_some, Option.some.injEq] at hstep
      obtain ⟨-, rfl⟩ := hstep
      by_cases hiq : i = q
      · simp [inputChanged, inputSet, State.modifySlot, State.writeColumn, hiq]
      · have hold : (s.slots i).state = .done := by simpa [written, edited, hiq] using hset
        simpa [inputChanged, inputSet, State.modifySlot, State.writeColumn, hiq] using hold
  | requestBegin revision =>
      simp only [step, Option.ite_none_right_eq_some, Option.some.injEq] at hstep
      obtain ⟨-, rfl⟩ := hstep
      exact hkeep rfl
  | requestEnd =>
      simp only [step, Option.ite_none_right_eq_some, Option.some.injEq] at hstep
      obtain ⟨-, rfl⟩ := hstep
      have hswept : ((engineSweepRunning s).slots i).state = .done := by
        simp only [engineSweepRunning, sweepSlot, hkeep rfl]
        split <;> simp [hkeep rfl]
      unfold engineCompact
      split
      · simp only [reclaimOrphans, hin]
        exact hswept
      · exact hswept
  | demand q =>
      simp only [step, Option.map_eq_some_iff] at hstep
      obtain ⟨⟨a, t⟩, hdemand, rfl⟩ := hstep
      obtain ⟨-, hpass⟩ := demand_tidy (fun _ _ => .inl trivial) h (fun _ _ _ _ => .inl trivial) hdemand
      exact hpass.inputs i id hin (hkeep rfl)
  | cancel checks =>
      simp only [step, Option.some.injEq] at hstep
      subst hstep
      exact hkeep rfl

theorem run_written {ops : List (Op V)} (h : Tidy (fun _ => True) s) (hrun : EngineModel.run fam depth ops s = some s')
    (i : Query) (hin : i.kind.isInput = true) (hset : (s.slots i).state = .done ∨ i ∈ written ops) :
    (s'.slots i).state = .done := by
  induction ops generalizing s with
  | nil =>
      obtain rfl := run_nil.mp hrun
      simpa [written] using hset
  | cons op rest ih =>
      obtain ⟨t, hstep, hrest⟩ := run_cons.mp hrun
      apply ih (run_keepsTidy h (run_cons.mpr ⟨t, hstep, run_nil.mpr rfl⟩)) hrest
      rcases hset with hset | hset
      · exact .inl (step_written h hstep i hin (.inl hset))
      · have hsplit : i ∈ written [op] ∨ i ∈ written rest := by
          have hcons : op :: rest = [op] ++ rest := rfl
          rwa [hcons, written, List.filterMap_append, List.map_append, List.mem_append] at hset
        exact hsplit.imp (fun hop => step_written h hstep i hin (.inr hop)) id

section TwoRuns

variable {rank : Query → Nat} {before after : List (Op V)} {threshold : Nat} {u u' : State V F}
variable (hfam : Lawful fam rank)
  (hkept : AllSteps (TiersOk fam (fun _ => rank) (history (before ++ after))) fam depth before (initial V F))
  (hok : AllSteps (StepOk fam) fam depth before (initial V F))
  (hrun : EngineModel.run fam depth before (initial V F) = some s)
  (hkeptWithout : AllSteps (TiersOk fam (fun _ => rank) (history (before ++ after))) fam depth after s)
  (hokWithout : AllSteps (StepOk fam) fam depth after s)
  (hrunWithout : EngineModel.run fam depth after s = some u)
  (hkeptWith : AllSteps (TiersOk fam (fun _ => rank) (history (before ++ after))) fam depth after
    (reclaimOrphans s threshold))
  (hokWith : AllSteps (StepOk fam) fam depth after (reclaimOrphans s threshold))
  (hrunWith : EngineModel.run fam depth after (reclaimOrphans s threshold) = some u')

include hfam hkept hok hrun hkeptWithout hokWithout hrunWithout hkeptWith hokWith hrunWith

/-- With and without the pass, the invariant holds for the same inputs. -/
theorem both_quiet : Quiet fam (fun _ => rank) (history (before ++ after)) u ∧
    Quiet fam (fun _ => rank) (history (before ++ after)) u' ∧ u'.current = u.current := by
  obtain ⟨hquiet, hcurrent⟩ := run_quiet [] after (hfam.at _) hkept (initial_quiet rfl) rfl hok hrun
  have hnil : before ++ after ++ [] = before ++ after := List.append_nil _
  rw [← hnil] at hkeptWithout hkeptWith ⊢
  obtain ⟨hu, hcur⟩ := run_quiet before [] (hfam.at _) hkeptWithout (by rwa [hnil]) hcurrent hokWithout hrunWithout
  obtain ⟨hu', hcur'⟩ := run_quiet before [] (s := reclaimOrphans s threshold) (hfam.at _) hkeptWith
    (by rw [hnil]; exact hquiet.reclaim threshold) hcurrent hokWith hrunWith
  exact ⟨hu, hu', hcur'.trans hcur.symm⟩

omit hfam hkept hok hkeptWithout hokWithout hkeptWith hokWith in
/-- With and without the pass, the inputs that were set are set. -/
theorem both_supplied {q : Query}
    (hset : ∀ i, Relation.ReflTransGen (Calls fam) q i → i.kind.isInput = true → i ∈ written (before ++ after)) :
    (Tracked u ∧ Supplied fam u.toDb q) ∧ Tracked u' ∧ Supplied fam u'.toDb q := by
  have htidy := run_tidy hrun
  have hsplit {i : Query} (hi : i ∈ written (before ++ after)) : i ∈ written before ∨ i ∈ written after := by
    rwa [written, List.filterMap_append, List.map_append, List.mem_append] at hi
  have hdone {i : Query} (hin : i.kind.isInput = true) (hi : i ∈ written before) : (s.slots i).state = .done :=
    run_written initial_tidy hrun i hin (.inr hi)
  refine ⟨⟨(run_keepsTidy htidy hrunWithout).kept, ?_⟩, (run_keepsTidy (htidy.reclaim threshold) hrunWith).kept, ?_⟩
  · intro i hi hin
    exact run_written htidy hrunWithout i hin ((hsplit (hset i hi hin)).imp_left (hdone hin))
  · intro i hi hin
    refine run_written (htidy.reclaim threshold) hrunWith i hin ((hsplit (hset i hi hin)).imp_left fun hb => ?_)
    simp [reclaimOrphans, hin, hdone hin hb]

open SlotRows in
/-- Inserting a reclaim pass anywhere in a run changes no later answer: what the
two runs serve is the same, a demand gives the same value in both, and returns
in both. Whatever rows the passes took, a key that is located names a row that is
its own. -/
theorem orphan_reclaim_transparent (Result Extra : RoutedKind → Type) [∀ kind, Inhabited (Result kind)]
    [∀ kind, Inhabited (Extra kind)] (freeTypes : Result .inferInstance → Result .inferInstance)
    (freeDiags : Extra .inferInstance → Extra .inferInstance) :
    (∀ q, Fresh u.toDb q → Fresh u'.toDb q → outcome u.toDb q = outcome u'.toDb q) ∧
    (∀ q, FailuresKnown fam u.toDb q → FailuresKnown fam u'.toDb q →
      TiersHeldBelow fam (fun _ => rank) (history (before ++ after)) u.toDb q →
      TiersHeldBelow fam (fun _ => rank) (history (before ++ after)) u'.toDb q →
      (∀ d d' a a' t t', demand fam d q u = some (a, t) → demand fam d' q u' = some (a', t') → a.value = a'.value) ∧
      ∀ d, rank q < d →
        (∀ i, Relation.ReflTransGen (Calls fam) q i → i.kind.isInput = true → i ∈ written (before ++ after)) →
        (∃ a t, demand fam (d + 1) q u = some (a, t)) ∧ ∃ a t, demand fam (d + 1) q u' = some (a, t)) ∧
    ∀ (ops : List (SlotRows.Op Result Extra F)) kind key i,
      (SlotRows.run freeTypes freeDiags ops SlotRows.initial kind).routeSlot key = some i →
        (∃ c, (SlotRows.run freeTypes freeDiags ops SlotRows.initial kind).row i = some c ∧ c.cold.routingKey = key) ∧
        i ∉ (SlotRows.run freeTypes freeDiags ops SlotRows.initial kind).freeRows ∧
        ∀ key', (SlotRows.run freeTypes freeDiags ops SlotRows.initial kind).routeSlot key' = some i → key' = key := by
  obtain ⟨hu, hu', hcurrent⟩ := both_quiet hfam hkept hok hrun hkeptWithout hokWithout hrunWithout
    hkeptWith hokWith hrunWith
  have hpre {q : Query} {v : State V F} (hv : Quiet fam (fun _ => rank) (history (before ++ after)) v)
      (hknown : FailuresKnown fam v.toDb q)
      (hheld : TiersHeldBelow fam (fun _ => rank) (history (before ++ after)) v.toDb q) :
      Pre fam (fun _ => rank) (history (before ++ after)) v q :=
    ⟨hv.sound, hv.log, fun p hp => absurd hp (hv.idle p), hknown.at _ _, hheld⟩
  refine ⟨?_, ?_, ?_⟩
  · intro q hfresh hfresh'
    have heval := (fresh_slot hu.sound hfresh).1
    have heval' := (fresh_slot hu'.sound hfresh').1
    rw [← heval, ← heval', hcurrent]
  · intro q hknown hknown' hheld hheld'
    refine ⟨?_, ?_⟩
    · intro d d' a a' t t' hdemand hdemand'
      have hval := ((demand_spec (hfam.at _) d).call q u a t hdemand (hpre hu hknown hheld)).value
      have hval' := ((demand_spec (hfam.at _) d').call q u' a' t' hdemand' (hpre hu' hknown' hheld')).value
      rw [hval, hval', hcurrent]
    · intro d hd hset
      obtain ⟨⟨hrec, hsup⟩, hrec', hsup'⟩ := both_supplied hrun hrunWithout hrunWith hset
      exact ⟨(demand_total (hfam.at _) d).call q u hd (hpre hu hknown hheld) hrec hsup,
        (demand_total (hfam.at _) d).call q u' hd (hpre hu' hknown' hheld') hrec' hsup'⟩
  · intro ops kind key i hroute
    have hrows : Rows (SlotRows.run freeTypes freeDiags ops SlotRows.initial kind) :=
      (run_rows freeTypes freeDiags ops initial_matched).1 kind
    have hmap := route_of_routeSlot hroute
    refine ⟨(hrows.routed key i hmap).2, ?_, ?_⟩
    · intro hfree
      exact (hrows.free i hfree).2.2 key hmap
    · intro key' hroute'
      exact hrows.injective (route_of_routeSlot hroute') hmap

end TwoRuns

/-- A parsed and indexed source that is not looked at for a while. -/
def idleBefore : List (Op Nat) :=
  [.edit ⟨.sourceText, 1⟩ 7 .high, .requestBegin 2, .demand ⟨.lineIndex, 1⟩, .requestEnd,
    .edit ⟨.sourceText, 2⟩ 5 .low, .edit ⟨.sourceText, 2⟩ 6 .low]

theorem chain_cone {i : Query} (h : Relation.ReflTransGen (Calls chain) ⟨.lineIndex, 1⟩ i) :
    i = ⟨.lineIndex, 1⟩ ∨ i = ⟨.fileAst, 1⟩ ∨ i = ⟨.sourceText, 1⟩ := by
  induction h with
  | refl => exact .inl rfl
  | tail _ hcall ih =>
      rcases ih with rfl | rfl | rfl
      · exact .inr (.inl (by simpa [Calls, QueryKind.isInput, chain] using hcall))
      · exact .inr (.inr (by simpa [Calls, QueryKind.isInput, chain] using hcall))
      · simp [Calls, QueryKind.isInput] at hcall

theorem orphan_reclaim_transparent_chain : ∃ s u u',
    EngineModel.run chain 4 idleBefore (initial Nat Nat) = some s ∧
    EngineModel.run chain 4 [.requestBegin 4] s = some u ∧
    EngineModel.run chain 4 [.requestBegin 4] (reclaimOrphans s 4) = some u' ∧
    (u.slots ⟨.lineIndex, 1⟩).state = .done ∧ (u'.slots ⟨.lineIndex, 1⟩).state = .empty ∧
    ∃ a a' t t', demand chain 4 ⟨.lineIndex, 1⟩ u = some (a, t) ∧ demand chain 4 ⟨.lineIndex, 1⟩ u' = some (a', t') ∧
      a.value = a'.value := by
  have hkept (ops : List (Op Nat)) (v : State Nat Nat) :
      AllSteps (TiersOk chain (fun _ => kindRank) (history (idleBefore ++ [.requestBegin 4]))) chain 4 ops v :=
    tiersOk_of_static chain_static chain_lawful ⟨by decide, by decide, by decide, trivial⟩
  have hheld (v : State Nat Nat) :
      TiersHeldBelow chain (fun _ => kindRank) (history (idleBefore ++ [.requestBegin 4])) v.toDb ⟨.lineIndex, 1⟩ :=
    (hkept [.demand ⟨.lineIndex, 1⟩] v).1
  have hsteps : AllSteps (StepOk chain) chain 4 idleBefore (initial Nat Nat) :=
    allSteps_of_check (stepOk_of_check chain_succeeds) (by decide +kernel)
  have hknown (v : State Nat Nat) : FailuresKnown chain v.toDb ⟨.lineIndex, 1⟩ :=
    fun c _ _ hc => absurd hc (chain_succeeds c)
  obtain ⟨s, hrun, hcurrent⟩ := found_of_run chain 4 idleBefore (initial Nat Nat) (fun s => s.current == 4)
    (by decide +kernel)
  obtain ⟨s', hrun', u, hwithout, hdone⟩ : ∃ s', EngineModel.run chain 4 idleBefore (initial Nat Nat) = some s' ∧
      ∃ u, EngineModel.run chain 4 [.requestBegin 4] s' = some u ∧ (u.slots ⟨.lineIndex, 1⟩).state = .done := by
    have h : ((EngineModel.run chain 4 idleBefore (initial Nat Nat)).bind fun s =>
        (EngineModel.run chain 4 [.requestBegin 4] s).map fun u => (u.slots ⟨.lineIndex, 1⟩).state) = some .done := by
      decide +kernel
    simpa [Option.bind_eq_some_iff] using h
  obtain ⟨s'', hrun'', u', hwith, hempty⟩ : ∃ s', EngineModel.run chain 4 idleBefore (initial Nat Nat) = some s' ∧
      ∃ u, EngineModel.run chain 4 [.requestBegin 4] (reclaimOrphans s' 4) = some u ∧
        (u.slots ⟨.lineIndex, 1⟩).state = .empty := by
    have h : ((EngineModel.run chain 4 idleBefore (initial Nat Nat)).bind fun s =>
        (EngineModel.run chain 4 [.requestBegin 4] (reclaimOrphans s 4)).map fun u => (u.slots ⟨.lineIndex, 1⟩).state) =
          some .empty := by
      decide +kernel
    simpa [Option.bind_eq_some_iff] using h
  obtain rfl : s' = s := Option.some.inj (hrun'.symm.trans hrun)
  obtain rfl : s'' = s' := Option.some.inj (hrun''.symm.trans hrun)
  have hok (v : State Nat Nat) (hv : v.current = 4) : AllSteps (StepOk chain) chain 4 [.requestBegin 4] v :=
    ⟨hv.symm, fun _ _ => trivial⟩
  have htransparent := orphan_reclaim_transparent chain_lawful (hkept _ _) hsteps hrun (hkept _ _)
    (hok _ (beq_iff_eq.mp hcurrent)) hwithout (hkept _ _) (hok _ (beq_iff_eq.mp hcurrent)) hwith (fun _ => Unit)
    (fun _ => Unit) id id
  obtain ⟨hsame, hreturns⟩ := htransparent.2.1 ⟨.lineIndex, 1⟩ (hknown u) (hknown u') (hheld u) (hheld u')
  obtain ⟨⟨a, t, hdemand⟩, a', t', hdemand'⟩ := hreturns 3 (by decide) fun i hi hin => by
    rcases chain_cone hi with rfl | rfl | rfl
    · simp [QueryKind.isInput] at hin
    · simp [QueryKind.isInput] at hin
    · decide
  exact ⟨_, u, u', hrun, hwithout, hwith, hdone, hempty, a, a', t, t', hdemand, hdemand',
    hsame 4 4 a a' t t' hdemand hdemand'⟩

/-- The run in which the index keeps the tier of a library source, followed by
edits of another source. -/
def lateOps : List (Op Nat) :=
  [.edit ⟨.sourceText, 1⟩ 0 .high, .edit ⟨.sourceText, 2⟩ 7 .high, .edit ⟨.sourceText, 3⟩ 7 .low,
    .requestBegin 4, .demand ⟨.lineIndex, 1⟩, .requestEnd,
    .edit ⟨.sourceText, 1⟩ 1 .high, .requestBegin 5, .demand ⟨.lineIndex, 1⟩, .requestEnd,
    .edit ⟨.sourceText, 3⟩ 8 .low, .edit ⟨.sourceText, 4⟩ 1 .low, .edit ⟨.sourceText, 4⟩ 2 .low,
    .edit ⟨.sourceText, 4⟩ 3 .low, .edit ⟨.sourceText, 4⟩ 4 .low, .edit ⟨.sourceText, 4⟩ 5 .low,
    .edit ⟨.sourceText, 4⟩ 6 .low, .edit ⟨.sourceText, 4⟩ 7 .low, .edit ⟨.sourceText, 4⟩ 8 .low]

/-- The index is stale but accepted by its tier; once it is reclaimed it is
computed anew, and the answer differs. -/
theorem orphan_reclaim_changes_answer : Lawful selecting kindRank ∧ ∃ s u u' a a' t t',
    EngineModel.run selecting 4 lateOps (initial Nat Nat) = some s ∧
    EngineModel.run selecting 4 [.requestBegin s.current] s = some u ∧
    EngineModel.run selecting 4 [.requestBegin s.current] (engineCompact s) = some u' ∧
    demand selecting 4 ⟨.lineIndex, 1⟩ u = some (a, t) ∧ demand selecting 4 ⟨.lineIndex, 1⟩ u' = some (a', t') ∧
    a.value = 7 ∧ a'.value = 8 := by
  have hstale : ((EngineModel.run selecting 4 lateOps (initial Nat Nat)).bind fun s =>
      (EngineModel.run selecting 4 [.requestBegin s.current] s).bind fun u =>
        (demand selecting 4 ⟨.lineIndex, 1⟩ u).map (·.1.value)) = some 7 := by
    decide +kernel
  have hnew : ((EngineModel.run selecting 4 lateOps (initial Nat Nat)).bind fun s =>
      (EngineModel.run selecting 4 [.requestBegin s.current] (engineCompact s)).bind fun u =>
        (demand selecting 4 ⟨.lineIndex, 1⟩ u).map (·.1.value)) = some 8 := by
    decide +kernel
  simp only [Option.bind_eq_some_iff, Option.map_eq_some_iff] at hstale hnew
  obtain ⟨s, hrun, u, hwithout, ⟨a, t⟩, hdemand, hvalue⟩ := hstale
  obtain ⟨s', hrun', u', hwith, ⟨a', t'⟩, hdemand', hvalue'⟩ := hnew
  obtain rfl : s' = s := Option.some.inj (hrun'.symm.trans hrun)
  exact ⟨selecting_lawful, s', u, u', a, a', t, t', hrun, hwithout, hwith, hdemand, hdemand', hvalue, hvalue'⟩

end Ore.EngineReclaim
