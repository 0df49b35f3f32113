import Ore.EngineDemand
import Ore.EngineSteps

namespace Ore.EngineRuns

open Tasks EngineModel EngineFacts EngineSteps EngineSound EngineNested EngineDemand

variable {V F : Type}

def setInput (x : Inputs V) (e : Query × V × Durability) : Inputs V :=
  ⟨Function.update x.value e.1 e.2.1, Function.update x.tier e.1 e.2.2⟩

def blank [Inhabited V] : Inputs V := ⟨fun _ => default, fun _ => .low⟩

def edited : Op V → Option (Query × V × Durability)
  | .edit q v dur | .sourceEdit q v dur => some (q, v, dur)
  | _ => none

def history [Inhabited V] (ops : List (Op V)) (r : Nat) : Inputs V :=
  ((ops.filterMap edited).take (r - 1)).foldl setInput blank

/-- The steps that keep the cache right: an edit does not lower the tier of its
input nor wrap the revision counter, a request is pinned at the current
revision, and a demand finds the failures below it settled. -/
def StepOk (fam : Family V F) (s : State V F) : Op V → Prop
  | .edit q _ dur | .sourceEdit q _ dur =>
      ((s.slots q).state = .done → (s.slots q).durability ≤ dur) ∧ s.current + 1 < revLimit
  | .requestBegin revision => revision = s.current
  | .requestEnd => True
  | .demand q => FailuresKnown fam s.toDb q
  | .cancel _ => False

/-- The steps that do not let an early cutoff hide a drop of tiers. -/
def TiersOk (fam : Family V F) (ranks : Nat → Query → Nat) (hist : Nat → Inputs V) (s : State V F) : Op V → Prop
  | .demand q => TiersHeldBelow fam ranks hist s.toDb q
  | .edit .. | .sourceEdit .. | .requestBegin _ | .requestEnd | .cancel _ => True

/-- The invariant of the engine between two operations. -/
structure Quiet (fam : Family V F) (ranks : Nat → Query → Nat) (hist : Nat → Inputs V) (s : State V F) : Prop where
  sound : Sound fam ranks hist s.toDb
  log : LogOk fam ranks hist s.log
  idle : ∀ p, (s.slots p).state ≠ .running
  stack : s.stack = []
  bounded : s.current < revLimit

variable {fam : Family V F} {rank : Query → Nat} {ranks : Nat → Query → Nat} {hist : Nat → Inputs V}
    {s s' : State V F} {q : Query}

/-- An edit that does not lower the tier of its input moves the invariant to
the next revision. -/
theorem Quiet.edit (h : Quiet fam ranks hist s) {v : V} {dur : Durability}
    (hhist : hist (s.current + 1) = setInput (hist s.current) (q, v, dur)) (hin : q.kind.isInput = true)
    (hrequest : s.request = 0) (hdur : (s.slots q).state = .done → (s.slots q).durability ≤ dur)
    (hbound : s.current + 1 < revLimit) (rev : Nat)
    (hs : s' = { s with
      slots := Function.update s.slots q { s.slots q with
        state := .done, fingerprint := fam.fingerprint q v, durability := dur, verifiedRev := rev, computedRev := rev }
      columns := Function.update s.columns q v
      tainted := Function.update s.tainted q false
      current := s.current + 1
      lastChanged := fun d => if d ≤ dur then s.current + 1 else s.lastChanged d }) :
    Quiet fam ranks hist s' := by
  have hother {p : Query} (hp : p ≠ q) : s'.slots p = s.slots p ∧ s'.columns p = s.columns p := by
    simp [hs, hp]
  have htier : (hist s.current).tier q ≤ dur := by
    rcases h.sound.input q hin with hempty | hslot
    · rw [h.sound.unset q hin hempty]
      exact Durability.low_le dur
    · rw [← hslot.durability]
      exact hdur hslot.state
  have hderived {p : Query} (hp : p.kind.isInput = false) : p ≠ q := by
    rintro rfl
    simp [hin] at hp
  refine ⟨?_, by simpa [hs] using h.log, ?_, by simpa [hs] using h.stack, by simpa [hs] using hbound⟩
  · refine ⟨?_, by simpa [hs] using h.sound.cancel, by simpa [hs] using h.sound.scc, ?_, ?_, ?_, ?_, ?_, ?_, ?_, ?_⟩
    · simp [hs, effectiveRevision, hrequest]
    · intro p
      by_cases hp : p = q
      · simpa [hs, hp] using h.sound.provisional q
      · rw [(hother hp).1, h.sound.provisional p]
    · intro p hstate
      by_cases hp : p = q
      · rw [hp]
        exact located_of_input hin
      · have hloc := h.sound.located p
        rw [(hother hp).1] at hstate
        simpa [isLocated, (hother hp).1] using hloc hstate
    · intro p hstate
      by_cases hp : p = q
      · simp [hs, hp] at hstate
      · rw [(hother hp).1] at hstate ⊢
        exact h.sound.unused p hstate
    · intro i hi
      by_cases hiq : i = q
      · simp [hs, hiq, hhist, setInput]
      · simpa [hs, hiq, hhist, setInput] using h.sound.content i hi
    · intro i hi hstate
      by_cases hiq : i = q
      · simp [hs, hiq] at hstate
      · rw [(hother hiq).1] at hstate
        simpa [hs, hiq, hhist, setInput] using h.sound.unset i hi hstate
    · intro i hi
      by_cases hiq : i = q
      · refine .inr ⟨?_, ?_, ?_, ?_⟩
        · simp [hs, hiq]
        · simp [hs, hiq]
        · simp [hs, hiq, hhist, setInput]
        · rcases h.sound.input q hin with hempty | hslot
          · simpa [hs, hiq] using h.sound.unused q hempty
          · simpa [hs, hiq] using hslot.deps
      · obtain ⟨hslot, hcol⟩ := hother hiq
        rcases h.sound.input i hi with hempty | hinput
        · exact .inl (by rw [hslot, hempty])
        · refine .inr ⟨by rw [hslot, hinput.state], by rw [hslot, hcol, hinput.fp], ?_, by rw [hslot, hinput.deps]⟩
          rw [hslot, hinput.durability]
          simp [hs, hhist, setInput, hiq]
    · intro p hp hset
      obtain ⟨hslot, hcol⟩ := hother (hderived hp)
      obtain ⟨hle, hmemo⟩ := h.sound.memo p hp (by simpa [Settled, hslot] using hset)
      have hout : outcome s'.toDb p = outcome s.toDb p := by simp [outcome, hslot, hcol]
      rw [hslot, hout]
      refine ⟨?_, hmemo⟩
      simp only [hs]
      omega
    · intro d r hlast hr i hi
      simp only [hs] at hlast hr ⊢
      by_cases hd : d ≤ dur
      · rw [if_pos hd] at hlast
        obtain rfl : r = s.current + 1 := by omega
        exact ⟨rfl, hi⟩
      · rw [if_neg hd] at hlast
        by_cases hrc : r = s.current + 1
        · subst hrc
          exact ⟨rfl, hi⟩
        · obtain ⟨hvalue, hkeep⟩ := h.sound.stable d r hlast (by omega) i hi
          have hiq : i ≠ q := by
            rintro rfl
            exact hd (Durability.le_trans hkeep htier)
          simpa [hhist, setInput, hiq] using ⟨hvalue, hkeep⟩
  · intro p
    by_cases hp : p = q
    · simp [hs, hp]
    · rw [(hother hp).1]
      exact h.idle p

theorem Quiet.requestBegin (h : Quiet fam ranks hist s) :
    Quiet fam ranks hist { s with
      request := s.current % 2 ^ 32
      cancelIn := if s.cancelIn = some 0 then none else s.cancelIn
      running := [] } := by
  have hmod : s.current % 2 ^ 32 = s.current := Nat.mod_eq_of_lt (Nat.lt_trans h.bounded (by decide))
  refine ⟨?_, h.log, h.idle, h.stack, h.bounded⟩
  refine ⟨?_, ?_, h.sound.scc, h.sound.provisional, h.sound.located, h.sound.unused, h.sound.content, h.sound.unset,
    ?_, h.sound.memo, h.sound.stable⟩
  · simp only [effectiveRevision, hmod]
    split <;> omega
  · simp [h.sound.cancel]
  · intro i hi
    exact (h.sound.input i hi).imp_right fun hin => ⟨hin.state, hin.fp, hin.durability, hin.deps⟩

theorem engineSweepRunning_idle (h : ∀ p, (s.slots p).state ≠ .running) :
    engineSweepRunning s = { s with running := [] } := by
  have hslots : (fun q => if q ∈ s.running then sweepSlot (s.slots q) else s.slots q) = s.slots := by
    funext q
    simp [sweepSlot, h q]
  simp [engineSweepRunning, hslots]

theorem reclaimOrphans_slot (s : State V F) (threshold : Nat) (p : Query) :
    (reclaimOrphans s threshold).slots p = s.slots p ∨
      p.kind.isInput = false ∧ ((reclaimOrphans s threshold).slots p).state = .empty ∧
        ((reclaimOrphans s threshold).slots p).deps = [] ∧
        ((reclaimOrphans s threshold).slots p).provisional = (s.slots p).provisional := by
  simp only [reclaimOrphans]
  split
  · rename_i hcond
    exact .inr ⟨hcond.1, rfl, rfl, rfl⟩
  · exact .inl rfl

theorem Sound.reset {db : Db V F} (h : Sound fam ranks hist db) {slots : Query → Slot F}
    (hslot : ∀ p, slots p = db.slots p ∨ p.kind.isInput = false ∧ (slots p).state = .empty ∧ (slots p).deps = [] ∧
      (slots p).provisional = (db.slots p).provisional) : Sound fam ranks hist { db with slots := slots } := by
  refine ⟨h.pinned, h.cancel, h.scc, ?_, ?_, ?_, h.content, ?_, ?_, ?_, h.stable⟩
  · intro p
    rcases hslot p with heq | ⟨-, -, -, hprov⟩
    · simp only [heq, h.provisional p]
    · simp only [hprov, h.provisional p]
  · intro p hstate
    rcases hslot p with heq | ⟨-, hempty, -⟩
    · simp only [heq] at hstate
      have hloc := h.located p hstate
      simpa [isLocated, heq] using hloc
    · exact absurd hempty hstate
  · intro p hstate
    rcases hslot p with heq | ⟨-, -, hdeps, -⟩
    · simp only [heq] at hstate ⊢
      exact h.unused p hstate
    · exact hdeps
  · intro i hi hstate
    rcases hslot i with heq | ⟨hder, -⟩
    · simp only [heq] at hstate
      exact h.unset i hi hstate
    · simp [hi] at hder
  · intro i hi
    rcases hslot i with heq | ⟨hder, -⟩
    · refine (h.input i hi).imp (fun hempty => by simp only [heq, hempty]) fun hin => ?_
      exact ⟨by simp only [heq, hin.state], by simp only [heq, hin.fp], by simp only [heq, hin.durability],
        by simp only [heq, hin.deps]⟩
    · simp [hi] at hder
  · intro p hp hset
    rcases hslot p with heq | ⟨-, hempty, -⟩
    · have hout : outcome { db with slots := slots } p = outcome db p := by simp only [outcome, heq]
      rw [hout]
      simp only [heq]
      exact h.memo p hp (by simpa [Settled, heq] using hset)
    · rcases hset with hs | hs <;> simp [hempty] at hs

theorem Quiet.reclaim (h : Quiet fam ranks hist s) (threshold : Nat) :
    Quiet fam ranks hist (reclaimOrphans s threshold) := by
  have hslot := reclaimOrphans_slot s threshold
  refine ⟨Sound.reset h.sound hslot, h.log, ?_, h.stack, h.bounded⟩
  intro p
  rcases hslot p with heq | ⟨-, hempty, -⟩
  · rw [heq]
    exact h.idle p
  · simp [hempty]

theorem Quiet.compact (h : Quiet fam ranks hist s) : Quiet fam ranks hist (engineCompact { s with request := 0 }) := by
  have hquiet : Quiet fam ranks hist { s with request := 0 } := by
    refine ⟨?_, h.log, h.idle, h.stack, h.bounded⟩
    refine ⟨by simp [effectiveRevision], h.sound.cancel, h.sound.scc, h.sound.provisional, h.sound.located,
      h.sound.unused, h.sound.content, h.sound.unset, ?_, h.sound.memo, h.sound.stable⟩
    intro i hi
    exact (h.sound.input i hi).imp_right fun hin => ⟨hin.state, hin.fp, hin.durability, hin.deps⟩
  unfold engineCompact
  split
  · exact hquiet.reclaim _
  · exact hquiet

theorem Quiet.requestEnd (h : Quiet fam ranks hist s) :
    Quiet fam ranks hist (engineCompact { engineSweepRunning s with request := 0 }) := by
  rw [engineSweepRunning_idle h.idle]
  exact Quiet.compact (s := { s with running := [] })
    ⟨h.sound.anyStack s.stack [] s.tainted, h.log, h.idle, h.stack, h.bounded⟩

variable [Inhabited V]

theorem initial_quiet (hzero : hist 1 = blank) : Quiet fam ranks hist (initial V F) := by
  refine ⟨?_, ?_, ?_, rfl, show 1 < revLimit by decide⟩
  · refine ⟨rfl, rfl, rfl, fun _ => rfl, ?_, fun _ _ => rfl, ?_, ?_, fun _ _ => .inl rfl, ?_, ?_⟩
    · intro q hstate
      simp [initial, Slot.zero] at hstate
    · intro i _
      simp [initial, hzero, blank]
    · intro i _ _
      simp [initial, hzero, blank]
    · intro q _ hset
      simp [Settled, initial, Slot.zero] at hset
    · intro d r hr hle i hi
      have hr : r = 1 := Nat.le_antisymm hle hr
      subst hr
      exact ⟨rfl, hi⟩
  · intro e he
    simp [initial] at he
  · intro p
    simp [initial, Slot.zero]

variable [DecidableEq F] {depth : Nat}

theorem Quiet.demand (h : Quiet fam ranks hist s) (hfam : LawfulAt fam ranks hist)
    (hfail : FailuresKnownAt fam ranks hist s.toDb q) (hheld : TiersHeldBelow fam ranks hist s.toDb q) {a : Answer V}
      (hrun : EngineModel.demand fam depth q s = some (a, s')) :
    Quiet fam ranks hist s' := by
  have hpost := (demand_spec hfam depth).call q s a s' hrun
    ⟨h.sound, h.log, fun p hp => absurd hp (h.idle p), hfail, hheld⟩
  refine ⟨hpost.sound, hpost.log, fun p hp => h.idle p (hpost.ext.noNew p hp), ?_, ?_⟩
  · rcases hpost.stack with hs | ⟨hs, -⟩
    · rw [hs, h.stack]
      rfl
    · rw [hs, h.stack]
  · rw [hpost.ext.current]
    exact h.bounded

/-- One operation keeps the invariant; an edit starts the next revision. -/
theorem step_quiet (hfam : LawfulAt fam ranks hist) {op : Op V} (h : Quiet fam ranks hist s)
    (hhist : ∀ e, edited op = some e → hist (s.current + 1) = setInput (hist s.current) e)
    (hok : StepOk fam s op) (htiers : TiersOk fam ranks hist s op) (hstep : step fam depth s op = some s') :
    Quiet fam ranks hist s' ∧ s'.current = s.current + (edited op).toList.length := by
  cases op with
  | edit q v dur =>
      simp only [step, Option.ite_none_right_eq_some, Option.some.injEq] at hstep
      obtain ⟨⟨hin, hrequest⟩, rfl⟩ := hstep
      have hmod : (s.current + 1) % revLimit = s.current + 1 := Nat.mod_eq_of_lt hok.2
      refine ⟨h.edit (hhist _ rfl) hin hrequest hok.1 hok.2 s.current ?_, ?_⟩
      · simp [inputChanged, inputSet, State.modifySlot, State.writeColumn, hmod]
      · simp [inputChanged, inputSet, State.modifySlot, State.writeColumn, hmod, edited]
  | sourceEdit q v dur =>
      simp only [step, Option.ite_none_right_eq_some, Option.some.injEq] at hstep
      obtain ⟨⟨hin, hrequest⟩, rfl⟩ := hstep
      have hmod : (s.current + 1) % revLimit = s.current + 1 := Nat.mod_eq_of_lt hok.2
      refine ⟨h.edit (hhist _ rfl) hin hrequest hok.1 hok.2 (s.current + 1) ?_, ?_⟩
      · simp [inputChanged, inputSet, State.modifySlot, State.writeColumn, hmod]
      · simp [inputChanged, inputSet, State.modifySlot, State.writeColumn, hmod, edited]
  | requestBegin revision =>
      simp only [step, Option.ite_none_right_eq_some, Option.some.injEq] at hstep
      obtain ⟨-, rfl⟩ := hstep
      obtain rfl : revision = s.current := hok
      exact ⟨h.requestBegin, rfl⟩
  | requestEnd =>
      simp only [step, Option.ite_none_right_eq_some, Option.some.injEq] at hstep
      obtain ⟨-, rfl⟩ := hstep
      refine ⟨h.requestEnd, ?_⟩
      unfold engineCompact
      split <;> rfl
  | demand q =>
      simp only [step, Option.map_eq_some_iff] at hstep
      obtain ⟨⟨a, t⟩, hrun, rfl⟩ := hstep
      have hpost := (demand_spec hfam depth).call q s a t hrun
        ⟨h.sound, h.log, fun p hp => absurd hp (h.idle p), hok.at ranks hist, htiers⟩
      exact ⟨h.demand hfam (hok.at ranks hist) htiers hrun, hpost.ext.current⟩
  | cancel checks => exact absurd hok id

theorem history_succ {before after : List (Op V)} {op : Op V} {e : Query × V × Durability} (he : edited op = some e) :
    history (before ++ op :: after) ((before.filterMap edited).length + 1 + 1) =
      setInput (history (before ++ op :: after) ((before.filterMap edited).length + 1)) e := by
  simp [history, List.filterMap_append, he, List.take_append, List.take_of_length_le]

/-- What each step preserves while the inputs follow the history, a stretch of a
longer run preserves. -/
theorem run_history (ok : State V F → Op V → Prop) (inv : State V F → Prop) (before after : List (Op V))
    {ops : List (Op V)}
    (hstep : ∀ s op s', inv s → ok s op → step fam depth s op = some s' →
      (∀ e, edited op = some e → history (before ++ ops ++ after) (s.current + 1) =
        setInput (history (before ++ ops ++ after) s.current) e) →
      inv s' ∧ s'.current = s.current + (edited op).toList.length)
    (h : inv s) (hcurrent : s.current = (before.filterMap edited).length + 1) (hok : AllSteps ok fam depth ops s)
    (hrun : EngineModel.run fam depth ops s = some s') :
    inv s' ∧ s'.current = ((before ++ ops).filterMap edited).length + 1 := by
  induction ops generalizing before s with
  | nil =>
      obtain rfl := run_nil.mp hrun
      exact ⟨h, by simpa using hcurrent⟩
  | cons op rest ih =>
      obtain ⟨t, hop, hrest⟩ := run_cons.mp hrun
      have hhist : ∀ e, edited op = some e →
          history (before ++ op :: rest ++ after) (s.current + 1) =
            setInput (history (before ++ op :: rest ++ after) s.current) e := by
        intro e he
        rw [hcurrent, List.append_assoc, List.cons_append]
        exact history_succ he
      obtain ⟨hinv, hnext⟩ := hstep s op t h hok.1 hop hhist
      have hassoc : before ++ op :: rest = before ++ [op] ++ rest := by simp
      rw [hassoc] at hstep ⊢
      refine ih _ hstep hinv ?_ (hok.2 t hop) hrest
      rw [hnext, hcurrent]
      cases he : edited op <;> simp [List.filterMap_append, he]

theorem run_quiet (before after : List (Op V)) {ops : List (Op V)}
    (hfam : LawfulAt fam ranks (history (before ++ ops ++ after)))
    (hkept : AllSteps (TiersOk fam ranks (history (before ++ ops ++ after))) fam depth ops s)
    (h : Quiet fam ranks (history (before ++ ops ++ after)) s)
    (hcurrent : s.current = (before.filterMap edited).length + 1) (hok : AllSteps (StepOk fam) fam depth ops s)
    (hrun : EngineModel.run fam depth ops s = some s') :
    Quiet fam ranks (history (before ++ ops ++ after)) s' ∧
      s'.current = ((before ++ ops).filterMap edited).length + 1 :=
  run_history _ _ before after (fun _ _ _ hq hokop hop hhist => step_quiet hfam hq hhist hokop.1 hokop.2 hop) h
    hcurrent (hok.and hkept) hrun

/-- The invariant holds at the end of every run that meets the conditions. -/
theorem reached_quiet {ops : List (Op V)} (hfam : LawfulAt fam ranks (history ops))
    (hkept : AllSteps (TiersOk fam ranks (history ops)) fam depth ops (initial V F))
    (hok : AllSteps (StepOk fam) fam depth ops (initial V F))
    (hrun : EngineModel.run fam depth ops (initial V F) = some s) : Quiet fam ranks (history ops) s := by
  have hnil : [] ++ ops ++ [] = ops := by simp
  have hquiet : Quiet fam ranks (history ([] ++ ops ++ [])) (initial V F) := initial_quiet rfl
  have h := run_quiet [] [] (by rwa [hnil]) (by rwa [hnil]) hquiet rfl hok hrun
  rw [hnil] at h
  exact h.1

theorem tiersOk_of_kept (h : TiersKeptAt fam ranks hist) (hfam : LawfulAt fam ranks hist) {ops : List (Op V)} :
    AllSteps (TiersOk fam ranks hist) fam depth ops s := by
  refine allSteps_of_forall fun s op => ?_
  cases op with
  | demand q => exact h.below hfam s.toDb q
  | edit q v dur | sourceEdit q v dur | requestBegin revision | requestEnd | cancel checks => trivial

def Raises : List (Query × V × Durability) → Inputs V → Prop
  | [], _ => True
  | e :: rest, x => x.tier e.1 ≤ e.2.2 ∧ Raises rest (setInput x e)

omit [Inhabited V] [DecidableEq F] in
theorem tier_mono {edits : List (Query × V × Durability)} {x : Inputs V} (h : Raises edits x) {m n : Nat} (hle : m ≤ n)
    (i : Query) : ((edits.take m).foldl setInput x).tier i ≤ ((edits.take n).foldl setInput x).tier i := by
  induction edits generalizing x m n with
  | nil => simpa using Durability.le_refl _
  | cons e rest ih =>
      cases n with
      | zero =>
          obtain rfl : m = 0 := by omega
          exact Durability.le_refl _
      | succ n =>
          cases m with
          | succ m => exact ih h.2 (by omega)
          | zero =>
              refine Durability.le_trans ?_ (ih h.2 (Nat.zero_le n))
              by_cases hi : i = e.1
              · subst hi
                simpa [setInput] using h.1
              · simpa [setInput, hi] using Durability.le_refl _

def StaticReads (fam : Family V F) : Prop := ∀ q ask ask', reads ask (fam.body q) = reads ask' (fam.body q)

omit [Inhabited V] [DecidableEq F] in
theorem StaticReads.touches (h : StaticReads fam) {inputs inputs' : Query → V} {q i : Query}
    (ht : (system fam).Touches rank inputs q i) : (system fam).Touches rank inputs' q i := by
  induction ht with
  | input hin => exact .input hin
  | read hq hc hne _ ih =>
      refine .read hq ?_ hne ih
      rw [show reads ((system fam).ask rank inputs' _) ((system fam).body _) = _ from h _ _ _]
      exact hc

/-- Where no edit lowers a tier and the reads are static, the tiers are held. -/
theorem tiersOk_of_static (h : StaticReads fam) (hfam : Lawful fam rank) {ops ops' : List (Op V)}
    (hraise : Raises (ops.filterMap edited) blank) :
    AllSteps (TiersOk fam (fun _ => rank) (history ops)) fam depth ops' s := by
  have hkept : TiersKeptAt fam (fun _ => rank) (history ops) := by
    intro r r' hle q _ _ i hi
    exact ⟨i, h.touches hi, tier_mono hraise (by omega) i⟩
  exact tiersOk_of_kept hkept (hfam.at _)

def stepCheck (s : State V F) : Op V → Bool
  | .edit q _ dur | .sourceEdit q _ dur =>
      (decide ((s.slots q).state ≠ .done) || decide ((s.slots q).durability ≤ dur)) && decide (s.current + 1 < revLimit)
  | .requestBegin revision => revision == s.current
  | .requestEnd | .demand _ => true
  | .cancel _ => false

omit [Inhabited V] [DecidableEq F] in
theorem stepOk_of_check (hfail : ∀ q, ¬ CanFail (fam.body q)) (s : State V F) (op : Op V) (h : stepCheck s op = true) :
    StepOk fam s op := by
  cases op with
  | edit q v dur | sourceEdit q v dur =>
      simp only [stepCheck, Bool.and_eq_true, Bool.or_eq_true, decide_eq_true_eq] at h
      exact ⟨fun hs => h.1.resolve_left fun hne => hne hs, h.2⟩
  | requestBegin revision => exact beq_iff_eq.mp h
  | requestEnd => trivial
  | demand q => exact fun c _ _ hc => absurd hc (hfail c)
  | cancel checks => simp [stepCheck] at h

end Ore.EngineRuns
