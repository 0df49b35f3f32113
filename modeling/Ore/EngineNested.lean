import Ore.EngineSound

namespace Ore.EngineNested

open Tasks EngineModel EngineFacts EngineSound

variable {V F : Type}

section Spec

variable (fam : Family V F) (ranks : Nat → Query → Nat) (hist : Nat → Inputs V)

/-- When a query may be demanded: everything running lies above it. -/
structure Pre (s : State V F) (q : Query) : Prop where
  sound : Sound fam ranks hist s.toDb
  log : LogOk fam ranks hist s.log
  running : ∀ p, (s.slots p).state = .running → ranks s.current q < ranks s.current p
  failures : FailuresKnownAt fam ranks hist s.toDb q
  tiers : TiersHeldBelow fam ranks hist s.toDb q

/-- What a demand returns and leaves behind. Only a fresh failure is not
recorded on the frame below. -/
structure Post (s : State V F) (q : Query) (a : Answer V) (s' : State V F) : Prop where
  sound : Sound fam ranks hist s'.toDb
  log : LogOk fam ranks hist s'.log
  ext : Ext s.toDb s'.toDb
  value : a.value = (system fam).answer q (evalAt fam ranks hist s.current q)
  fresh : Fresh s'.toDb q
  outcome : outcome s'.toDb q = evalAt fam ranks hist s.current q
  stack : s'.stack = recordTop s.stack q (s'.slots q).fingerprint (s'.slots q).durability ∨
    (s'.stack = s.stack ∧ CanFail (fam.body q) ∧ ¬ Fresh s.toDb q)

structure PullSpec (pull : Pull V F) : Prop where
  call : ∀ q s a s', pull q s = some (a, s') → Pre fam ranks hist s q → Post fam ranks hist s q a s'
  cycle : ∀ q s a s', pull q s = some (a, s') → Sound fam ranks hist s.toDb → (s.slots q).state = .running →
    q.kind.isFixpoint = false → a.value = fam.bottom q ∧ s' = s.emit (.answered q .cycle s.toDb)

/-- The query on top of the stack is being verified against revision `r`; the
children in the rows before `i` have the results they had then. -/
structure Verifying (s : State V F) (q : Query) (top : Frame F) (rest : List (Frame F)) (r i : Nat) : Prop where
  sound : Sound fam ranks hist s.toDb
  log : LogOk fam ranks hist s.log
  stack : s.stack = top :: rest
  derived : q.kind.isInput = false
  running : ∀ p, (s.slots p).state = .running → ranks s.current q ≤ ranks s.current p
  failures : FailuresKnownAt fam ranks hist s.toDb q
  tiers : TiersHeldBelow fam ranks hist s.toDb q
  others : ∀ c ∈ names top, c ≠ q
  ordered : Ordered q (names top) (readsAt fam ranks hist r q)
  unmoved : ∀ c ∈ (names top).take i, evalAt fam ranks hist s.current c = evalAt fam ranks hist r c
  fps : ∀ d ∈ top.deps, d.fp = fpOf fam d.query (evalAt fam ranks hist r d.query)

end Spec

variable {fam : Family V F} {ranks : Nat → Query → Nat} {hist : Nat → Inputs V} {r i : Nat} {q c : Query}
variable {pull : Pull V F} {s s' : State V F} {top : Frame F} {rest : List (Frame F)}

theorem Pre.idle (h : Pre fam ranks hist s q) : (s.slots q).state ≠ .running := by
  intro hrun
  exact absurd (h.running q hrun) (Nat.lt_irrefl _)

theorem Post.emit {a : Answer V} (h : Post fam ranks hist s q a s') {e : Event V F} (he : EventOk fam ranks hist e) :
    Post fam ranks hist s q a (s'.emit e) :=
  ⟨h.sound, h.log.emit he, h.ext, h.value, h.fresh, h.outcome, h.stack⟩

/-- An answer from a slot sees the slot settled at the current revision. -/
theorem Post.slotEvent {a : Answer V} (h : Post fam ranks hist s q a s') {r : BeginResult}
    (hr : r = .cached ∨ r = .error) : EventOk fam ranks hist (.answered q r s'.toDb) := by
  rcases hr with rfl | rfl <;> exact ⟨h.sound, h.fresh⟩

/-- A query settled at this revision carries its fingerprint and a lower bound
of its tiers. -/
theorem fresh_slot (h : Sound fam ranks hist s.toDb) (hfresh : Fresh s.toDb q) :
    evalAt fam ranks hist s.current q = outcome s.toDb q ∧
      (s.slots q).fingerprint = fpOf fam q (evalAt fam ranks hist s.current q) ∧
      ∀ i, (system fam).Touches (ranks s.current) (hist s.current).value q i →
        (s.slots q).durability ≤ (hist s.current).tier i := by
  by_cases hin : q.kind.isInput = true
  · obtain hempty | hslot := h.input q hin
    · rcases hfresh.1 with hs | hs <;> simp [hs] at hempty
    · have heval : evalAt fam ranks hist s.current q = .ok (s.columns q) := by
        rw [evalAt, System.eval_input (system fam) hin, h.content q hin]
      refine ⟨?_, ?_, ?_⟩
      · rw [heval, outcome, hslot.state]
        rfl
      · rw [heval]
        exact hslot.fp
      · intro i hi
        cases hi with
        | input _ =>
            rw [hslot.durability]
            exact Durability.le_refl _
        | read hq _ _ _ => simp [system, hin] at hq
  · obtain ⟨-, hmemo⟩ := h.memo q (by simpa using hin) hfresh.1
    rw [hfresh.2] at hmemo
    exact ⟨hmemo.result, hmemo.result ▸ hmemo.fp, hmemo.bound⟩

theorem Verifying.emit (h : Verifying fam ranks hist s q top rest r i) {e : Event V F} (he : EventOk fam ranks hist e) :
    Verifying fam ranks hist (s.emit e) q top rest r i :=
  ⟨h.sound, h.log.emit he, h.stack, h.derived, h.running, h.failures, h.tiers, h.others, h.ordered, h.unmoved, h.fps⟩

/-- The body still asks for the child in row `i`. -/
theorem Verifying.asked (h : Verifying fam ranks hist s q top rest r i) (hc : (names top)[i]? = some c) :
    ReadsOf fam ranks hist s.current q c ∧ c ≠ q := by
  refine ⟨⟨h.derived, h.ordered.asked_again hc ?_ ?_⟩, h.others c (List.mem_of_getElem? hc)⟩
  · simp [System.ask]
  · intro b hb
    have hne : b ≠ q := h.others b (List.mem_of_mem_take hb)
    simp only [System.ask, hne, if_false]
    exact congrArg _ (h.unmoved b hb)

theorem Verifying.pre (h : Verifying fam ranks hist s q top rest r i) (hfam : LawfulAt fam ranks hist)
    (hc : (names top)[i]? = some c) : Pre fam ranks hist s c := by
  obtain ⟨hreads, hne⟩ := h.asked hc
  refine ⟨h.sound, h.log, ?_, h.failures.child hfam hreads hne, h.tiers.child hreads⟩
  intro p hp
  exact Nat.lt_of_lt_of_le (rank_of_reads hfam hreads hne) (h.running p hp)

/-- A child that the walk pulls is recorded on the frame being verified. -/
theorem Verifying.stack_after {a : Answer V} (h : Verifying fam ranks hist s q top rest r i)
    (hc : (names top)[i]? = some c) (hpost : Post fam ranks hist s c a s') :
    s'.stack = recordDep top c (s'.slots c).fingerprint (s'.slots c).durability :: rest := by
  rcases hpost.stack with hs | ⟨-, hfail, hstale⟩
  · rw [hs, h.stack]
    rfl
  · obtain ⟨hreads, hne⟩ := h.asked hc
    exact absurd (h.failures c hne (.single hreads) hfail) hstale

/-- The frame has grown by a row it had, and the child in row `i` has not
moved. -/
theorem Verifying.next {a : Answer V} {dep : Dep F} (h : Verifying fam ranks hist s q top rest r i)
    (hdep : top.deps[i]? = some dep) (hpost : Post fam ranks hist s dep.query a s')
    (hfp : (s'.slots dep.query).fingerprint = dep.fp)
    (hsame : evalAt fam ranks hist s.current dep.query = evalAt fam ranks hist r dep.query) :
    Verifying fam ranks hist s' q (recordDep top dep.query dep.fp (s'.slots dep.query).durability) rest r (i + 1) := by
  have hname : (names top)[i]? = some dep.query := by simp [names, hdep]
  have hmem := List.mem_of_getElem? hname
  refine ⟨hpost.sound, hpost.log, ?_, h.derived, ?_, h.failures.ext hpost.ext, h.tiers.ext hpost.ext, ?_, ?_, ?_, ?_⟩
  · rw [h.stack_after hname hpost, hfp]
  · intro p hp
    rw [hpost.ext.current]
    exact h.running p (hpost.ext.noNew p hp)
  · intro c hc
    rcases (mem_names_recordDep _ _ _ _ c).mp hc with hc | rfl
    · exact h.others c hc
    · exact h.others _ hmem
  · rcases recordDep_names top dep.query dep.fp (s'.slots dep.query).durability with ⟨heq, -⟩ | heq
    · rw [heq]
      exact h.ordered
    · rw [heq]
      exact h.ordered.again hmem
  · intro c hc
    rw [hpost.ext.current]
    rw [take_names_recordDep (List.getElem?_eq_some_iff.mp hname).1, List.take_add_one, hname] at hc
    rcases List.mem_append.mp hc with hc | hc
    · exact h.unmoved c hc
    · obtain rfl := List.mem_singleton.mp hc
      exact hsame
  · intro d hd
    rcases mem_recordDep hd with hd | rfl
    · exact h.fps d hd
    · exact h.fps dep (List.mem_of_getElem? hdep)

/-- Pulling the child in row `i` leaves the frame in place, and with an unmoved
fingerprint the verification goes on. -/
theorem Verifying.dispatch (h : Verifying fam ranks hist s q top rest r i) (hfam : LawfulAt fam ranks hist)
    (hpull : PullSpec fam ranks hist pull) {dep : Dep F} (hdep : top.deps[i]? = some dep)
    (hrun : recomputeDispatch pull dep.query s = some s') :
    Sound fam ranks hist s'.toDb ∧ LogOk fam ranks hist s'.log ∧ Ext s.toDb s'.toDb ∧
      (dep.query.kind.isInput = true ∨ Fresh s'.toDb dep.query) ∧ ∃ top', s'.stack = top' :: rest ∧
      ((s'.slots dep.query).state = .done → (s'.slots dep.query).fingerprint = dep.fp →
        Verifying fam ranks hist s' q top' rest r (i + 1) ∧ (∀ c, c ∈ names top' ↔ c ∈ names top) ∧
          ∀ (j : Nat) c, (names top)[j]? = some c → (names top')[j]? = some c) := by
  have hname : (names top)[i]? = some dep.query := by simp [names, hdep]
  have hmem := List.mem_of_getElem? hname
  have hfps := h.fps dep (List.mem_of_getElem? hdep)
  unfold recomputeDispatch at hrun
  split at hrun
  · rename_i hin
    injection hrun with hrun
    subst hrun
    refine ⟨h.sound, h.log, .refl _, .inl hin, top, h.stack, ?_⟩
    intro hdone hfp
    have hsame : evalAt fam ranks hist s.current dep.query = evalAt fam ranks hist r dep.query := by
      obtain hempty | hslot := h.sound.input dep.query hin
      · simp [hdone] at hempty
      · refine eval_eq_of_fp hfam ?_
        rw [← hfps, ← hfp, hslot.fp, evalAt, System.eval_input (system fam) hin, h.sound.content dep.query hin]
        rfl
    refine ⟨⟨h.sound, h.log, h.stack, h.derived, h.running, h.failures, h.tiers, h.others, h.ordered, ?_, h.fps⟩,
      fun _ => Iff.rfl, fun _ _ hj => hj⟩
    intro c hc
    rw [List.take_add_one, hname] at hc
    rcases List.mem_append.mp hc with hc | hc
    · exact h.unmoved c hc
    · obtain rfl := List.mem_singleton.mp hc
      exact hsame
  · obtain ⟨⟨a, s''⟩, hcall, rfl⟩ := Option.map_eq_some_iff.mp hrun
    have hpost := hpull.call _ _ _ _ hcall (h.pre hfam hname)
    refine ⟨hpost.sound, hpost.log, hpost.ext, .inr hpost.fresh, _, h.stack_after hname hpost, ?_⟩
    intro _ hfp
    have hsame : evalAt fam ranks hist s.current dep.query = evalAt fam ranks hist r dep.query := by
      obtain ⟨-, hslot, -⟩ := fresh_slot hpost.sound hpost.fresh
      rw [hpost.ext.current] at hslot
      exact eval_eq_of_fp hfam (by rw [← hslot, hfp, hfps])
    have hnext := h.next hdep hpost hfp hsame
    rw [hfp]
    refine ⟨hnext, ?_, fun j c hj => getElem?_names_recordDep hj⟩
    intro c
    rw [mem_names_recordDep]
    constructor
    · rintro (hc | rfl)
      · exact hc
      · exact hmem
    · exact .inl

theorem opened_sound (h : Sound fam ranks hist s.toDb) (hq : q.kind.isInput = false)
    (hloc : isLocated s.toDb q = true) :
    Sound fam ranks hist (opened s q).toDb := by
  refine h.replace (q := q) rfl rfl rfl rfl rfl ?_ ?_ ?_ ?_ ?_ ?_
  · intro p hp
    exact ⟨opened_ne s hp, rfl⟩
  · rw [opened_slot]
    exact h.provisional q
  · intro _
    simpa [isLocated, opened_slot] using hloc
  · intro hempty
    simp [opened_slot] at hempty
  · intro hin
    simp [hq] at hin
  · intro _ hset
    simp [Settled, opened_slot] at hset

theorem opened_failures (h : FailuresKnownAt fam ranks hist s.toDb q) :
    FailuresKnownAt fam ranks hist (opened s q).toDb q := by
  intro c hne hc hfail
  have hfresh := h c hne hc hfail
  simpa [Fresh, Settled, opened_ne s hne] using hfresh

theorem opened_tiers (h : TiersHeldBelow fam ranks hist s.toDb q) :
    TiersHeldBelow fam ranks hist (opened s q).toDb q := by
  refine h.kept rfl fun p => ?_
  by_cases hp : p = q
  · intro hset
    simp [Settled, hp, opened_slot] at hset
  · exact .of_slot (opened_ne s hp)

/-- The slot of a query that is being verified still describes its last
result. -/
theorem opened_verifying (h : Pre fam ranks hist s q) (hq : q.kind.isInput = false) (hset : Settled s.toDb q) :
    Verifying fam ranks hist (opened s q) q (openedFrame s q) s.stack (s.slots q).verifiedRev 0 := by
  obtain ⟨-, hmemo⟩ := h.sound.memo q hq hset
  have hloc : isLocated s.toDb q = true := by
    refine h.sound.located q ?_
    rcases hset with hs | hs <;> simp [hs]
  refine ⟨opened_sound h.sound hq hloc, h.log, opened_stack s q, hq, ?_, opened_failures h.failures,
    opened_tiers h.tiers, ?_, hmemo.ordered, by simp, hmemo.fps⟩
  · intro p hp
    by_cases hpq : p = q
    · exact hpq ▸ Nat.le_refl _
    · rw [opened_ne s hpq] at hp
      exact Nat.le_of_lt (h.running p hp)
  · intro c hc
    exact ((hmemo.reads c).mp hc).2

variable [DecidableEq F]

/-- The walk visits the rows from `i` on. When it accepts, the results of the
children it visited have not moved since revision `r`. -/
theorem verifyWalk_spec (hfam : LawfulAt fam ranks hist) (hpull : PullSpec fam ranks hist pull) (n i : Nat)
    (s : State V F) (top : Frame F) (h : Verifying fam ranks hist s q top rest r i) {b : Bool}
    (hrun : verifyWalk pull n i s = some (b, s')) :
    Sound fam ranks hist s'.toDb ∧ LogOk fam ranks hist s'.log ∧ Ext s.toDb s'.toDb ∧ ∃ top', s'.stack = top' :: rest ∧
      (b = true → Verifying fam ranks hist s' q top' rest r (i + n) ∧ (∀ c, c ∈ names top' ↔ c ∈ names top) ∧
        (∀ (j : Nat) c, (names top)[j]? = some c → (names top')[j]? = some c)) := by
  induction n generalizing i s top with
  | zero =>
      simp only [verifyWalk, Option.some.injEq, Prod.mk.injEq] at hrun
      obtain ⟨rfl, rfl⟩ := hrun
      exact ⟨h.sound, h.log, .refl _, top, h.stack, fun _ => ⟨h, fun _ => Iff.rfl, fun _ _ hj => hj⟩⟩
  | succ n ih =>
      simp only [verifyWalk, h.stack, List.head?_cons, Option.bind_some] at hrun
      cases hdep : top.deps[i]? with
      | none => simp [hdep] at hrun
      | some dep =>
          simp only [hdep] at hrun
          cases hdisp : recomputeDispatch pull dep.query s with
          | none => simp [hdisp] at hrun
          | some t =>
              simp only [hdisp] at hrun
              obtain ⟨hsound, hlog, hext, hfresh, top', hstack, hgo⟩ := h.dispatch hfam hpull hdep hdisp
              have hevent : EventOk fam ranks hist (.compared dep s.toDb t.toDb) := fun _ _ => hfresh
              split at hrun
              · rename_i hok
                obtain ⟨hver, hnames, hrows⟩ := hgo hok.2.1 hok.2.2
                obtain ⟨hsound', hlog', hext', top'', hstack', hgo'⟩ := ih (i + 1) _ top' (hver.emit hevent) hrun
                refine ⟨hsound', hlog', hext.trans hext', top'', hstack', ?_⟩
                intro hb
                obtain ⟨hver', hnames', hrows'⟩ := hgo' hb
                rw [Nat.add_assoc, Nat.add_comm 1 n] at hver'
                exact ⟨hver', fun c => (hnames' c).trans (hnames c), fun j c hj => hrows' j c (hrows j c hj)⟩
              · simp only [Option.some.injEq, Prod.mk.injEq] at hrun
                obtain ⟨rfl, rfl⟩ := hrun
                exact ⟨hsound, hlog.emit hevent, hext, top', hstack, by simp⟩

theorem engineVerify_spec (hfam : LawfulAt fam ranks hist) (hpull : PullSpec fam ranks hist pull)
    (h : Pre fam ranks hist s q) (hq : q.kind.isInput = false) (hset : Settled s.toDb q) {b : Bool}
    (hrun : engineVerify pull q (opened s q) = some (b, s')) :
    ∃ t top, (s' = t ∨ s' = t.modifySlot q fun slot => { slot with verifiedRev := s.current }) ∧
      Sound fam ranks hist t.toDb ∧ LogOk fam ranks hist t.log ∧ Ext (opened s q).toDb t.toDb ∧
      t.stack = top :: s.stack ∧ (b = false → s' = t ∧ ¬ Fresh s.toDb q) ∧
      (b = true → Memo fam ranks hist s.current q (outcome s.toDb q) { s.slots q with deps := top.deps }) := by
  have hver := opened_verifying h hq hset
  obtain ⟨hle, hmemo⟩ := h.sound.memo q hq hset
  have heff : effectiveRevision (opened s q).toDb = s.current := h.sound.pinned
  have hslot := opened_slot s q
  simp only [engineVerify, heff, hslot] at hrun
  split at hrun
  · rename_i hcur
    simp only [Option.some.injEq, Prod.mk.injEq] at hrun
    obtain ⟨rfl, rfl⟩ := hrun
    refine ⟨_, _, .inl rfl, hver.sound, hver.log, .refl _, hver.stack, by simp, fun _ => ?_⟩
    exact hcur ▸ hmemo
  rename_i hstale
  split at hrun
  · rename_i hskip
    simp only [Option.some.injEq, Prod.mk.injEq] at hrun
    obtain ⟨rfl, rfl⟩ := hrun
    have hmemo' := hmemo.afterSkip hfam hq fun i hi => h.sound.stable _ _ hskip hle i hi
    refine ⟨_, _, .inr rfl, hver.sound, ?_, .refl _, hver.stack, by simp, fun _ => hmemo'⟩
    intro e he
    rcases List.mem_append.mp he with he | he
    · exact hver.log e he
    · rw [List.mem_singleton.mp he]
      refine .inr ⟨hver.sound, hver.running, hver.failures, hver.tiers, ?_⟩
      intro d hd
      rw [hslot] at hd
      obtain ⟨hreads, hne⟩ := (hmemo'.reads d.query).mp (List.mem_map_of_mem hd)
      exact ⟨⟨hq, hreads⟩, hne, hmemo'.fps d hd⟩
  · rw [opened_stack] at hrun
    simp only [List.head?_cons, Option.map_some, Option.getD_some] at hrun
    cases hwalk : verifyWalk pull (openedFrame s q).deps.length 0 (opened s q) with
    | none => simp [hwalk] at hrun
    | some res =>
        obtain ⟨b', t⟩ := res
        obtain ⟨hsound, hlog, hext, top, hstack, hgo⟩ := verifyWalk_spec hfam hpull _ _ _ _ hver hwalk
        rw [hwalk] at hrun
        cases b' with
        | false =>
            simp only [Option.some.injEq, Prod.mk.injEq] at hrun
            obtain ⟨rfl, rfl⟩ := hrun
            exact ⟨_, _, .inl rfl, hsound, hlog, hext, hstack, fun _ => ⟨rfl, fun hf => hstale hf.2⟩, by simp⟩
        | true =>
            simp only [Option.some.injEq, Prod.mk.injEq] at hrun
            obtain ⟨rfl, rfl⟩ := hrun
            refine ⟨_, _, .inr rfl, hsound, hlog, hext, hstack, by simp, fun _ => ?_⟩
            obtain ⟨hver', hnames, hrows⟩ := hgo rfl
            have hsame : ∀ c ∈ (s.slots q).deps.map (·.query),
                evalAt fam ranks hist s.current c = evalAt fam ranks hist (s.slots q).verifiedRev c := by
              intro c hc
              obtain ⟨j, hj⟩ := List.mem_iff_getElem?.mp hc
              rw [← show t.current = s.current from hext.current]
              refine hver'.unmoved c (List.mem_of_getElem? (i := j) ?_)
              rw [List.getElem?_take_of_lt ?_]
              · exact hrows j c hj
              · have := (List.getElem?_eq_some_iff.mp hj).1
                simpa [openedFrame] using this
            have hheld : TiersHeld fam ranks hist (s.slots q).verifiedRev s.current q := by
              refine h.tiers q .refl hq hset hle fun c hc hne => hsame c ?_
              exact (hmemo.reads c).mpr ⟨hc, hne⟩
            have hmemo' := hmemo.afterWalk hfam hq hheld hsame
            refine hmemo'.withDeps rfl rfl hnames ?_ ?_
            · exact (hmemo.kept hfam hq hsame).2 ▸ hver'.ordered
            intro d hd
            rw [hver'.fps d hd, hsame d.query ((hnames d.query).mp (List.mem_map_of_mem hd))]

end Ore.EngineNested
