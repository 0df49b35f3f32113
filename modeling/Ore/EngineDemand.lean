import Ore.EngineNested

namespace Ore.EngineDemand

open Tasks EngineModel EngineFacts EngineSound EngineNested

variable {V F : Type}

/-- The query on top of the stack is being computed and has read `seen`. -/
structure Computing (fam : Family V F) (ranks : Nat → Query → Nat) (hist : Nat → Inputs V) (s : State V F) (q : Query)
    (top : Frame F) (rest : List (Frame F)) (seen : List Query) : Prop where
  sound : Sound fam ranks hist s.toDb
  log : LogOk fam ranks hist s.log
  stack : s.stack = top :: rest
  state : (s.slots q).state = .running
  running : ∀ p, (s.slots p).state = .running → ranks s.current q ≤ ranks s.current p
  failures : FailuresKnownAt fam ranks hist s.toDb q
  tiers : TiersHeldBelow fam ranks hist s.toDb q
  recorded : ∀ c, c ∈ names top ↔ c ∈ seen ∧ c ≠ q
  ordered : Ordered q (names top) seen
  fps : ∀ d ∈ top.deps, d.fp = fpOf fam d.query (evalAt fam ranks hist s.current d.query)
  low : ∀ c ∈ seen, c ≠ q → top.durSet = true ∧
    ∀ i, (system fam).Touches (ranks s.current) (hist s.current).value c i → top.minInputDur ≤ (hist s.current).tier i

variable {fam : Family V F} {ranks : Nat → Query → Nat} {hist : Nat → Inputs V} {q c : Query}
variable {pull : Pull V F} {s s' : State V F} {top : Frame F} {rest : List (Frame F)} {seen : List Query}

namespace Computing

theorem note (h : Computing fam ranks hist s q top rest seen) (c : Query) (kind : AnswerKind) :
    Computing fam ranks hist (noteConsumed c kind s) q { top with consumed := top.consumed ++ [(c, kind)] } rest
      seen := by
  have hrest := noteConsumed_rest c kind s
  rw [noteConsumed_stack h.stack] at hrest
  rw [hrest]
  exact ⟨h.sound.anyStack _ s.running s.tainted, h.log, rfl, h.state, h.running, h.failures, h.tiers, h.recorded,
    h.ordered, h.fps, h.low⟩

theorem readSelf (h : Computing fam ranks hist s q top rest seen) (hself : ReadsOf fam ranks hist s.current q q) :
    Computing fam ranks hist (s.emit (.answered q .cycle s.toDb)) q top rest (seen ++ [q]) := by
  refine ⟨h.sound, h.log.emit hself, h.stack, h.state, h.running, h.failures, h.tiers, ?_, h.ordered.ask q, h.fps,
    ?_⟩
  · intro c
    rw [h.recorded c, List.mem_append, List.mem_singleton]
    constructor
    · rintro ⟨hc, hne⟩
      exact ⟨.inl hc, hne⟩
    · rintro ⟨hc | hc, hne⟩
      · exact ⟨hc, hne⟩
      · exact absurd hc hne
  · intro c hc hne
    rcases List.mem_append.mp hc with hc | hc
    · exact h.low c hc hne
    · exact absurd (List.mem_singleton.mp hc) hne

theorem pre (h : Computing fam ranks hist s q top rest seen) (hfam : LawfulAt fam ranks hist)
    (hc : ReadsOf fam ranks hist s.current q c) (hne : c ≠ q) : Pre fam ranks hist s c := by
  refine ⟨h.sound, h.log, ?_, h.failures.child hfam hc hne, h.tiers.child hc⟩
  intro p hp
  exact Nat.lt_of_lt_of_le (rank_of_reads hfam hc hne) (h.running p hp)

theorem read {a : Answer V} (h : Computing fam ranks hist s q top rest seen)
    (hc : ReadsOf fam ranks hist s.current q c) (hne : c ≠ q)
    (hpost : Post fam ranks hist s c a s') :
    Computing fam ranks hist s' q (recordDep top c (s'.slots c).fingerprint (s'.slots c).durability) rest
      (seen ++ [c]) := by
  obtain ⟨-, hfp, hbound⟩ := fresh_slot hpost.sound hpost.fresh
  rw [hpost.ext.current] at hfp hbound
  have hrunning := (hpost.ext.running q h.state).1
  refine ⟨hpost.sound, hpost.log, ?_, hrunning ▸ h.state, ?_, h.failures.ext hpost.ext,
    h.tiers.ext hpost.ext, ?_, ?_, ?_, ?_⟩
  · rcases hpost.stack with hs | ⟨-, hfail, hstale⟩
    · rw [hs, h.stack]
      rfl
    · exact absurd (h.failures c hne (.single hc) hfail) hstale
  · intro p hp
    rw [hpost.ext.current]
    exact h.running p (hpost.ext.noNew p hp)
  · intro b
    rw [mem_names_recordDep, h.recorded b, List.mem_append, List.mem_singleton]
    constructor
    · rintro (⟨hb, hbq⟩ | rfl)
      · exact ⟨.inl hb, hbq⟩
      · exact ⟨.inr rfl, hne⟩
    · rintro ⟨hb | hb, hbq⟩
      · exact .inl ⟨hb, hbq⟩
      · exact .inr hb
  · rcases recordDep_names top c (s'.slots c).fingerprint (s'.slots c).durability with ⟨heq, -⟩ | heq
    · rw [heq]
      exact h.ordered.ask c
    · rw [heq]
      refine h.ordered.record (fun b hb => ?_) c
      by_cases hbq : b = q
      · exact .inl hbq
      · exact .inr ((h.recorded b).mpr ⟨hb, hbq⟩)
  · intro d hd
    rw [hpost.ext.current]
    rcases mem_recordDep hd with hd | rfl
    · exact h.fps d hd
    · exact hfp
  · intro b hb hbq
    rw [hpost.ext.current]
    refine ⟨rfl, ?_⟩
    obtain ⟨hchild, hbefore⟩ := recordDep_minInputDur top c (s'.slots c).fingerprint (s'.slots c).durability
    intro i hi
    rcases List.mem_append.mp hb with hb | hb
    · obtain ⟨hset, hlow⟩ := h.low b hb hbq
      exact Durability.le_trans (hbefore hset) (hlow i hi)
    · rw [List.mem_singleton.mp hb] at hi
      exact Durability.le_trans hchild (hbound i hi)

end Computing

theorem ask_self (q : Query) (r : Nat) : (system fam).ask (ranks r) (hist r).value q q = fam.bottom q := by
  simp [System.ask, system]

theorem ask_ne (r : Nat) (hne : c ≠ q) :
    (system fam).ask (ranks r) (hist r).value q c = (system fam).answer c (evalAt fam ranks hist r c) := by
  simp [System.ask, hne]

/-- `p` is what is left of the body of `q` once it has read `seen`. -/
structure Remains (fam : Family V F) (ranks : Nat → Query → Nat) (hist : Nat → Inputs V) (r : Nat) (q : Query)
    (seen : List Query) (p : Prog Query V) : Prop where
  derived : q.kind.isInput = false
  reads : readsAt fam ranks hist r q = seen ++ reads ((system fam).ask (ranks r) (hist r).value q) p

namespace Remains

variable {r : Nat} {k : V → Prog Query V}

theorem start (hq : q.kind.isInput = false) : Remains fam ranks hist r q [] (fam.body q) :=
    ⟨hq, (List.nil_append _).symm⟩

theorem asked (h : Remains fam ranks hist r q seen (.demand c k)) : ReadsOf fam ranks hist r q c :=
  ⟨h.derived, by simp [h.reads, Tasks.reads]⟩

theorem next {v : V} (h : Remains fam ranks hist r q seen (.demand c k))
    (hv : v = (system fam).ask (ranks r) (hist r).value q c) : Remains fam ranks hist r q (seen ++ [c]) (k v) :=
  ⟨h.derived, by simp [h.reads, Tasks.reads, hv]⟩

end Remains

theorem Computing.answer {a : Answer V} (h : Computing fam ranks hist s q top rest seen)
    (hfam : LawfulAt fam ranks hist)
    (hpull : PullSpec fam ranks hist pull) (hc : ReadsOf fam ranks hist s.current q c)
      (hcall : pull c s = some (a, s')) :
    (∃ top', Computing fam ranks hist s' q top' rest (seen ++ [c])) ∧ Ext s.toDb s'.toDb ∧
      a.value = (system fam).ask (ranks s.current) (hist s.current).value q c := by
  by_cases hne : c = q
  · subst hne
    obtain ⟨hval, rfl⟩ := hpull.cycle _ _ _ _ hcall h.sound h.state (hfam.selfBottom _ c hc)
    exact ⟨⟨top, h.readSelf hc⟩, .refl _, hval.trans (ask_self c _).symm⟩
  · have hpost := hpull.call _ _ _ _ hcall (h.pre hfam hc hne)
    exact ⟨⟨_, h.read hc hne hpost⟩, hpost.ext, hpost.value.trans (ask_ne _ hne).symm⟩

/-- A body run by the engine gives what it gives from scratch, and its frame
has recorded what it read. -/
theorem runBody_spec (hfam : LawfulAt fam ranks hist) (hpull : PullSpec fam ranks hist pull) (p : Prog Query V)
    (b : Bool)
    (s : State V F) (top : Frame F) (seen : List Query) (h : Computing fam ranks hist s q top rest seen)
    (hleft : Remains fam ranks hist s.current q seen p) {o : Outcome V} {b' : Bool}
    (hrun : runBody pull p b s = some (o, b', s')) :
    ∃ top', Computing fam ranks hist s' q top' rest (readsAt fam ranks hist s.current q) ∧ Ext s.toDb s'.toDb ∧
      o = Tasks.run ((system fam).ask (ranks s.current) (hist s.current).value q) p := by
  induction p generalizing b s top seen with
  | ret v | fail =>
      simp only [runBody, Option.some.injEq, Prod.mk.injEq] at hrun
      obtain ⟨rfl, -, rfl⟩ := hrun
      refine ⟨top, ?_, .refl _, rfl⟩
      rw [hleft.reads]
      simpa [Tasks.reads] using h
  | demand c next ih =>
      simp only [runBody] at hrun
      cases hcall : pull c s with
      | none => simp [hcall] at hrun
      | some res =>
          obtain ⟨a, t⟩ := res
          simp only [hcall] at hrun
          obtain ⟨⟨top', hcomp⟩, hext, hval⟩ := h.answer hfam hpull hleft.asked hcall
          have hcurrent : (noteConsumed c a.kind t).current = s.current := by
            rw [noteConsumed_rest]
            exact hext.current
          have hnext := hleft.next hval
          rw [← hcurrent] at hnext
          obtain ⟨top'', hcomp', hext', ho⟩ := ih a.value _ _ _ _ (hcomp.note c a.kind) hnext hrun
          have hnoteExt : Ext t.toDb (noteConsumed c a.kind t).toDb := by
            rw [noteConsumed_rest]
            exact ⟨rfl, rfl, rfl, fun _ _ => ⟨rfl, rfl⟩, fun _ hp => hp, fun _ hp => hp, fun _ => .of_slot rfl⟩
          rw [hcurrent] at hcomp' ho
          refine ⟨top'', hcomp', (hext.trans hnoteExt).trans hext', ?_⟩
          rw [ho, hval]
          rfl

/-- What the computation of `q` leaves alone besides `q` itself. -/
structure Closes (s s' : Db V F) (q : Query) : Prop where
  current : s'.current = s.current
  request : s'.request = s.request
  lastChanged : s'.lastChanged = s.lastChanged
  running : ∀ p, p ≠ q → (s.slots p).state = .running → s'.slots p = s.slots p ∧ s'.columns p = s.columns p
  noNew : ∀ p, (s'.slots p).state = .running → (s.slots p).state = .running ∧ p ≠ q
  fresh : ∀ p, p ≠ q → Fresh s p → Fresh s' p
  settled : ∀ p, p ≠ q → FreshOrKept s s' p

theorem Closes.after {t u : Db V F} (h : Closes t u q) (hext : Ext s.toDb t) : Closes s.toDb u q where
  current := h.current.trans hext.current
  request := h.request.trans hext.request
  lastChanged := h.lastChanged.trans hext.lastChanged
  running p hp hrun := by
    obtain ⟨hslot, hcol⟩ := hext.running p hrun
    obtain ⟨hslot', hcol'⟩ := h.running p hp (hslot ▸ hrun)
    exact ⟨hslot'.trans hslot, hcol'.trans hcol⟩
  noNew p hp := by
    obtain ⟨hrun, hne⟩ := h.noNew p hp
    exact ⟨hext.noNew p hrun, hne⟩
  fresh p hp hfresh := h.fresh p hp (hext.fresh p hfresh)
  settled p hp := (hext.settled p).trans (h.settled p hp) (h.fresh p hp)

theorem Computing.memo (h : Computing fam ranks hist s q top rest (readsAt fam ranks hist s.current q))
    (hq : q.kind.isInput = false) {o : Outcome V} (ho : evalAt fam ranks hist s.current q = o) (slot : Slot F)
    (state : QueryState) :
    Memo fam ranks hist s.current q o (settledSlot slot top state (fpOf fam q o) s.current) where
  result := ho
  fp := rfl
  reads := h.recorded
  ordered := h.ordered
  fps := h.fps
  bound i hi := by
    cases hi with
    | input hin => simp [system, hq] at hin
    | read _ hc hne hi =>
        obtain ⟨hset, hlow⟩ := h.low _ hc hne
        simpa [settledSlot, frameTier, hset] using hlow i hi

theorem Computing.settled (h : Computing fam ranks hist s q top rest (readsAt fam ranks hist s.current q))
    (hq : q.kind.isInput = false) {o : Outcome V} (ho : evalAt fam ranks hist s.current q = o) (state : QueryState)
    (s' : Db V F) (hslot : s'.slots q = settledSlot (s.slots q) top state (fpOf fam q o) s.current)
    (hstate : state = .error ∧ o = .failed ∨ state = .done ∧ o = .ok (s'.columns q))
    (hother : ∀ p, p ≠ q → s'.slots p = s.slots p ∧ s'.columns p = s.columns p)
    (hcurrent : s'.current = s.current) (hrequest : s'.request = s.request)
    (hchanged : s'.lastChanged = s.lastChanged) (hcancel : s'.cancelIn = s.cancelIn) (hscc : s'.scc = s.scc) :
    Sound fam ranks hist s' ∧ Closes s.toDb s' q ∧ Fresh s' q ∧ outcome s' q = o := by
  have hsettled : (s'.slots q).state = .done ∨ (s'.slots q).state = .error := by
    rw [hslot]
    rcases hstate with ⟨rfl, -⟩ | ⟨rfl, -⟩ <;> simp [settledSlot]
  have hout : outcome s' q = o := by
    rcases hstate with ⟨rfl, rfl⟩ | ⟨rfl, rfl⟩ <;> simp [outcome, hslot, settledSlot]
  have hrev : (s'.slots q).verifiedRev = s.current := by simp [hslot, settledSlot]
  refine ⟨?_, ⟨hcurrent, hrequest, hchanged, ?_, ?_, ?_, ?_⟩, ⟨hsettled, by rw [hrev, hcurrent]⟩, hout⟩
  · refine h.sound.replace hcurrent hrequest hchanged hcancel hscc hother ?_ ?_ ?_ ?_ ?_
    · rw [hslot]
      exact h.sound.provisional q
    · intro _
      have hloc := h.sound.located q (by simp [h.state])
      simpa [isLocated, hslot, settledSlot] using hloc
    · intro hempty
      rcases hsettled with hs | hs <;> simp [hs] at hempty
    · intro hin
      simp [hq] at hin
    · intro _ _
      rw [hrev, hout, hslot]
      exact ⟨Nat.le_refl _, h.memo hq ho _ _⟩
  · intro p hp _
    exact hother p hp
  · intro p hp
    by_cases hpq : p = q
    · subst hpq
      rcases hsettled with hs | hs <;> simp [hs] at hp
    · rw [(hother p hpq).1] at hp
      exact ⟨hp, hpq⟩
  · intro p hp hfresh
    simpa [Fresh, Settled, (hother p hp).1, hcurrent] using hfresh
  · intro p hp
    exact .of_slot (hother p hp).1

theorem compute_spec (hfam : LawfulAt fam ranks hist) (hpull : PullSpec fam ranks hist pull)
    (h : Computing fam ranks hist s q top rest []) (hq : q.kind.isInput = false) {a : Answer V}
    (hrun : compute fam pull q s = some (a, s')) :
    Sound fam ranks hist s'.toDb ∧ LogOk fam ranks hist s'.log ∧ Closes s.toDb s'.toDb q ∧ Fresh s'.toDb q ∧
      outcome s'.toDb q = evalAt fam ranks hist s.current q ∧
      a.value = (system fam).answer q (evalAt fam ranks hist s.current q) ∧
      (s'.stack = recordTop rest q (s'.slots q).fingerprint (s'.slots q).durability ∨
        s'.stack = rest ∧ CanFail (fam.body q)) := by
  have heval : evalAt fam ranks hist s.current q =
      Tasks.run ((system fam).ask (ranks s.current) (hist s.current).value q) (fam.body q) :=
    System.eval_body (hfam.ranked s.current) (show (system fam).isInput q = false from hq)
  unfold compute at hrun
  cases hbody : runBody pull (fam.body q) false s with
  | none => simp [hbody] at hrun
  | some res =>
      obtain ⟨o, tainted, t⟩ := res
      obtain ⟨top', hcomp, hext, ho⟩ := runBody_spec hfam hpull _ _ _ _ _ h (.start hq) hbody
      rw [← heval] at ho
      rw [← hext.current] at hcomp
      have ho' : evalAt fam ranks hist t.current q = o := by rw [hext.current, ho]
      rw [hbody] at hrun
      cases o with
      | failed =>
          simp only [Option.some.injEq, Prod.mk.injEq] at hrun
          obtain ⟨rfl, rfl⟩ := hrun
          have hfail := queryFail_eq (q := q) hcomp.stack hcomp.sound.cancel
          obtain ⟨hsound, hclose, hfresh, hout⟩ := hcomp.settled hq ho' .error (queryFail q t).toDb
            (by simp [hfail, fpOf]) (.inl ⟨rfl, rfl⟩)
            (fun p hp => ⟨by simp [hfail, hp], by simp [hfail]⟩) (by rw [hfail]) (by rw [hfail]) (by rw [hfail])
            (by rw [hfail]) (by rw [hfail])
          refine ⟨hsound, ?_, hclose.after hext, hfresh, hout.trans ho, by rw [← ho]; rfl, .inr ⟨by rw [hfail], ?_⟩⟩
          · rw [hfail]
            exact hcomp.log.emit trivial
          · exact canFail_of_failed hfam ho'
      | ok v =>
          have hprov : fixpointEnrolled (t.writeColumn q v tainted).toDb q = false := hcomp.sound.provisional q
          simp only [hprov, Bool.false_eq_true, and_false, if_false, Option.some.injEq, Prod.mk.injEq] at hrun
          obtain ⟨rfl, rfl⟩ := hrun
          have hsucc := querySucceed_eq (s := t.writeColumn q v tainted) q (fam.fingerprint q v)
            hcomp.stack hcomp.sound.cancel
          obtain ⟨hsound, hclose, hfresh, hout⟩ := hcomp.settled hq ho' .done
            (querySucceed q (fam.fingerprint q v) (t.writeColumn q v tainted)).toDb
            (by rw [hsucc]; simp [fpOf, State.writeColumn]) (.inr ⟨rfl, by rw [hsucc]; simp [State.writeColumn]⟩)
            (fun p hp => ⟨by rw [hsucc]; simp [hp, State.writeColumn], by rw [hsucc]; simp [hp, State.writeColumn]⟩)
            (by rw [hsucc]; rfl) (by rw [hsucc]; rfl) (by rw [hsucc]; rfl) (by rw [hsucc]; rfl) (by rw [hsucc]; rfl)
          refine ⟨hsound, ?_, hclose.after hext, hfresh, hout.trans ho, by rw [← ho]; rfl, .inl ?_⟩
          · rw [hsucc]
            exact hcomp.log.emit trivial
          · rw [hsucc]
            simp [settledSlot]

/-- `t` is `s` with the slot of `q` running and work done below it. -/
structure Opens (s t : Db V F) (q : Query) : Prop where
  current : t.current = s.current
  request : t.request = s.request
  lastChanged : t.lastChanged = s.lastChanged
  state : (t.slots q).state = .running
  running : ∀ p, p ≠ q → (s.slots p).state = .running → t.slots p = s.slots p ∧ t.columns p = s.columns p
  noNew : ∀ p, (t.slots p).state = .running → p = q ∨ (s.slots p).state = .running
  fresh : ∀ p, p ≠ q → Fresh s p → Fresh t p
  settled : ∀ p, p ≠ q → FreshOrKept s t p

theorem opened_opens (s : State V F) (q : Query) : Opens s.toDb (opened s q).toDb q where
  current := rfl
  request := rfl
  lastChanged := rfl
  state := by rw [opened_slot]
  running p hp _ := ⟨opened_ne s hp, rfl⟩
  noNew p hp := by
    by_cases hpq : p = q
    · exact .inl hpq
    · rw [opened_ne s hpq] at hp
      exact .inr hp
  fresh p hp hfresh := by simpa [Fresh, Settled, opened_ne s hp] using hfresh
  settled p hp := .of_slot (opened_ne s hp)

theorem Opens.trans {t u : Db V F} (h : Opens s.toDb t q) (hext : Ext t u) : Opens s.toDb u q where
  current := hext.current.trans h.current
  request := hext.request.trans h.request
  lastChanged := hext.lastChanged.trans h.lastChanged
  state := by rw [(hext.running q h.state).1, h.state]
  running p hp hrun := by
    obtain ⟨hslot, hcol⟩ := h.running p hp hrun
    obtain ⟨hslot', hcol'⟩ := hext.running p (hslot ▸ hrun)
    exact ⟨hslot'.trans hslot, hcol'.trans hcol⟩
  noNew p hp := h.noNew p (hext.noNew p hp)
  fresh p hp hfresh := hext.fresh p (h.fresh p hp hfresh)
  settled p hp := (h.settled p hp).trans (hext.settled p) (hext.fresh p)

theorem Opens.closes {t u : Db V F} (h : Opens s.toDb t q) (hclose : Closes t u q) (hfresh : Fresh u q)
    (hidle : (s.slots q).state ≠ .running) : Ext s.toDb u where
  current := hclose.current.trans h.current
  request := hclose.request.trans h.request
  lastChanged := hclose.lastChanged.trans h.lastChanged
  running p hrun := by
    have hp : p ≠ q := by
      rintro rfl
      exact hidle hrun
    obtain ⟨hslot, hcol⟩ := h.running p hp hrun
    obtain ⟨hslot', hcol'⟩ := hclose.running p hp (hslot ▸ hrun)
    exact ⟨hslot'.trans hslot, hcol'.trans hcol⟩
  noNew p hp := by
    obtain ⟨hrun, hpq⟩ := hclose.noNew p hp
    exact (h.noNew p hrun).resolve_left hpq
  fresh p hp := by
    by_cases hpq : p = q
    · exact hpq ▸ hfresh
    · exact hclose.fresh p hpq (h.fresh p hpq hp)
  settled p := by
    by_cases hpq : p = q
    · exact fun _ => .inl (hpq ▸ hfresh)
    · exact (h.settled p hpq).trans (hclose.settled p hpq) (hclose.fresh p hpq)

theorem Opens.tiers {t : Db V F} (h : Opens s.toDb t q) (hheld : TiersHeldBelow fam ranks hist s.toDb q) :
    TiersHeldBelow fam ranks hist t q := by
  refine hheld.kept h.current fun p => ?_
  by_cases hp : p = q
  · intro hset
    simp [Settled, hp, h.state] at hset
  · exact h.settled p hp

theorem computing_start (hpre : Pre fam ranks hist s q) {t : State V F} (hsound : Sound fam ranks hist t.toDb)
    (hlog : LogOk fam ranks hist t.log) (hopens : Opens s.toDb t.toDb q) (hstack : t.stack = top :: rest)
    (hdeps : top.deps = []) : Computing fam ranks hist t q top rest [] := by
  have hnil : names top = [] := by simp [names, hdeps]
  refine ⟨hsound, hlog, hstack, hopens.state, ?_, ?_, ?_, by simp [hnil], hnil ▸ .nil q [], by simp [hdeps], by simp⟩
  · intro p hp
    rw [hopens.current]
    rcases hopens.noNew p hp with rfl | hp
    · exact Nat.le_refl _
    · exact Nat.le_of_lt (hpre.running p hp)
  · intro c hne hc hfail
    exact hopens.fresh c hne (hpre.failures c hne (hopens.current ▸ hc) hfail)
  · exact hopens.tiers hpre.tiers

theorem post_of_compute (hfam : LawfulAt fam ranks hist) (hpull : PullSpec fam ranks hist pull)
    (hpre : Pre fam ranks hist s q)
    (hq : q.kind.isInput = false) (hstale : ¬ Fresh s.toDb q) {u : State V F} (hopens : Opens s.toDb u.toDb q)
    (hcomp : Computing fam ranks hist u q top s.stack []) {a : Answer V} (hrun : compute fam pull q u = some (a, s')) :
    Post fam ranks hist s q a s' := by
  obtain ⟨hsound, hlog, hclose, hfresh, hout, hval, hstack⟩ := compute_spec hfam hpull hcomp hq hrun
  rw [hopens.current] at hout hval
  refine ⟨hsound, hlog, hopens.closes hclose hfresh hpre.idle, hval, hfresh, hout, ?_⟩
  rcases hstack with hstack | ⟨hstack, hfail⟩
  · exact .inl hstack
  · exact .inr ⟨hstack, hfail, hstale⟩

theorem post_of_accept (hpre : Pre fam ranks hist s q) (hq : q.kind.isInput = false) (hset : Settled s.toDb q)
    {t u : State V F} (ht : u = t ∨ u = t.modifySlot q fun slot => { slot with verifiedRev := s.current })
    (hsound : Sound fam ranks hist t.toDb) (hlog : LogOk fam ranks hist t.log) (hext : Ext (opened s q).toDb t.toDb)
    (hstack : t.stack = top :: s.stack)
    (hmemo : Memo fam ranks hist s.current q (outcome s.toDb q) { s.slots q with deps := top.deps }) {a : Answer V}
    (hval : a.value = (system fam).answer q (outcome s.toDb q)) :
    Post fam ranks hist s q a (accept (s.slots q).state q u) := by
  have hopens := (opened_opens s q).trans hext
  have hrun : ((opened s q).slots q).state = .running := by rw [opened_slot]
  obtain ⟨hslot, hcol⟩ := hext.running q hrun
  rw [opened_slot] at hslot
  have hustack : u.stack = top :: s.stack := by rcases ht with rfl | rfl <;> exact hstack
  have hueff : effectiveRevision u.toDb = s.current := by
    have hpin := hsound.pinned
    rw [hopens.current] at hpin
    rcases ht with rfl | rfl <;> exact hpin
  have huslot : (accept (s.slots q).state q u).slots q =
      { s.slots q with
        verifiedRev := s.current, deps := top.deps, depIndex := top.depIndex, consumed := top.consumed } := by
    rw [accept_slot _ hustack, hueff]
    rcases ht with rfl | rfl <;> simp [hslot]
  have hother (p : Query) (hp : p ≠ q) : (accept (s.slots q).state q u).slots p = t.slots p := by
    rw [accept_ne _ hustack hp]
    rcases ht with rfl | rfl
    · rfl
    · exact modifySlot_ne _ _ hp
  obtain ⟨hcolumns, hcurrent, hrequest, hchanged, hcancel, hscc, hlogeq⟩ := accept_rest (s.slots q).state hustack
    (q := q)
  have hclock : u.columns = t.columns ∧ u.current = t.current ∧ u.request = t.request ∧
      u.lastChanged = t.lastChanged ∧ u.cancelIn = t.cancelIn ∧ u.scc = t.scc ∧ u.log = t.log := by
    rcases ht with rfl | rfl <;> exact ⟨rfl, rfl, rfl, rfl, rfl, rfl, rfl⟩
  obtain ⟨hcolumns', hcurrent', hrequest', hchanged', hcancel', hscc', hlogeq'⟩ := hclock
  have hout : outcome (accept (s.slots q).state q u).toDb q = outcome s.toDb q := by
    simp only [outcome, huslot, hcolumns, hcolumns', hcol]
    rfl
  have hfresh : Fresh (accept (s.slots q).state q u).toDb q := by
    refine ⟨?_, ?_⟩
    · simpa [Settled, huslot] using hset
    · rw [huslot, hcurrent, hcurrent', hopens.current]
  have hclose : Closes t.toDb (accept (s.slots q).state q u).toDb q := by
    refine ⟨hcurrent.trans hcurrent', hrequest.trans hrequest', hchanged.trans hchanged', ?_, ?_, ?_, ?_⟩
    · intro p hp _
      exact ⟨hother p hp, by rw [hcolumns, hcolumns']⟩
    · intro p hp
      by_cases hpq : p = q
      · subst hpq
        rw [huslot] at hp
        exact absurd hp hpre.idle
      · rw [hother p hpq] at hp
        exact ⟨hp, hpq⟩
    · intro p hp hf
      simpa [Fresh, Settled, hother p hp, hcurrent, hcurrent'] using hf
    · intro p hp
      exact .of_slot (hother p hp)
  have hloc : isLocated s.toDb q = true := hpre.sound.located q (by rcases hset with hs | hs <;> simp [hs])
  refine ⟨?_, by rw [hlogeq, hlogeq']; exact hlog, hopens.closes hclose hfresh hpre.idle, ?_, hfresh, ?_, .inl ?_⟩
  · refine hsound.replace (q := q) (hcurrent.trans hcurrent') (hrequest.trans hrequest') (hchanged.trans hchanged')
      (hcancel.trans hcancel') (hscc.trans hscc') ?_ ?_ ?_ ?_ ?_ ?_
    · intro p hp
      exact ⟨hother p hp, by rw [hcolumns, hcolumns']⟩
    · rw [huslot]
      exact hpre.sound.provisional q
    · intro _
      simpa [isLocated, huslot] using hloc
    · intro hempty
      rw [huslot] at hempty
      rcases hset with hs | hs <;> simp [hs] at hempty
    · intro hin
      simp [hq] at hin
    · intro _ _
      rw [hout, huslot, hopens.current]
      exact ⟨Nat.le_refl _, hmemo.withDeps rfl rfl (fun _ => Iff.rfl) hmemo.ordered hmemo.fps⟩
  · rw [hval, hmemo.result]
  · rw [hout, hmemo.result]
  · rw [accept_stack _ hustack, huslot]
    rcases ht with rfl | rfl <;> simp [hslot]

theorem Computing.emit (h : Computing fam ranks hist s q top rest seen) {e : Event V F}
    (he : EventOk fam ranks hist e) :
    Computing fam ranks hist (s.emit e) q top rest seen :=
  ⟨h.sound, h.log.emit he, h.stack, h.state, h.running, h.failures, h.tiers, h.recorded, h.ordered,
    h.fps, h.low⟩

theorem located_of_input (h : q.kind.isInput = true) : isLocated s.toDb q = true := by
  cases hk : q.kind <;> simp_all [QueryKind.isInput, isLocated, QueryKind.isHashRouted]

section Alloc

variable [Inhabited V]

theorem slotAlloc_sound (h : Sound fam ranks hist s.toDb) (q : Query) :
    Sound fam ranks hist (slotAlloc s q).toDb ∧ Ext s.toDb (slotAlloc s q).toDb ∧ (slotAlloc s q).stack = s.stack ∧
      (slotAlloc s q).log = s.log ∧ (slotAlloc s q).cancelIn = s.cancelIn ∧
        isLocated (slotAlloc s q).toDb q = true := by
  unfold slotAlloc
  split
  · rename_i hloc
    exact ⟨h, .refl _, rfl, rfl, rfl, hloc⟩
  · rename_i hloc
    have hempty : (s.slots q).state = .empty := by
      by_contra hstate
      exact hloc (h.located q hstate)
    have hq : q.kind.isInput = false := by
      by_contra hin
      exact hloc (located_of_input (by simpa using hin))
    have hother (p : Query) (hp : p ≠ q) :
        ((s.modifySlot q fun _ => { Slot.zero F with routed := true }).writeColumn q default false).slots p = s.slots
          p := by
      simp [State.writeColumn, State.modifySlot, hp]
    have hself : ((s.modifySlot q fun _ => { Slot.zero F with routed := true }).writeColumn q default false).slots q =
        { Slot.zero F with routed := true } := by
      simp [State.writeColumn, State.modifySlot]
    generalize hu : (s.modifySlot q fun _ => { Slot.zero F with routed := true }).writeColumn q default false = u
      at hother hself ⊢
    have hrest : u.current = s.current ∧ u.request = s.request ∧ u.lastChanged = s.lastChanged ∧
        u.cancelIn = s.cancelIn ∧ u.scc = s.scc ∧ u.log = s.log ∧ u.stack = s.stack ∧
        ∀ p, p ≠ q → u.columns p = s.columns p := by
      subst hu
      refine ⟨rfl, rfl, rfl, rfl, rfl, rfl, rfl, fun p hp => ?_⟩
      simp [State.writeColumn, State.modifySlot, hp]
    obtain ⟨hcur, hreq, hchg, hcan, hscc, hlog, hstack, hcol⟩ := hrest
    have hext : Ext s.toDb u.toDb := by
      refine ⟨hcur, hreq, hchg, ?_, ?_, ?_, ?_⟩
      · intro p hp
        have hpq : p ≠ q := by
          rintro rfl
          simp [hempty] at hp
        exact ⟨hother p hpq, hcol p hpq⟩
      · intro p hp
        by_cases hpq : p = q
        · subst hpq
          simp [hself, Slot.zero] at hp
        · rwa [hother p hpq] at hp
      · intro p hp
        by_cases hpq : p = q
        · subst hpq
          rcases hp.1 with hs | hs <;> simp [hempty] at hs
        · simpa [Fresh, Settled, hother p hpq, hcur] using hp
      · intro p
        by_cases hpq : p = q
        · intro hset
          simp [Settled, hpq, hself, Slot.zero] at hset
        · exact .of_slot (hother p hpq)
    have hloc' : isLocated u.toDb q = true := by simp [isLocated, hself]
    refine ⟨?_, hext, hstack, hlog, hcan, hloc'⟩
    refine h.replace (q := q) hcur hreq hchg hcan hscc (fun p hp => ⟨hother p hp, hcol p hp⟩) ?_
      (fun _ => hloc') ?_ ?_ ?_
    · simp [hself, Slot.zero]
    · intro _
      simp [hself, Slot.zero]
    · intro hin
      simp [hq] at hin
    · intro _ hset
      simp [Settled, hself, Slot.zero] at hset

theorem slotAlloc_spec (hpre : Pre fam ranks hist s q) :
    Pre fam ranks hist (slotAlloc s q) q ∧ Ext s.toDb (slotAlloc s q).toDb ∧ (slotAlloc s q).stack = s.stack ∧
      isLocated (slotAlloc s q).toDb q = true ∧ (Fresh s.toDb q → Fresh (slotAlloc s q).toDb q) := by
  obtain ⟨hsound, hext, hstack, hlog, -, hloc⟩ := slotAlloc_sound hpre.sound q
  exact ⟨⟨hsound, hlog ▸ hpre.log, fun p hp => hext.current ▸ hpre.running p (hext.noNew p hp),
    hpre.failures.ext hext, hpre.tiers.ext hext⟩, hext, hstack,
    hloc, hext.fresh q⟩

theorem Post.alloc {a : Answer V} (hpre : Pre fam ranks hist s q) (h : Post fam ranks hist (slotAlloc s q) q a s') :
    Post fam ranks hist s q a s' := by
  obtain ⟨-, hext, hstack, -, hfresh⟩ := slotAlloc_spec hpre
  refine ⟨h.sound, h.log, hext.trans h.ext, by rw [h.value, hext.current], h.fresh, by rw [h.outcome, hext.current], ?_⟩
  rw [← hstack]
  rcases h.stack with hs | ⟨hs, hfail, hstale⟩
  · exact .inl hs
  · exact .inr ⟨hs, hfail, fun hf => hstale (hfresh hf)⟩

end Alloc

variable [DecidableEq F]

theorem engineVerify_input (fam : Family V F) (ranks : Nat → Query → Nat) (hist : Nat → Inputs V)
    (hdeps : (s.slots q).deps = []) {b : Bool}
    (hrun : engineVerify pull q (opened s q) = some (b, s')) :
    b = true ∧ ∃ log, (s'.log = s.log ++ log ∧ ∀ e ∈ log, EventOk fam ranks hist e) ∧
      (∀ p, p ≠ q → s'.slots p = s.slots p) ∧
      (∃ rev, s'.slots q = { s.slots q with state := .running, verifiedRev := rev }) ∧
      s'.stack = openedFrame s q :: s.stack ∧ s'.columns = s.columns ∧ s'.current = s.current ∧
      s'.request = s.request ∧ s'.lastChanged = s.lastChanged ∧ s'.cancelIn = s.cancelIn ∧ s'.scc = s.scc := by
  have hslot := opened_slot s q
  have hframe : (openedFrame s q).deps = [] := hdeps
  simp only [engineVerify, opened_stack, List.head?_cons, Option.map_some, Option.getD_some, hframe, List.length_nil,
    verifyWalk] at hrun
  split at hrun
  · simp only [Option.some.injEq, Prod.mk.injEq] at hrun
    obtain ⟨rfl, rfl⟩ := hrun
    exact ⟨rfl, [], ⟨by simp [opened, queryStackPush, State.modifySlot], by simp⟩, fun p hp => opened_ne s hp,
      ⟨_, hslot⟩, opened_stack s q, rfl, rfl, rfl, rfl, rfl, rfl⟩
  split at hrun
  · simp only [Option.some.injEq, Prod.mk.injEq] at hrun
    obtain ⟨rfl, rfl⟩ := hrun
    refine ⟨rfl, [.skipped q (opened s q).toDb], ⟨rfl, ?_⟩, ?_, ⟨effectiveRevision (opened s q).toDb, ?_⟩,
      opened_stack s q, rfl, rfl, rfl, rfl, rfl, rfl⟩
    · intro e he
      rw [List.mem_singleton.mp he]
      exact .inl (by rw [hslot]; exact hdeps)
    · intro p hp
      rw [modifySlot_ne _ _ hp]
      exact opened_ne s hp
    · rw [modifySlot_self]
      simp [State.emit, hslot]
  · simp only [Option.some.injEq, Prod.mk.injEq] at hrun
    obtain ⟨rfl, rfl⟩ := hrun
    refine ⟨rfl, [], ⟨by simp [opened, queryStackPush, State.modifySlot], by simp⟩, ?_,
      ⟨effectiveRevision (opened s q).toDb, ?_⟩, opened_stack s q, rfl, rfl, rfl, rfl, rfl, rfl⟩
    · intro p hp
      rw [modifySlot_ne _ _ hp]
      exact opened_ne s hp
    · rw [modifySlot_self, hslot]

theorem post_of_input (hpre : Pre fam ranks hist s q) (hin : q.kind.isInput = true)
    (hslot : InputSlot fam hist s.toDb q)
    {b : Bool} {u : State V F} (hrun : engineVerify pull q (opened s q) = some (b, u)) :
    b = true ∧ Post fam ranks hist s q ⟨(accept .done q u).columns q, .cached⟩ (accept .done q u) := by
  obtain ⟨rfl, log, ⟨hlog, hevents⟩, hne, ⟨rev, hself⟩, hstack, hcol, hcur, hreq, hchg, hcan, hscc⟩ :=
    engineVerify_input fam ranks hist hslot.deps hrun
  have heff : effectiveRevision u.toDb = s.current := by
    have hpin := hpre.sound.pinned
    simpa [effectiveRevision, hcur, hreq] using hpin
  have huslot : (accept .done q u).slots q = { s.slots q with verifiedRev := s.current } := by
    rw [accept_slot _ hstack, heff, hself]
    simp [openedFrame, hslot.state]
  have hother (p : Query) (hp : p ≠ q) : (accept .done q u).slots p = s.slots p := by
    rw [accept_ne _ hstack hp, hne p hp]
  obtain ⟨hcol', hcur', hreq', hchg', hcan', hscc', hlog'⟩ := accept_rest .done hstack (q := q)
  have heval : evalAt fam ranks hist s.current q = .ok (s.columns q) := by
    rw [evalAt, System.eval_input (system fam) hin, hpre.sound.content q hin]
  have hfresh : Fresh (accept .done q u).toDb q := by
    refine ⟨.inl ?_, ?_⟩
    · rw [huslot, hslot.state]
    · rw [huslot, hcur', hcur]
  refine ⟨rfl, ?_, ?_, ⟨hcur'.trans hcur, hreq'.trans hreq, hchg'.trans hchg, ?_, ?_, ?_, ?_⟩, ?_, hfresh, ?_,
    .inl ?_⟩
  · refine hpre.sound.replace (q := q) (hcur'.trans hcur) (hreq'.trans hreq) (hchg'.trans hchg) (hcan'.trans hcan)
      (hscc'.trans hscc) ?_ ?_ ?_ ?_ ?_ ?_
    · intro p hp
      exact ⟨hother p hp, by rw [hcol', hcol]⟩
    · rw [huslot]
      exact hpre.sound.provisional q
    · intro _
      exact located_of_input hin
    · intro hempty
      simp [huslot, hslot.state] at hempty
    · intro _
      exact ⟨⟨by rw [huslot, hslot.state], by rw [huslot, hcol', hcol, hslot.fp],
        by rw [huslot, hcur', hcur, hslot.durability], by rw [huslot, hslot.deps]⟩, by rw [hcol', hcol]⟩
    · intro hder
      simp [hin] at hder
  · rw [hlog', hlog]
    intro e he
    rcases List.mem_append.mp he with he | he
    · exact hpre.log e he
    · exact hevents e he
  · intro p hp
    have hpq : p ≠ q := by
      rintro rfl
      simp [hslot.state] at hp
    exact ⟨hother p hpq, by rw [hcol', hcol]⟩
  · intro p hp
    by_cases hpq : p = q
    · subst hpq
      simp [huslot, hslot.state] at hp
    · rwa [hother p hpq] at hp
  · intro p hp
    by_cases hpq : p = q
    · exact hpq ▸ hfresh
    · simpa [Fresh, Settled, hother p hpq, hcur', hcur] using hp
  · intro p
    by_cases hpq : p = q
    · exact fun _ => .inl (hpq ▸ hfresh)
    · exact .of_slot (hother p hpq)
  · rw [heval, hcol', hcol]
    rfl
  · rw [heval, outcome, huslot, hslot.state, hcol', hcol]
    rfl
  · rw [accept_stack _ hstack, huslot, hself]

/-- What a settled derived query answers, whether verified or recomputed. -/
theorem revalidate_spec (hfam : LawfulAt fam ranks hist) (hpull : PullSpec fam ranks hist pull)
    (hpre : Pre fam ranks hist s q) (hq : q.kind.isInput = false) (hset : Settled s.toDb q) {hit r : BeginResult}
    (hrun : revalidate pull (s.slots q).state hit q s = some (r, s')) :
    (r = hit ∧ (s'.slots q).state = (s.slots q).state ∧
        ∀ a : Answer V, a.value = (system fam).answer q (outcome s.toDb q) → Post fam ranks hist s q a s') ∨
      (r = .compute ∧ ¬ Fresh s.toDb q ∧ Opens s.toDb s'.toDb q ∧
        ∃ top, Computing fam ranks hist s' q top s.stack []) := by
  rw [revalidate_eq] at hrun
  cases hver : engineVerify pull q (opened s q) with
  | none => simp [hver] at hrun
  | some res =>
      obtain ⟨b, u⟩ := res
      obtain ⟨t, top, ht, hsound, hlog, hext, hstack, hreject, haccept⟩ :=
        engineVerify_spec hfam hpull hpre hq hset hver
      rw [hver] at hrun
      cases b with
      | true =>
          simp only [Option.some.injEq, Prod.mk.injEq] at hrun
          obtain ⟨rfl, rfl⟩ := hrun
          have hustack : u.stack = top :: s.stack := by rcases ht with rfl | rfl <;> exact hstack
          exact .inl ⟨rfl, by rw [accept_slot _ hustack],
            fun a ha => post_of_accept hpre hq hset ht hsound hlog hext hstack (haccept rfl) ha⟩
      | false =>
          simp only [Option.some.injEq, Prod.mk.injEq] at hrun
          obtain ⟨rfl, rfl⟩ := hrun
          obtain ⟨rfl, hstale⟩ := hreject rfl
          have hopens := (opened_opens s q).trans hext
          obtain ⟨hcol, hcur, hreq, hchg, hcan, hscc, hlog'⟩ := reject_rest u q
          have hopens' : Opens s.toDb (reject q u).toDb q := by
            refine ⟨hcur.trans hopens.current, hreq.trans hopens.request, hchg.trans hopens.lastChanged, ?_, ?_, ?_, ?_,
              ?_⟩
            · rw [reject_slot]
              exact hopens.state
            · intro p hp hrun
              rw [reject_ne u hp, hcol]
              exact hopens.running p hp hrun
            · intro p hp
              by_cases hpq : p = q
              · exact .inl hpq
              · rw [reject_ne u hpq] at hp
                exact hopens.noNew p hp
            · intro p hp hf
              have := hopens.fresh p hp hf
              simpa [Fresh, Settled, reject_ne u hp, hcur] using this
            · intro p hp
              refine (hopens.settled p hp).trans (.of_slot (reject_ne u hp)) fun hf => ?_
              simpa [Fresh, Settled, reject_ne u hp, hcur] using hf
          have hsound' : Sound fam ranks hist (reject q u).toDb := by
            have hloc := hsound.located q (by simp [hopens.state])
            refine hsound.replace (q := q) hcur hreq hchg hcan hscc ?_ ?_ ?_ ?_ ?_ ?_
            · intro p hp
              exact ⟨reject_ne u hp, by rw [hcol]⟩
            · rw [reject_slot]
              exact hsound.provisional q
            · intro _
              simpa [isLocated, reject_slot] using hloc
            · intro _
              rw [reject_slot]
            · intro hin
              simp [hq] at hin
            · intro _ hs
              simp [Settled, reject_slot, hopens.state] at hs
          exact .inr ⟨rfl, hstale, hopens', _,
            computing_start hpre hsound' (by rw [hlog']; exact hlog) hopens' (reject_stack hstack) rfl⟩

theorem demandWith_compute (hfam : LawfulAt fam ranks hist) (hpull : PullSpec fam ranks hist pull)
    (hpre : Pre fam ranks hist s q)
    (hq : q.kind.isInput = false) (hstale : ¬ Fresh s.toDb q) {u : State V F} (hopens : Opens s.toDb u.toDb q)
    (hcomp : Computing fam ranks hist u q top s.stack []) {a : Answer V}
    (hrun : computeAndDrive fam pull q (u.emit (.answered q .compute u.toDb)) = some (a, s')) :
    Post fam ranks hist s q a s' := by
  unfold computeAndDrive at hrun
  cases hc : compute fam pull q (u.emit (.answered q .compute u.toDb)) with
  | none => simp [hc] at hrun
  | some res =>
      obtain ⟨a', t⟩ := res
      have hpost := post_of_compute hfam hpull hpre hq hstale (u := u.emit (.answered q .compute u.toDb)) hopens
        (hcomp.emit trivial) hc
      have hroot : fixpointIsRoot t.toDb q = false := by simp [fixpointIsRoot, hpost.sound.scc]
      simp only [hc, hroot, Bool.false_eq_true, and_false, if_false, Option.some.injEq, Prod.mk.injEq] at hrun
      obtain ⟨rfl, rfl⟩ := hrun
      exact hpost

variable [Inhabited V]

theorem demandWith_spec (hfam : LawfulAt fam ranks hist) (hpull : PullSpec fam ranks hist pull)
    (hpre : Pre fam ranks hist s q) {a : Answer V} (hrun : demandWith fam pull q s = some (a, s')) :
    Post fam ranks hist s q a s' := by
  obtain ⟨hpre', hext, hstack, hloc, -⟩ := slotAlloc_spec hpre
  refine Post.alloc hpre ?_
  unfold demandWith at hrun
  generalize slotAlloc s q = t at hpre' hloc hrun ⊢
  have hcancel : checkCancel t = (false, t) := by simp [checkCancel, hpre'.sound.cancel]
  unfold queryBegin at hrun
  simp only [hcancel, Bool.false_eq_true, if_false] at hrun
  cases hstate : (t.slots q).state with
  | running => exact absurd hstate hpre'.idle
  | empty =>
      simp only [beginSlot, hstate, answerOf] at hrun
      by_cases hin : q.kind.isInput = true
      · simp [hin] at hrun
      · have hq : q.kind.isInput = false := by simpa using hin
        simp only [hq, Bool.false_eq_true, if_false] at hrun
        have hopens := opened_opens t q
        have hcomp := computing_start hpre' (opened_sound hpre'.sound hq hloc) hpre'.log hopens (opened_stack t q)
          (hpre'.sound.unused q hstate)
        refine demandWith_compute hfam hpull hpre' hq ?_ (u := trackRunning (opened t q) q)
          ⟨hopens.current, hopens.request, hopens.lastChanged, hopens.state, hopens.running, hopens.noNew, hopens.fresh,
            hopens.settled⟩
          ⟨hcomp.sound.anyStack _ _ t.tainted, hcomp.log, hcomp.stack, hcomp.state, hcomp.running, hcomp.failures,
            hcomp.tiers, hcomp.recorded, hcomp.ordered, hcomp.fps, hcomp.low⟩ hrun
        rintro ⟨hs | hs, -⟩ <;> simp [hstate] at hs
  | done =>
      simp only [beginSlot, hstate] at hrun
      by_cases hin : q.kind.isInput = true
      · obtain hempty | hslot := hpre'.sound.input q hin
        · simp [hstate] at hempty
        · rw [revalidate_eq] at hrun
          cases hver : engineVerify pull q (opened t q) with
          | none => simp [hver] at hrun
          | some res =>
              obtain ⟨b, u⟩ := res
              obtain ⟨rfl, hpost⟩ := post_of_input hpre' hin hslot hver
              simp only [hver, answerOf, Option.some.injEq, Prod.mk.injEq] at hrun
              obtain ⟨rfl, rfl⟩ := hrun
              exact hpost.emit (hpost.slotEvent (.inl rfl))
      · have hq : q.kind.isInput = false := by simpa using hin
        have hset : Settled t.toDb q := .inl hstate
        cases hrev : revalidate pull .done .cached q t with
        | none => simp [hrev] at hrun
        | some res =>
            obtain ⟨r, u⟩ := res
            simp only [hrev] at hrun
            rw [← hstate] at hrev
            rcases revalidate_spec hfam hpull hpre' hq hset
              hrev with ⟨rfl, hst, hpost⟩ | ⟨rfl, hstale, hopens, top, hcomp⟩
            · simp only [answerOf, Option.some.injEq, Prod.mk.injEq] at hrun
              obtain ⟨rfl, rfl⟩ := hrun
              have hany := hpost ⟨_, .cached⟩ rfl
              refine Post.emit ⟨hany.sound, hany.log, hany.ext, ?_, hany.fresh, hany.outcome, hany.stack⟩
                (hany.slotEvent (.inl rfl))
              rw [← hany.outcome, outcome, hst, hstate]
              rfl
            · simp only [answerOf, hq, Bool.false_eq_true, if_false] at hrun
              exact demandWith_compute hfam hpull hpre' hq hstale hopens hcomp hrun
  | error =>
      have hq : q.kind.isInput = false := by
        by_contra hin
        rcases hpre'.sound.input q (by simpa using hin) with hs | hs
        · simp [hstate] at hs
        · simp [hs.state] at hstate
      simp only [beginSlot, hstate] at hrun
      have hset : Settled t.toDb q := .inr hstate
      cases hrev : revalidate pull .error .error q t with
      | none => simp [hrev] at hrun
      | some res =>
          obtain ⟨r, u⟩ := res
          simp only [hrev] at hrun
          rw [← hstate] at hrev
          rcases revalidate_spec hfam hpull hpre' hq hset
            hrev with ⟨rfl, -, hpost⟩ | ⟨rfl, hstale, hopens, top, hcomp⟩
          · simp only [answerOf, Option.some.injEq, Prod.mk.injEq] at hrun
            obtain ⟨rfl, rfl⟩ := hrun
            have hany := hpost ⟨fam.onError q, .cachedError⟩ (by simp [outcome, hstate, System.answer, system])
            exact hany.emit (hany.slotEvent (.inr rfl))
          · simp only [answerOf, hq, Bool.false_eq_true, if_false] at hrun
            exact demandWith_compute hfam hpull hpre' hq hstale hopens hcomp hrun

/-- Nested to any depth, a demand that returns gives the result from scratch. -/
theorem demand_spec (hfam : LawfulAt fam ranks hist) (depth : Nat) :
    PullSpec fam ranks hist (demand fam depth) := by
  induction depth with
  | zero => exact ⟨fun _ _ _ _ h => by simp [demand] at h, fun _ _ _ _ h => by simp [demand] at h⟩
  | succ depth ih =>
      refine ⟨fun q s a s' hrun hpre => demandWith_spec hfam ih hpre hrun, ?_⟩
      intro q s a s' hrun hsound hstate hkind
      have halloc : slotAlloc s q = s := by simp [slotAlloc, hsound.located q (by simp [hstate])]
      have hcancel : checkCancel s = (false, s) := by simp [checkCancel, hsound.cancel]
      simp only [demand, demandWith, halloc, queryBegin, beginSlot, answerOf, hcancel, Bool.false_eq_true, if_false,
        hstate, enterCycle, hkind,
        Option.some.injEq, Prod.mk.injEq] at hrun
      obtain ⟨rfl, rfl⟩ := hrun
      exact ⟨rfl, rfl⟩

end Ore.EngineDemand
