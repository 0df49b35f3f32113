import Ore.EngineDemand
import Ore.EngineCalm

namespace Ore.EngineTotal

open Tasks EngineModel EngineFacts EngineSound EngineNested EngineDemand EngineDiscipline EngineRecording EngineCalm

variable {V F : Type}

def Supplied (fam : Family V F) (s : Db V F) (q : Query) : Prop :=
  ∀ i, Relation.ReflTransGen (Calls fam) q i → i.kind.isInput = true → (s.slots i).state = .done

/-- A pull that returns for the queries below a rank. -/
structure PullTotal (fam : Family V F) (ranks : Nat → Query → Nat) (hist : Nat → Inputs V) (n : Nat) (pull : Pull V F) :
    Prop where
  call : ∀ q s, ranks s.current q < n → Pre fam ranks hist s q → Tracked s → Supplied fam s.toDb q →
    ∃ a s', pull q s = some (a, s')
  cycle : ∀ q s, Sound fam ranks hist s.toDb → (s.slots q).state = .running → q.kind.isFixpoint = false →
    ∃ a s', pull q s = some (a, s')

variable {fam : Family V F} {ranks : Nat → Query → Nat} {hist : Nat → Inputs V} {r n i : Nat} {q c : Query}
variable {pull : Pull V F} {s s' : State V F} {top : Frame F} {rest : List (Frame F)} {seen : List Query}

theorem Supplied.child (h : Supplied fam s.toDb q) (hc : Calls fam q c) : Supplied fam s.toDb c :=
  fun i hi => h i (.head hc hi)

theorem Supplied.passes (h : Supplied fam s.toDb q) (hpass : Passes s.toDb s'.toDb) : Supplied fam s'.toDb q :=
  fun i hi hin => hpass.inputs i id hin (h i hi hin)

section Bodies

variable (hfam : LawfulAt fam ranks hist) (hpull : PullSpec fam ranks hist pull)
  (hkeep : PullKept fam (fun _ => True) (fun _ => True) pull) (htotal : PullTotal fam ranks hist n pull)

include hfam hpull hkeep htotal

theorem runBody_total (p : Prog Query V) (b : Bool) (s : State V F) (top : Frame F) (seen : List Query)
    (h : Computing fam ranks hist s q top rest seen) (hkept : Tracked s) (hsup : Supplied fam s.toDb q)
    (hrank : ranks s.current q ≤ n) (hleft : Remains fam ranks hist s.current q seen p) :
    ∃ o b' s', runBody pull p b s = some (o, b', s') := by
  induction p generalizing b s top seen with
  | ret v => exact ⟨_, _, _, rfl⟩
  | fail => exact ⟨_, _, _, rfl⟩
  | demand c next ih =>
      have hc : ReadsOf fam ranks hist s.current q c := hleft.asked
      have hcall : ∃ a t, pull c s = some (a, t) := by
        by_cases hne : c = q
        · subst hne
          exact htotal.cycle c s h.sound h.state (hfam.selfBottom _ c hc)
        · exact htotal.call c s (Nat.lt_of_lt_of_le (rank_of_reads hfam hc hne) hrank) (h.pre hfam hc hne) hkept
            (hsup.child (calls_of_reads hc))
      obtain ⟨a, t, hcall⟩ := hcall
      obtain ⟨⟨top', hcomp⟩, hext, hval⟩ := h.answer hfam hpull hc hcall
      have hcurrent : (noteConsumed c a.kind t).current = s.current := by
        rw [noteConsumed_rest]
        exact hext.current
      have hnext := hleft.next hval
      rw [← hcurrent] at hnext hrank
      have hans := hkeep c s a t hcall hkept trivial fun _ _ _ => .inl trivial
      obtain ⟨hnote, hpass⟩ := EngineRecording.Answered.note hans h.stack
      obtain ⟨o, b', s', hrun⟩ := ih a.value (b || a.kind == .canceled) _ _ _ (hcomp.note c a.kind) hnote
        (hsup.passes hpass) hrank hnext
      refine ⟨o, b', s', ?_⟩
      simp only [runBody, hcall]
      exact hrun

variable [DecidableEq F]

theorem verifyWalk_total (m i : Nat) (s : State V F) (top : Frame F) (h : Verifying fam ranks hist s q top rest r i)
    (hkept : Tracked s) (hsup : Supplied fam s.toDb q) (hrank : ranks s.current q ≤ n)
      (hrows : i + m ≤ (names top).length) :
    ∃ b s', verifyWalk pull m i s = some (b, s') := by
  induction m generalizing i s top with
  | zero => exact ⟨_, _, rfl⟩
  | succ m ih =>
      have hi : i < top.deps.length := by
        simp only [names, List.length_map] at hrows
        omega
      have hdep : top.deps[i]? = some top.deps[i] := List.getElem?_eq_getElem hi
      have hmem : top.deps[i] ∈ top.deps := List.getElem_mem hi
      generalize top.deps[i] = dep at hdep hmem
      have hname : (names top)[i]? = some dep.query := by simp [names, hdep]
      obtain ⟨hread, hne⟩ := h.asked hname
      have hdisp : ∃ t, recomputeDispatch pull dep.query s = some t ∧ Tracked t ∧ Passes s.toDb t.toDb := by
        unfold recomputeDispatch
        split
        · exact ⟨s, rfl, hkept, .refl _⟩
        · obtain ⟨a, t, hcall⟩ := htotal.call dep.query s
            (Nat.lt_of_lt_of_le (rank_of_reads hfam hread hne) hrank) (h.pre hfam hname) hkept
              (hsup.child (calls_of_reads hread))
          have hans := hkeep dep.query s a t hcall hkept trivial fun _ _ _ => .inl trivial
          exact ⟨t, by rw [hcall]; rfl, hans.kept, hans.passes⟩
      obtain ⟨t, hdisp, hkept', hpass⟩ := hdisp
      obtain ⟨-, -, hext, hfresh, top', -, hgo⟩ := h.dispatch hfam hpull hdep hdisp
      simp only [verifyWalk, h.stack, List.head?_cons, Option.bind_some, hdep, hdisp]
      split
      · rename_i hok
        obtain ⟨hver, -, hrows'⟩ := hgo hok.2.1 hok.2.2
        have hevent : EventOk fam ranks hist (.compared dep s.toDb t.toDb) := fun _ _ => hfresh
        have hseen : Tracked (t.emit (.compared dep s.toDb t.toDb)) := emit_kept hkept' trivial
        apply ih (i + 1) _ top' (hver.emit hevent) hseen (hsup.passes hpass) (hext.current.symm ▸ hrank)
        have hlast : (names top)[i + m]? = some (names top)[i + m] := List.getElem?_eq_getElem (by omega)
        have := (List.getElem?_eq_some_iff.mp (hrows' _ _ hlast)).1
        omega
      · exact ⟨_, _, rfl⟩

theorem revalidate_total (hpre : Pre fam ranks hist s q) (hkept : Tracked s) (hsup : Supplied fam s.toDb q)
    (hrank : ranks s.current q ≤ n) (hq : q.kind.isInput = false) (hset : Settled s.toDb q) (prev : QueryState)
      (hit : BeginResult) :
    ∃ r s', revalidate pull prev hit q s = some (r, s') := by
  have hver := opened_verifying hpre hq hset
  have hloc := hpre.sound.located q (by rcases hset with hs | hs <;> simp [hs])
  have hopen : Tracked (opened s q) := opened_kept hkept hq trivial hloc
  have hsup' : Supplied fam (opened s q).toDb q := by
    intro i hi hin
    have hiq : i ≠ q := by
      rintro rfl
      simp [hin] at hq
    rw [opened_ne s hiq]
    exact hsup i hi hin
  have hverify : ∃ b t, engineVerify pull q (opened s q) = some (b, t) := by
    simp only [engineVerify]
    split
    · exact ⟨_, _, rfl⟩
    split
    · exact ⟨_, _, rfl⟩
    · obtain ⟨b, t, hwalk⟩ := verifyWalk_total hfam hpull hkeep htotal (openedFrame s q).deps.length 0 _ _ hver hopen
        hsup' hrank (by simp [names])
      rw [opened_stack]
      simp only [List.head?_cons, Option.map_some, Option.getD_some, hwalk]
      cases b with
      | true => exact ⟨_, _, rfl⟩
      | false => exact ⟨_, _, rfl⟩
  obtain ⟨b, t, hverify⟩ := hverify
  rw [revalidate_eq, hverify]
  cases b with
  | true => exact ⟨_, _, rfl⟩
  | false => exact ⟨_, _, rfl⟩

theorem compute_total (h : Computing fam ranks hist s q top rest []) (hq : q.kind.isInput = false) (hkept : Tracked s)
    (hsup : Supplied fam s.toDb q) (hrank : ranks s.current q ≤ n) : ∃ a s',
      computeAndDrive fam pull q s = some (a, s') := by
  obtain ⟨o, b, t, hbody⟩ := runBody_total hfam hpull hkeep htotal (fam.body q) false s top [] h hkept hsup hrank
    (.start hq)
  have hcompute : ∃ a s', compute fam pull q s = some (a, s') := by
    unfold compute
    rw [hbody]
    cases o with
    | failed => exact ⟨_, _, rfl⟩
    | ok v =>
        simp only
        split
        · exact ⟨_, _, rfl⟩
        · exact ⟨_, _, rfl⟩
  obtain ⟨a, s', hcompute⟩ := hcompute
  obtain ⟨hsound, -⟩ := compute_spec hfam hpull h hq hcompute
  have hroot : fixpointIsRoot s'.toDb q = false := by simp [fixpointIsRoot, hsound.scc]
  refine ⟨a, s', ?_⟩
  simp [computeAndDrive, hcompute, hroot]

theorem settled_total (hpre : Pre fam ranks hist s q) (hkept : Tracked s)
    (hsup : Supplied fam s.toDb q) (hrank : ranks s.current q ≤ n) (hq : q.kind.isInput = false)
      (hset : Settled s.toDb q)
    {hit : BeginResult} (hhit : hit = .cached ∨ hit = .error) :
    ∃ r t, revalidate pull (s.slots q).state hit q s = some (r, t) ∧
      ∃ a s', answerOf fam pull q r (t.emit (.answered q r t.toDb)) = some (a, s') := by
  obtain ⟨r, t, hrev⟩ := revalidate_total hfam hpull hkeep htotal hpre hkept hsup hrank hq hset (s.slots q).state hit
  refine ⟨r, t, hrev, ?_⟩
  rcases revalidate_spec hfam hpull hpre hq hset hrev with ⟨rfl, -⟩ | ⟨rfl, -, hopens, top, hcomp⟩
  · rcases hhit with rfl | rfl
    · exact ⟨_, _, rfl⟩
    · exact ⟨_, _, rfl⟩
  · rcases revalidate_kept hkeep (fun _ _ => .inl trivial) hq trivial hkept hset (fun _ _ _ _ => .inl trivial) hrev with
      ⟨hmiss, -⟩ | ⟨-, -, hkept', hmoves, -⟩
    · rcases hhit with rfl | rfl <;> simp at hmiss
    · simp only [answerOf, hq, Bool.false_eq_true, if_false]
      refine compute_total hfam hpull hkeep htotal (hcomp.emit trivial) hq (emit_kept hkept' trivial) ?_
        (hopens.current.symm ▸ hrank)
      intro i hi hin
      refine hmoves.inputs i ?_ hin (hsup i hi hin)
      rintro rfl
      simp [hin] at hq

theorem demandWith_total [Inhabited V] (hpre : Pre fam ranks hist s q)
    (hkept : Tracked s)
    (hsup : Supplied fam s.toDb q) (hrank : ranks s.current q ≤ n) : ∃ a s',
      demandWith fam pull q s = some (a, s') := by
  obtain ⟨hpre', hext, -, hloc, -⟩ := slotAlloc_spec hpre
  obtain ⟨hkept', hpass, -, -⟩ := slotAlloc_kept (q := q) hkept
  have hsup' := hsup.passes hpass
  rw [← hext.current] at hrank
  unfold demandWith
  generalize slotAlloc s q = t at hpre' hloc hkept' hsup' hrank ⊢
  have hcancel : checkCancel t = (false, t) := by simp [checkCancel, hpre'.sound.cancel]
  simp only [queryBegin, hcancel, Bool.false_eq_true, if_false]
  by_cases hin : q.kind.isInput = true
  · have hdone := hsup' q .refl hin
    obtain ⟨log, -, hrev⟩ := revalidate_leaf pull .done .cached ((hkept'.slots q).input hin).1
    simp only [beginSlot, hdone, hrev]
    exact ⟨_, _, rfl⟩
  · have hq : q.kind.isInput = false := by simpa using hin
    cases hstate : (t.slots q).state with
    | running => exact absurd hstate hpre'.idle
    | empty =>
        have hcomp := computing_start hpre' (opened_sound hpre'.sound hq hloc) hpre'.log (opened_opens t q)
          (opened_stack t q) (hpre'.sound.unused q hstate)
        have hopen : Tracked (opened t q) := opened_kept hkept' hq trivial hloc
        have hcomp' : Computing fam ranks hist (trackRunning (opened t q) q) q (openedFrame t q) t.stack [] :=
          ⟨hcomp.sound.anyStack _ _ t.tainted, hcomp.log, hcomp.stack, hcomp.state, hcomp.running, hcomp.failures,
            hcomp.tiers, hcomp.recorded, hcomp.ordered, hcomp.fps, hcomp.low⟩
        have hopen' : Tracked (trackRunning (opened t q) q) := ⟨⟨hopen.slots, hopen.frames, hopen.members⟩, hopen.log⟩
        simp only [beginSlot, hstate, answerOf, hq, Bool.false_eq_true, if_false]
        refine compute_total hfam hpull hkeep htotal (hcomp'.emit trivial) hq (emit_kept hopen' trivial) ?_ hrank
        intro i hi hin'
        have hiq : i ≠ q := by
          rintro rfl
          exact hin hin'
        have hslot : (opened t q).slots i = t.slots i := opened_ne t hiq
        exact (congrArg Slot.state hslot).trans (hsup' i hi hin')
    | done =>
        obtain ⟨r, u, hrev, a, s', hans⟩ := settled_total hfam hpull hkeep htotal hpre' hkept' hsup' hrank hq
          (.inl hstate) (.inl rfl)
        rw [hstate] at hrev
        simp only [beginSlot, hstate, hrev]
        exact ⟨a, s', hans⟩
    | error =>
        obtain ⟨r, u, hrev, a, s', hans⟩ := settled_total hfam hpull hkeep htotal hpre' hkept' hsup' hrank hq
          (.inr hstate) (.inr rfl)
        rw [hstate] at hrev
        simp only [beginSlot, hstate, hrev]
        exact ⟨a, s', hans⟩

end Bodies

/-- Nested deeper than its rank, a demand over set inputs returns. -/
theorem demand_total [DecidableEq F] [Inhabited V] (hfam : LawfulAt fam ranks hist) (n : Nat) :
    PullTotal fam ranks hist n (demand fam (n + 1)) := by
  have hcycle (n : Nat) (q : Query) (s : State V F) (hsound : Sound fam ranks hist s.toDb)
      (hstate : (s.slots q).state = .running) (hkind : q.kind.isFixpoint = false) :
      ∃ a s', demand fam (n + 1) q s = some (a, s') := by
    have halloc : slotAlloc s q = s := by simp [slotAlloc, hsound.located q (by simp [hstate])]
    have hcancel : checkCancel s = (false, s) := by simp [checkCancel, hsound.cancel]
    simp only [demand, demandWith, halloc, queryBegin, beginSlot, hcancel, Bool.false_eq_true, if_false, hstate,
      enterCycle, hkind, answerOf]
    exact ⟨_, _, rfl⟩
  induction n with
  | zero => exact ⟨fun _ _ hlt => absurd hlt (Nat.not_lt_zero _), hcycle 0⟩
  | succ n ih =>
      refine ⟨?_, hcycle (n + 1)⟩
      intro q s hlt hpre hrec hsup
      exact demandWith_total hfam (demand_spec hfam _)
        (demand_kept (fun _ _ => .inl trivial) (fun _ _ _ _ => trivial) _) ih hpre hrec hsup
          (Nat.le_of_lt_succ hlt)

end Ore.EngineTotal
