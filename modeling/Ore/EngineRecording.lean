import Ore.EngineDiscipline

namespace Ore.EngineRecording

open Tasks EngineModel EngineFacts EngineSound EngineDiscipline

variable {V F : Type} {fam : Family V F} {scope tolerated : Query → Prop}
variable {s s' t : State V F} {q c : Query} {pull : Pull V F} {top : Frame F} {rest : List (Frame F)}

theorem emit_kept (h : Kept scope tolerated s) {e : Event V F} (he : EventKept tolerated e) :
    Kept scope tolerated (s.emit e) := by
  refine h.step (s.emit e) (fun _ _ hd => hd) (fun _ => .inl rfl) (fun _ hf => .inl hf) (fun _ hm => .inl hm) ?_
  intro e' he'
  rcases List.mem_append.mp he' with he' | he'
  · exact .inl he'
  · exact .inr (List.mem_singleton.mp he' ▸ he)

theorem isFixpoint_not_input (h : q.kind.isFixpoint = true) : q.kind.isInput = false := by
  cases hk : q.kind <;> simp_all [QueryKind.isFixpoint, QueryKind.isInput]

theorem Kept.located_of_running (h : Kept scope tolerated s)
    (hrun : q.kind.isFixpoint = false → (s.slots q).state = .running) :
    (!q.kind.isHashRouted || (s.slots q).routed) = true := by
  by_cases hk : q.kind.isFixpoint = false
  · exact (h.slots q).located (by simp [hrun hk])
  · have hrouted : q.kind.isHashRouted = false := by
      cases hkind : q.kind <;> simp_all [QueryKind.isFixpoint, QueryKind.isHashRouted]
    simp [hrouted]

theorem Kept.modify (h : Kept scope tolerated s) (hq : q.kind.isInput = false) {f : Slot F → Slot F}
    (hlocated : (f (s.slots q)).state ≠ .empty → (!q.kind.isHashRouted || (f (s.slots q)).routed) = true)
    (hbuffer : Buffer scope tolerated s.slots q (f (s.slots q)).deps (f (s.slots q)).consumed) :
    Kept scope tolerated (s.modifySlot q f) := by
  have hinputs (p : Query) (hp : p.kind.isInput = true) (hd : (s.slots p).state = .done) :
      ((s.modifySlot q f).slots p).state = .done := by
    have hne : p ≠ q := by
      rintro rfl
      simp [hp] at hq
    rwa [modifySlot_ne s f hne]
  refine h.step (s.modifySlot q f) hinputs ?_ (fun _ hf => .inl hf) (fun _ hm => .inl hm) (fun _ he => .inl he)
  intro p
  by_cases hp : p = q
  · subst hp
    refine .inr ⟨?_, ?_, ?_⟩
    · rw [modifySlot_self]
      exact hlocated
    · rw [modifySlot_self]
      exact hbuffer.mono hinputs
    · intro hi
      simp [hi] at hq
  · exact .inl (modifySlot_ne s f hp)

theorem Kept.restack (h : Kept scope tolerated s) {stack : List (Frame F)}
    (hframes : ∀ f ∈ stack, f ∈ s.stack ∨ scope f.query ∧ Buffer scope tolerated s.slots f.query f.deps f.consumed)
    {running : List Query} {cancelIn : Option Nat} :
    Kept scope tolerated { s with stack := stack, running := running, cancelIn := cancelIn } :=
  h.step { s with stack := stack, running := running, cancelIn := cancelIn } (fun _ _ hd => hd)
    (fun _ => .inl rfl) hframes (fun _ hm => .inl hm) (fun _ he => .inl he)

theorem recordTop_frames (h : Kept scope tolerated s) (hrest : ∀ f ∈ rest, f ∈ s.stack) {fp : Option F}
    {dur : Durability}
    (hscope : scope c) (hinput : c.kind.isInput = true → (s.slots c).state = .done) :
    ∀ f ∈ recordTop rest c fp dur,
      f ∈ s.stack ∨ scope f.query ∧ Buffer scope tolerated s.slots f.query f.deps f.consumed := by
  intro f hf
  cases rest with
  | nil => simp [recordTop] at hf
  | cons parent below =>
      rcases List.mem_cons.mp hf with rfl | hf
      · obtain ⟨hs, hb⟩ := h.frames parent (hrest parent (List.mem_cons_self ..))
        exact .inr ⟨by rwa [recordDep_query], hb.recordDep hscope hinput⟩
      · exact .inl (hrest f (List.mem_cons_of_mem _ hf))

theorem recordTop_recorded (rest : List (Frame F)) (q : Query) (fp : Option F) (dur : Durability) :
    rest = [] ∨ ∃ f ∈ (recordTop rest q fp dur).head?, q ∈ names f := by
  cases rest with
  | nil => exact .inl rfl
  | cons parent below => exact .inr ⟨recordDep parent q fp dur, by simp [recordTop],
        (mem_names_recordDep ..).mpr (.inr rfl)⟩

theorem opened_kept (h : Kept scope tolerated s) (hq : q.kind.isInput = false) (hscope : scope q)
    (hloc : isLocated s.toDb q = true) : Kept scope tolerated (opened s q) := by
  have hmod : Kept scope tolerated (s.modifySlot q fun slot => { slot with state := .running }) :=
    Kept.modify h hq (fun _ => hloc) (h.slots q).buffer
  refine hmod.step (opened s q) (fun _ _ hd => hd) (fun _ => .inl rfl) ?_ (fun _ hm => .inl hm) (fun _ he => .inl he)
  intro f hf
  rw [opened_stack] at hf
  rcases List.mem_cons.mp hf with rfl | hf
  · refine .inr ⟨hscope, ?_⟩
    have hbuf := (hmod.slots q).buffer
    rw [modifySlot_self] at hbuf
    exact hbuf
  · exact .inl hf

theorem opened_moves (s : State V F) (q : Query) : Moves (· = q) s.toDb (opened s q).toDb :=
  .only q rfl rfl id (fun _ h => h) fun _ hp => opened_ne s hp

theorem stamp_passes (s : State V F) (q : Query) :
    Passes s.toDb (s.modifySlot q fun slot => { slot with verifiedRev := effectiveRevision s.toDb }).toDb := by
  refine Moves.close (q := q) (.only q rfl rfl id (fun _ h => h) fun _ hp => modifySlot_ne s _ hp) ?_ ?_ ?_ ?_
  · rw [modifySlot_self]
    exact .inl
  · simp
  · intro _ hv
    refine ⟨by simpa [Settled] using hv.1, ?_⟩
    rw [modifySlot_self]
    rfl
  · simp

theorem Kept.pop (h : Kept scope tolerated s) (hstack : s.stack = top :: rest) (htop : top.query = q)
    (hq : q.kind.isInput = false) {slot : Slot F} (hdeps : slot.deps = top.deps)
      (hconsumed : slot.consumed = top.consumed)
    (hloc : slot.state ≠ .empty → (!q.kind.isHashRouted || slot.routed) = true) {stack : List (Frame F)}
    (hbelow : stack = rest ∨ ∃ fp dur, stack = recordTop rest q fp dur) {log : List (Event V F)}
    (hlog : log = s.log ∨ log = s.log ++ [.finished q top.deps top.consumed]) {cancelIn : Option Nat} :
    Kept scope tolerated { s with
      slots := Function.update s.slots q slot, stack := stack, log := log, cancelIn := cancelIn } := by
  have hrest : ∀ f ∈ rest, f ∈ s.stack := fun f hf => hstack ▸ List.mem_cons_of_mem _ hf
  obtain ⟨hscope, hbuf⟩ := h.frames top (hstack ▸ List.mem_cons_self ..)
  rw [htop] at hscope hbuf
  have hmod : Kept scope tolerated (s.modifySlot q fun _ => slot) :=
    Kept.modify h hq hloc (by rw [hdeps, hconsumed]; exact hbuf)
  refine hmod.step _ (fun _ _ hd => hd) (fun _ => .inl rfl) ?_ (fun _ hm => .inl hm) ?_
  · intro f hf
    rcases hbelow with rfl | ⟨fp, dur, rfl⟩
    · exact .inl (hrest f hf)
    · exact recordTop_frames hmod hrest hscope (fun hi => by simp [hi] at hq) f hf
  · intro e he
    rcases hlog with rfl | rfl
    · exact .inl he
    · rcases List.mem_append.mp he with he | he
      · exact .inl he
      · exact .inr (List.mem_singleton.mp he ▸ hbuf.covers)

section Walk

variable [DecidableEq F]

theorem verifyWalk_kept (hpull : PullKept fam scope tolerated pull)
    (hfix : ∀ c, CanFail (fam.body c) → tolerated c ∨ c.kind.isFixpoint = false) (n i : Nat) (s : State V F) {b : Bool}
    (h : Kept scope tolerated s) (hsafe : ∀ c, scope c → Safe fam tolerated s.toDb c)
    (hrun : verifyWalk pull n i s = some (b, s')) :
    Kept scope tolerated s' ∧ Passes s.toDb s'.toDb ∧ Grown s.stack s'.stack := by
  induction n generalizing i s with
  | zero =>
      simp only [verifyWalk, Option.some.injEq, Prod.mk.injEq] at hrun
      obtain ⟨-, rfl⟩ := hrun
      exact ⟨h, .refl _, .refl _⟩
  | succ n ih =>
      unfold verifyWalk at hrun
      cases hdep : s.stack.head?.bind (·.deps[i]?) with
      | none => simp [hdep] at hrun
      | some dep =>
          obtain ⟨f, hf, hget⟩ := Option.bind_eq_some_iff.mp hdep
          obtain ⟨hfscope, hbuf⟩ := h.frames f (List.mem_of_mem_head? hf)
          have hscope : scope dep.query := hbuf.inScope hfscope dep (List.mem_of_getElem? hget)
          simp only [hdep] at hrun
          cases hdisp : recomputeDispatch pull dep.query s with
          | none => simp [hdisp] at hrun
          | some t =>
              have hstep : Kept scope tolerated t ∧ Passes s.toDb t.toDb ∧ Grown s.stack t.stack := by
                unfold recomputeDispatch at hdisp
                split at hdisp
                · obtain rfl : s = t := by simpa using hdisp
                  exact ⟨h, .refl _, .refl _⟩
                · simp only [Option.map_eq_some_iff] at hdisp
                  obtain ⟨⟨a, u⟩, hcall, rfl⟩ := hdisp
                  have hans := hpull _ _ _ _ hcall h hscope hsafe
                  exact ⟨hans.kept, hans.passes, hans.grown⟩
              obtain ⟨hkept, hpass, hgrown⟩ := hstep
              simp only [hdisp] at hrun
              have hseen : Kept scope tolerated (t.emit (.compared dep s.toDb t.toDb)) := emit_kept hkept trivial
              split at hrun
              · obtain ⟨hkept', hpass', hgrown'⟩ := ih (i + 1) _ hseen
                  (fun c hc => (hsafe c hc).moves hpass (fun hx => hx) (hfix c)) hrun
                exact ⟨hkept', hpass.trans hpass', hgrown.trans hgrown'⟩
              · simp only [Option.some.injEq, Prod.mk.injEq] at hrun
                obtain ⟨-, rfl⟩ := hrun
                exact ⟨hseen, hpass, hgrown⟩

theorem engineVerify_kept (hpull : PullKept fam scope tolerated pull)
    (hfix : ∀ c, CanFail (fam.body c) → tolerated c ∨ c.kind.isFixpoint = false) (hq : q.kind.isInput = false)
      {b : Bool}
    (h : Kept scope tolerated s) (hsafe : ∀ c, scope c → Safe fam tolerated s.toDb c)
    (hrun : engineVerify pull q s = some (b, s')) :
    Kept scope tolerated s' ∧ Passes s.toDb s'.toDb ∧ Grown s.stack s'.stack := by
  have hstamp {t : State V F} (ht : Kept scope tolerated t) (rev : Nat) :
      Kept scope tolerated (t.modifySlot q fun slot => { slot with verifiedRev := rev }) :=
    Kept.modify ht hq (ht.slots q).located (ht.slots q).buffer
  unfold engineVerify at hrun
  simp only at hrun
  split at hrun
  · simp only [Option.some.injEq, Prod.mk.injEq] at hrun
    obtain ⟨-, rfl⟩ := hrun
    exact ⟨h, .refl _, .refl _⟩
  split at hrun
  · simp only [Option.some.injEq, Prod.mk.injEq] at hrun
    obtain ⟨-, rfl⟩ := hrun
    refine ⟨hstamp (emit_kept h ?_) _, stamp_passes (s.emit (.skipped q s.toDb)) q, .refl _⟩
    exact .inr h.toKeptDb.widen
  · cases hwalk : verifyWalk pull ((s.stack.head?.map (·.deps.length)).getD 0) 0 s with
    | none => simp [hwalk] at hrun
    | some res =>
        obtain ⟨b', t⟩ := res
        obtain ⟨hkept, hpass, hgrown⟩ := verifyWalk_kept hpull hfix _ _ _ h hsafe hwalk
        cases b' with
        | false =>
            simp only [hwalk, Option.some.injEq, Prod.mk.injEq] at hrun
            obtain ⟨-, rfl⟩ := hrun
            exact ⟨hkept, hpass, hgrown⟩
        | true =>
            simp only [hwalk, Option.some.injEq, Prod.mk.injEq] at hrun
            obtain ⟨-, rfl⟩ := hrun
            refine ⟨hstamp hkept _, hpass.trans ?_, hgrown⟩
            rw [← hpass.effective]
            exact stamp_passes t q

theorem revalidate_kept (hpull : PullKept fam scope tolerated pull)
    (hfix : ∀ c, CanFail (fam.body c) → tolerated c ∨ c.kind.isFixpoint = false) (hq : q.kind.isInput = false)
    (hscope : scope q) (h : Kept scope tolerated s) (hset : Settled s.toDb q)
    (hsafe : ∀ c, c ≠ q → scope c → Safe fam tolerated s.toDb c) {hit r : BeginResult}
    (hrun : revalidate pull (s.slots q).state hit q s = some (r, s')) :
    (r = hit ∧ Kept scope tolerated s' ∧ Passes s.toDb s'.toDb ∧ Grown s.stack s'.stack ∧
      (s.stack = [] ∨ ∃ f ∈ s'.stack.head?, q ∈ names f)) ∨
    (r = .compute ∧ ¬ Verified s.toDb q ∧ Kept scope tolerated s' ∧ Moves (· = q) s.toDb s'.toDb ∧ q ∈ s'.running ∧
      (q.kind.isFixpoint = false → (s'.slots q).state = .running) ∧ ∃ top, s'.stack = top :: s.stack ∧
        top.query = q) := by
  have hidle : (s.slots q).state ≠ .running := by rcases hset with hs | hs <;> simp [hs]
  have hloc := (h.slots q).located (by rcases hset with hs | hs <;> simp [hs])
  have hopen := opened_kept h hq hscope hloc
  have hmoves := opened_moves s q
  have hstate : ((opened s q).slots q).state = .running := by rw [opened_slot]
  have hsafe' : ∀ c, scope c → Safe fam tolerated (opened s q).toDb c := by
    intro c hc
    by_cases hcq : c = q
    · subst hcq
      exact fun _ => .inr (.inr hstate)
    · exact (hsafe c hcq hc).moves hmoves hcq (hfix c)
  rw [revalidate_eq] at hrun
  cases hver : engineVerify pull q (opened s q) with
  | none => simp [hver] at hrun
  | some res =>
      obtain ⟨b, u⟩ := res
      obtain ⟨hkept, hpass, hgrown⟩ := engineVerify_kept hpull hfix hq hopen hsafe' hver
      rw [opened_stack] at hgrown
      obtain ⟨top, hstack, htop, -, -⟩ := hgrown.cons_left
      have hfull := hmoves.trans (hpass.weaken fun _ hx => hx.elim)
      cases b with
      | true =>
          simp only [hver, Option.some.injEq, Prod.mk.injEq] at hrun
          obtain ⟨rfl, rfl⟩ := hrun
          rw [accept_eq _ hstack]
          refine .inl ⟨rfl, ?_, ?_, .recordTop .., recordTop_recorded ..⟩
          · refine Kept.pop (q := q) hkept hstack htop hq ?_ ?_ ?_ (.inr ⟨_, _, rfl⟩) (.inl rfl)
            · rfl
            · rfl
            · intro _
              exact Kept.located_of_running hkept fun hk => hpass.running q (fun hx => hx) hk hstate
          · refine Moves.close (q := q) (hfull.trans (.only q rfl rfl id (fun _ h => h) fun p hp => by simp [hp])) ?_
              ?_ ?_ ?_
            · simp [hidle]
            · simp [hidle]
            · intro _ _
              refine ⟨by simpa [Settled] using hset, ?_⟩
              simp [effectiveRevision]
            · simp [hq]
      | false =>
          simp only [hver, Option.some.injEq, Prod.mk.injEq] at hrun
          obtain ⟨rfl, rfl⟩ := hrun
          have hstale : ¬ Verified s.toDb q := by
            intro hv
            have hrevision : ((opened s q).slots q).verifiedRev = effectiveRevision (opened s q).toDb := by
              rw [opened_slot]
              exact hv.2
            simp [engineVerify, hrevision] at hver
          rw [reject_eq hstack]
          refine .inr ⟨rfl, hstale, ?_, ?_, by simp, ?_, clearedFrame top, rfl, htop⟩
          · have hmod : Kept scope tolerated (u.modifySlot q fun slot =>
                { slot with deps := [], depIndex := fun _ => 0, consumed := [], fingerprint := none }) :=
              Kept.modify hkept hq (hkept.slots q).located .nil
            refine hmod.step _ (fun _ _ hd => hd) (fun _ => .inl rfl) ?_ (fun _ hm => .inl hm) (fun _ he => .inl he)
            intro f hf
            rcases List.mem_cons.mp hf with rfl | hf
            · exact .inr ⟨show scope top.query from htop ▸ hscope, .nil⟩
            · refine .inl (show f ∈ u.stack from ?_)
              rw [hstack]
              exact List.mem_cons_of_mem _ hf
          · exact hfull.trans (.only q rfl rfl id (fun _ h => List.mem_append_left _ h) fun p hp => by simp [hp])
          · intro hk
            simpa using hpass.running q (fun hx => hx) hk hstate

end Walk

theorem sccQueries_record (s : State V F) (q : Query) (fp : Option F) :
    sccQueries (fixpointRecord s q fp).toDb = sccQueries s.toDb := by
  unfold sccQueries fixpointRecord
  cases s.scc with
  | none => rfl
  | some scc =>
      simp only [Option.map_some, Option.getD_some, List.map_map]
      refine List.map_congr_left ?_
      intro m _
      simp only [Function.comp]
      split <;> rfl

theorem noteConsumed_kept (h : Kept scope tolerated s) {kind : AnswerKind}
    (hcovers : ∀ f ∈ s.stack.head?, needsDep kind = true → c ∈ names f ∨ kind = .failed ∧ tolerated c) :
    Kept scope tolerated (noteConsumed c kind s) := by
  cases hstack : s.stack with
  | nil => simpa [noteConsumed, hstack] using h
  | cons f rest =>
      rw [noteConsumed_rest, noteConsumed_stack hstack]
      refine Kept.restack h ?_
      intro g hg
      rcases List.mem_cons.mp hg with rfl | hg
      · obtain ⟨hscope, hbuf⟩ := h.frames f (hstack ▸ List.mem_cons_self ..)
        refine .inr ⟨hscope, ?_, hbuf.inputs, hbuf.inScope⟩
        intro x hx hneed
        rcases List.mem_append.mp hx with hx | hx
        · exact hbuf.covers x hx hneed
        · obtain rfl := List.mem_singleton.mp hx
          exact hcovers f (by simp [hstack]) hneed
      · exact .inl (hstack ▸ List.mem_cons_of_mem _ hg)

theorem Answered.note {a : Answer V} (h : Answered scope tolerated s c a s') (hstack : s.stack = top :: rest) :
    Kept scope tolerated (noteConsumed c a.kind s') ∧ Passes s.toDb (noteConsumed c a.kind s').toDb := by
  constructor
  · refine noteConsumed_kept h.kept ?_
    intro f hf hneed
    rcases h.recorded hneed with hnil | ⟨g, hg, hc⟩ | hfail
    · simp [hstack] at hnil
    · obtain rfl : f = g := by simpa using Option.mem_unique hf hg
      exact .inl hc
    · exact .inr hfail
  · rw [noteConsumed_rest]
    exact ⟨h.passes.current, h.passes.request, h.passes.sticky, h.passes.mono, h.passes.tracked, h.passes.running,
      h.passes.verified, h.passes.inputs⟩

theorem runBody_kept (hpull : PullKept fam scope tolerated pull)
    (hfix : ∀ c, CanFail (fam.body c) → tolerated c ∨ c.kind.isFixpoint = false) (p : Prog Query V) (seen : Bool)
    (s : State V F) (top : Frame F) {o : Outcome V} {seen' : Bool} (h : Kept scope tolerated s)
    (hstack : s.stack = top :: rest) (hsafe : ∀ c, scope c → Safe fam tolerated s.toDb c)
    (hcalls : ∀ c, Demands p c → scope c) (hrun : runBody pull p seen s = some (o, seen', s')) :
    Kept scope tolerated s' ∧ Passes s.toDb s'.toDb ∧ (∃ top', s'.stack = top' :: rest ∧ top'.query = top.query) ∧
      (o = .failed → CanFail p) := by
  induction p generalizing seen s top with
  | ret v =>
      simp only [runBody, Option.some.injEq, Prod.mk.injEq] at hrun
      obtain ⟨rfl, -, rfl⟩ := hrun
      exact ⟨h, .refl _, ⟨top, hstack, rfl⟩, by simp⟩
  | fail =>
      simp only [runBody, Option.some.injEq, Prod.mk.injEq] at hrun
      obtain ⟨rfl, -, rfl⟩ := hrun
      exact ⟨h, .refl _, ⟨top, hstack, rfl⟩, fun _ => .fail⟩
  | demand c next ih =>
      unfold runBody at hrun
      cases hcall : pull c s with
      | none => simp [hcall] at hrun
      | some res =>
          obtain ⟨a, t⟩ := res
          simp only [hcall] at hrun
          have hans := hpull _ _ _ _ hcall h (hcalls c (.here c next)) hsafe
          have hgrown := hans.grown
          rw [hstack] at hgrown
          obtain ⟨top', hstack', htop', -, -⟩ := hgrown.cons_left
          obtain ⟨hnote, hpass⟩ := Answered.note hans hstack
          obtain ⟨hkept, hpass', ⟨top'', hstack'', htop''⟩, hfail⟩ := ih a.value (seen || a.kind == .canceled)
            (noteConsumed c a.kind t) _ hnote (noteConsumed_stack hstack')
            (fun d hd => (hsafe d hd).moves hpass (fun hx => hx) (hfix d)) (fun d hd => hcalls d (.later c next _ hd))
              hrun
          exact ⟨hkept, hpass.trans hpass', ⟨top'', hstack'', htop''.trans htop'⟩, fun ho => .later c next _ (hfail ho)⟩

/-- What closing the frame of `q` over `rest` does. -/
structure Closed (scope tolerated : Query → Prop) (s : State V F) (q : Query) (rest : List (Frame F)) (s' : State V F) :
    Prop where
  kept : Kept scope tolerated s'
  moves : Moves (· = q) s.toDb s'.toDb
  tracked : (s'.slots q).state = .running → (s.slots q).state = .running ∨ q ∈ s'.running
  grown : Grown rest s'.stack

theorem Closed.after {t : State V F} (h : Closed scope tolerated t q rest s') (hpass : Passes s.toDb t.toDb) :
    Closed scope tolerated s q rest s' where
  kept := h.kept
  moves := (hpass.weaken fun _ hx => hx.elim).trans h.moves
  tracked hrun := by
    rcases h.tracked hrun with hr | hr
    · exact (hpass.tracked q (fun hx => hx) hr).imp_right (h.moves.mono q)
    · exact .inr hr
  grown := h.grown

/-- A fixpoint query is not an input, and the bottom queries are elsewhere. -/
theorem Closed.passes (h : Closed scope tolerated s q rest s') (hk : q.kind.isFixpoint = true) :
    Passes s.toDb s'.toDb :=
  h.moves.close h.tracked (by simp [hk]) (by simp [hk]) (by simp [isFixpoint_not_input hk])

theorem sticky_tick {c : Option Nat} (h : c = some 0) : c.map (· - 1) = some 0 := by simp [h]

theorem querySucceed_closed (h : Kept scope tolerated s) (hstack : s.stack = top :: rest) (htop : top.query = q)
    (hq : q.kind.isInput = false) (hloc : (!q.kind.isHashRouted || (s.slots q).routed) = true) (fp : Option F) :
    Closed scope tolerated s q rest (querySucceed q fp s) ∧
      (s.cancelIn ≠ some 0 → rest = [] ∨ ∃ f ∈ (querySucceed q fp s).stack.head?, q ∈ names f) := by
  by_cases hc : s.cancelIn = some 0
  · rw [querySucceed_canceled hstack hc]
    refine ⟨⟨?_, .only q rfl rfl id (fun _ h => h) fun p hp => by simp [hp], ?_, .refl _⟩, fun hne => absurd hc hne⟩
    · refine Kept.pop (q := q) h hstack htop hq ?_ ?_ ?_ (.inl rfl) (.inl rfl)
      · rfl
      · rfl
      · exact fun _ => hloc
    · simp only [Function.update_self, carried]
      exact .inl
  · rw [querySucceed_settled hstack hc]
    refine ⟨⟨?_, .only q rfl rfl sticky_tick (fun _ h => h) fun p hp => by simp [hp], ?_, .recordTop ..⟩, fun _ => ?_⟩
    · refine Kept.pop (q := q) h hstack htop hq ?_ ?_ ?_ (.inr ⟨_, _, rfl⟩) (.inr rfl)
      · rfl
      · rfl
      · exact fun _ => hloc
    · simp [settledSlot]
    · exact recordTop_recorded ..

theorem queryFail_closed (h : Kept scope tolerated s) (hstack : s.stack = top :: rest) (htop : top.query = q)
    (hq : q.kind.isInput = false) (hloc : (!q.kind.isHashRouted || (s.slots q).routed) = true) :
    Closed scope tolerated s q rest (queryFail q s) := by
  by_cases hc : s.cancelIn = some 0
  · rw [queryFail_canceled hstack hc]
    refine ⟨?_, .only q rfl rfl id (fun _ h => h) fun p hp => by simp [hp], ?_, .refl _⟩
    · refine Kept.pop (q := q) h hstack htop hq ?_ ?_ ?_ (.inl rfl) (.inl rfl)
      · rfl
      · rfl
      · exact fun _ => hloc
    · simp only [Function.update_self, carried]
      exact .inl
  · rw [queryFail_settled hstack hc]
    refine ⟨?_, .only q rfl rfl sticky_tick (fun _ h => h) fun p hp => by simp [hp], ?_, .refl _⟩
    · refine Kept.pop (q := q) h hstack htop hq ?_ ?_ ?_ (.inl rfl) (.inr rfl)
      · rfl
      · rfl
      · exact fun _ => hloc
    · simp [settledSlot]

theorem provisionalPop_closed (h : Kept scope tolerated s) (hstack : s.stack = top :: rest) (htop : top.query = q)
    (hq : q.kind.isInput = false) (hloc : (!q.kind.isHashRouted || (s.slots q).routed) = true) :
    Closed scope tolerated s q rest (provisionalPop s q) := by
  rw [provisionalPop_eq hstack]
  refine ⟨?_, .only q rfl rfl id (fun _ h => h) fun p hp => by simp [hp], ?_, .refl _⟩
  · refine Kept.pop (q := q) h hstack htop hq ?_ ?_ ?_ (.inl rfl) (.inl rfl)
    · rfl
    · rfl
    · exact fun _ => hloc
  · simp only [Function.update_self, carried]
    exact .inl

section Compute

theorem compute_closed (hpull : PullKept fam scope tolerated pull)
    (hfix : ∀ c, CanFail (fam.body c) → tolerated c ∨ c.kind.isFixpoint = false)
    (hclosed : ∀ p c, scope p → Calls fam p c → scope c) (hq : q.kind.isInput = false) (h : Kept scope tolerated s)
    (hstack : s.stack = top :: rest) (htop : top.query = q)
    (hrunning : q.kind.isFixpoint = false → (s.slots q).state = .running)
    (hsafe : ∀ c, scope c → Safe fam tolerated s.toDb c) {a : Answer V} (hrun : compute fam pull q s = some (a, s')) :
    Closed scope tolerated s q rest s' ∧
      (needsDep a.kind = true →
        rest = [] ∨ (∃ f ∈ s'.stack.head?, q ∈ names f) ∨ a.kind = .failed ∧ CanFail (fam.body q)) := by
  have hscope : scope q := htop ▸ (h.frames top (hstack ▸ List.mem_cons_self ..)).1
  unfold compute at hrun
  cases hbody : runBody pull (fam.body q) false s with
  | none => simp [hbody] at hrun
  | some res =>
      obtain ⟨o, seen, t⟩ := res
      obtain ⟨hkept, hpass, ⟨top', hstack', htop'⟩, hfail⟩ := runBody_kept hpull hfix _ _ _ _ h hstack hsafe
        (fun c hc => hclosed q c hscope ⟨hq, hc⟩) hbody
      have hloc := Kept.located_of_running hkept fun hk => hpass.running q (fun hx => hx) hk (hrunning hk)
      rw [hbody] at hrun
      cases o with
      | failed =>
          simp only [Option.some.injEq, Prod.mk.injEq] at hrun
          obtain ⟨rfl, rfl⟩ := hrun
          refine ⟨(queryFail_closed hkept hstack' (htop'.trans htop) hq hloc).after hpass, ?_⟩
          split
          · simp [needsDep]
          · exact fun _ => .inr (.inr ⟨rfl, hfail rfl⟩)
      | ok v =>
          have hwrite : Kept scope tolerated (t.writeColumn q v seen) :=
            ⟨⟨hkept.slots, hkept.frames, hkept.members⟩, hkept.log⟩
          have hwritePass : Passes s.toDb (t.writeColumn q v seen).toDb :=
            ⟨hpass.current, hpass.request, hpass.sticky, hpass.mono, hpass.tracked, hpass.running, hpass.verified,
              hpass.inputs⟩
          simp only at hrun
          split at hrun
          · simp only [Option.some.injEq, Prod.mk.injEq] at hrun
            obtain ⟨rfl, rfl⟩ := hrun
            have hrecord : Kept scope tolerated (fixpointRecord (t.writeColumn q v seen) q (fam.fingerprint q v)) := by
              refine ⟨⟨hkept.slots, hkept.frames, ?_⟩, hkept.log⟩
              rw [sccQueries_record]
              exact hkept.members
            refine ⟨(provisionalPop_closed hrecord hstack' (htop'.trans htop) hq hloc).after ?_, by simp [needsDep]⟩
            exact ⟨hpass.current, hpass.request, hpass.sticky, hpass.mono, hpass.tracked, hpass.running, hpass.verified,
              hpass.inputs⟩
          · simp only [Option.some.injEq, Prod.mk.injEq] at hrun
            obtain ⟨rfl, rfl⟩ := hrun
            obtain ⟨hclose, hrec⟩ := querySucceed_closed hwrite hstack' (htop'.trans htop) hq hloc (fam.fingerprint q v)
            refine ⟨hclose.after hwritePass, ?_⟩
            rw [checkCancel_eq]
            split
            · simp [needsDep]
            · rename_i hc
              intro _
              rcases hrec (by simpa using hc) with hr | hr
              · exact .inl hr
              · exact .inr (.inl hr)

theorem push_kept (h : Kept scope tolerated s) (hscope : scope q) : Kept scope tolerated (queryStackPush s q) := by
  refine h.step _ (fun _ _ hd => hd) (fun _ => .inl rfl) ?_ (fun _ hm => .inl hm) (fun _ he => .inl he)
  intro f hf
  rcases List.mem_cons.mp hf with rfl | hf
  · exact .inr ⟨hscope, (h.slots q).buffer⟩
  · exact .inl hf

theorem sccRerunMember_kept (hpull : PullKept fam scope tolerated pull)
    (hfix : ∀ c, CanFail (fam.body c) → tolerated c ∨ c.kind.isFixpoint = false)
    (hclosed : ∀ p c, scope p → Calls fam p c → scope c) (hk : q.kind.isFixpoint = true) (hscope : scope q)
    (h : Kept scope tolerated s) (hsafe : ∀ c, scope c → Safe fam tolerated s.toDb c)
    (hrun : sccRerunMember fam pull q s = some s') :
    Kept scope tolerated s' ∧ Passes s.toDb s'.toDb ∧ Grown s.stack s'.stack := by
  have hq := isFixpoint_not_input hk
  simp only [sccRerunMember, Option.map_eq_some_iff] at hrun
  obtain ⟨⟨a, u⟩, hcomp, rfl⟩ := hrun
  generalize ht : s.modifySlot q (fun slot => { slot with deps := [], depIndex := fun _ => 0, consumed := [] }) =
    t at hcomp
  have hmod : Kept scope tolerated t := by
    rw [← ht]
    exact Kept.modify h hq (h.slots q).located .nil
  have hmoves : Moves (· = q) s.toDb (queryStackPush t q).toDb := by
    rw [← ht]
    exact .only q rfl rfl id (fun _ h => h) fun p hp => by simp [queryStackPush, modifySlot_ne s _ hp]
  have hpass : Passes s.toDb (queryStackPush t q).toDb := by
    refine hmoves.close ?_ (by simp [hk]) (by simp [hk]) (by simp [hq])
    rw [← ht]
    simp only [queryStackPush, modifySlot_self]
    exact .inl
  have hstack : (queryStackPush t q).stack =
      ⟨q, (t.slots q).deps, (t.slots q).depIndex, .high, false, (t.slots q).consumed⟩ :: s.stack := by
    rw [← ht]
    rfl
  obtain ⟨hclose, -⟩ := compute_closed hpull hfix hclosed hq (push_kept hmod hscope) hstack rfl (by simp [hk])
    (fun c hc => (hsafe c hc).moves hpass (fun hx => hx) (hfix c)) hcomp
  exact ⟨hclose.kept, hpass.trans (hclose.passes hk), hclose.grown⟩

section Drive

variable (hpull : PullKept fam scope tolerated pull)
  (hfix : ∀ c, CanFail (fam.body c) → tolerated c ∨ c.kind.isFixpoint = false)
  (hclosed : ∀ p c, scope p → Calls fam p c → scope c) {members : List Query}
  (hmembers : ∀ m ∈ members, m.kind.isFixpoint = true ∧ scope m)

include hpull hfix hclosed hmembers

theorem drivePass_kept [DecidableEq F] (changed : Bool) (s : State V F) (h : Kept scope tolerated s)
    (hsafe : ∀ c, scope c → Safe fam tolerated s.toDb c) {changed' : Bool}
    (hrun : drivePass fam pull members changed s = some (changed', s')) :
    Kept scope tolerated s' ∧ Passes s.toDb s'.toDb ∧ Grown s.stack s'.stack := by
  induction members generalizing changed s with
  | nil =>
      simp only [drivePass, Option.some.injEq, Prod.mk.injEq] at hrun
      obtain ⟨-, rfl⟩ := hrun
      exact ⟨h, .refl _, .refl _⟩
  | cons m rest ih =>
      unfold drivePass at hrun
      cases hm : sccRerunMember fam pull m s with
      | none => simp [hm] at hrun
      | some t =>
          simp only [hm] at hrun
          obtain ⟨hk, hscope⟩ := hmembers m (List.mem_cons_self ..)
          obtain ⟨hkept, hpass, hgrown⟩ := sccRerunMember_kept hpull hfix hclosed hk hscope h hsafe hm
          obtain ⟨hkept', hpass', hgrown'⟩ := ih (fun m hm => hmembers m (List.mem_cons_of_mem _ hm)) _ t hkept
            (fun c hc => (hsafe c hc).moves hpass (fun hx => hx) (hfix c)) hrun
          exact ⟨hkept', hpass.trans hpass', hgrown.trans hgrown'⟩

theorem driveLoop_kept [DecidableEq F] (cap : Nat) (s : State V F) (h : Kept scope tolerated s)
    (hsafe : ∀ c, scope c → Safe fam tolerated s.toDb c) (hrun : driveLoop fam pull members cap s = some s') :
    Kept scope tolerated s' ∧ Passes s.toDb s'.toDb ∧ Grown s.stack s'.stack := by
  induction cap generalizing s with
  | zero =>
      obtain rfl : s = s' := by simpa [driveLoop] using hrun
      exact ⟨h, .refl _, .refl _⟩
  | succ cap ih =>
      unfold driveLoop at hrun
      cases hp : drivePass fam pull members false s with
      | none => simp [hp] at hrun
      | some res =>
          obtain ⟨changed, t⟩ := res
          obtain ⟨hkept, hpass, hgrown⟩ := drivePass_kept hpull hfix hclosed hmembers _ _ h hsafe hp
          cases changed with
          | false =>
              simp only [hp, Option.some.injEq] at hrun
              exact hrun ▸ ⟨hkept, hpass, hgrown⟩
          | true =>
              simp only [hp] at hrun
              obtain ⟨hkept', hpass', hgrown'⟩ := ih t hkept
                (fun c hc => (hsafe c hc).moves hpass (fun hx => hx) (hfix c)) hrun
              exact ⟨hkept', hpass.trans hpass', hgrown.trans hgrown'⟩

omit hpull hfix hclosed in
/-- Unless the request is canceled, every member is recorded on the frame
below. -/
theorem finalize_kept (s : State V F) (h : Kept scope tolerated s) :
    Kept scope tolerated (finalize members s) ∧ Passes s.toDb (finalize members s).toDb ∧
      Grown s.stack (finalize members s).stack ∧
      ∀ m ∈ members, (finalize members s).cancelIn ≠ some 0 →
        s.stack = [] ∨ ∃ f ∈ (finalize members s).stack.head?, m ∈ names f := by
  induction members generalizing s with
  | nil => exact ⟨h, .refl _, .refl _, by simp⟩
  | cons m rest ih =>
      obtain ⟨hk, hscope⟩ := hmembers m (List.mem_cons_self ..)
      have hq := isFixpoint_not_input hk
      unfold finalize
      simp only
      generalize ht : s.modifySlot m (fun slot => { slot with provisional := false }) = t
      have hmod : Kept scope tolerated t := by
        rw [← ht]
        exact Kept.modify h hq (h.slots m).located (h.slots m).buffer
      have hpass : Passes s.toDb (queryStackPush t m).toDb := by
        refine Moves.close (q := m) ?_ ?_ (by simp [hk]) (by simp [hk]) (by simp [hq])
        · rw [← ht]
          exact .only m rfl rfl id (fun _ h => h) fun p hp => by simp [queryStackPush, modifySlot_ne s _ hp]
        · rw [← ht]
          simp only [queryStackPush, modifySlot_self]
          exact .inl
      have hstack : (queryStackPush t m).stack =
          ⟨m, (t.slots m).deps, (t.slots m).depIndex, .high, false, (t.slots m).consumed⟩ :: s.stack := by
        rw [← ht]
        rfl
      have hpush := push_kept hmod hscope
      obtain ⟨hclose, hrec⟩ := querySucceed_closed hpush hstack rfl hq
        (Kept.located_of_running hpush (by simp [hk])) (memberFp s.toDb m)
      obtain ⟨hkept', hpass', hgrown', hrec'⟩ := ih (fun m hm => hmembers m (List.mem_cons_of_mem _ hm)) _ hclose.kept
      refine ⟨hkept', (hpass.trans (hclose.passes hk)).trans hpass', hclose.grown.trans hgrown', ?_⟩
      intro m' hm' hc
      have hc' : (querySucceed m (memberFp s.toDb m) (queryStackPush t m)).cancelIn ≠ some 0 := fun h0 =>
        hc (hpass'.sticky h0)
      rcases List.mem_cons.mp hm' with rfl | hm'
      · rcases hrec fun h0 => hc' (hclose.moves.sticky h0) with hnil | hmem
        · exact .inl hnil
        · exact .inr (hgrown'.keep hmem)
      · rcases hrec' m' hm' hc with hnil | hmem
        · left
          have hg := hclose.grown
          rw [hnil] at hg
          exact hg.nil_right
        · exact .inr hmem

end Drive

theorem fixpointDrive_kept [DecidableEq F] (hpull : PullKept fam scope tolerated pull)
    (hfix : ∀ c, CanFail (fam.body c) → tolerated c ∨ c.kind.isFixpoint = false)
    (hclosed : ∀ p c, scope p → Calls fam p c → scope c) (h : Kept scope tolerated s)
    (hsafe : ∀ c, scope c → Safe fam tolerated s.toDb c) (hrun : fixpointDrive fam pull s = some s') :
    Kept scope tolerated s' ∧ Passes s.toDb s'.toDb ∧ Grown s.stack s'.stack ∧
      ∀ m ∈ sccQueries s.toDb, s'.cancelIn ≠ some 0 → s.stack = [] ∨ ∃ f ∈ s'.stack.head?, m ∈ names f := by
  unfold fixpointDrive at hrun
  cases hscc : s.scc with
  | none =>
      simp only [hscc, Option.some.injEq] at hrun
      subst hrun
      exact ⟨h, .refl _, .refl _, by simp [sccQueries, hscc]⟩
  | some scc =>
      simp only [hscc] at hrun
      cases hloop : driveLoop fam pull (sccQueries s.toDb) ((sccQueries s.toDb).length * 64 + 32) s with
      | none => simp [hloop] at hrun
      | some t =>
          simp only [hloop, Option.some.injEq] at hrun
          subst hrun
          obtain ⟨hkept, hpass, hgrown⟩ := driveLoop_kept hpull hfix hclosed h.members _ _ h hsafe hloop
          obtain ⟨hkept', hpass', hgrown', hrec⟩ := finalize_kept h.members t hkept
          refine ⟨⟨⟨hkept'.slots, hkept'.frames, by simp [sccQueries]⟩, hkept'.log⟩, ?_, hgrown.trans hgrown', ?_⟩
          · have hall := hpass.trans hpass'
            exact ⟨hall.current, hall.request, hall.sticky, hall.mono, hall.tracked, hall.running, hall.verified,
              hall.inputs⟩
          · intro m hm hc
            rcases hrec m hm hc with hnil | hmem
            · left
              rw [hnil] at hgrown
              exact hgrown.nil_right
            · exact .inr hmem

end Compute

theorem mem_cyclePath {root : Query} {stack : List (Frame F)} (h : q ∈ cyclePath root stack) :
    ∃ f ∈ stack, f.query = q := by
  have hpath : q ∈ stack.reverse.map (·.query) := by
    unfold cyclePath at h
    simp only at h
    split at h
    · exact (List.dropWhile_sublist _).subset h
    · exact h
  simpa using hpath

theorem enterCycle_kept (h : Kept scope tolerated s) :
    Kept scope tolerated (enterCycle q s).2 ∧ Passes s.toDb (enterCycle q s).2.toDb ∧
      (enterCycle q s).2.stack = s.stack := by
  have henroll : Kept scope tolerated (enroll q s) ∧ Passes s.toDb (enroll q s).toDb ∧
    (enroll q s).stack = s.stack := by
    have hstate (p : Query) : ((enroll q s).slots p).state = (s.slots p).state ∧
        ((enroll q s).slots p).verifiedRev = (s.slots p).verifiedRev := by
      simp only [enroll]
      split <;> exact ⟨rfl, rfl⟩
    refine ⟨⟨⟨?_, ?_, ?_⟩, h.log⟩, ⟨rfl, rfl, id, fun _ h => h, ?_, ?_, ?_, ?_⟩, rfl⟩
    · intro p
      have hp := h.slots p
      have hbuf : ((enroll q s).slots p).deps = (s.slots p).deps ∧
        ((enroll q s).slots p).consumed = (s.slots p).consumed ∧
          ((enroll q s).slots p).routed = (s.slots p).routed := by
        simp only [enroll]
        split <;> exact ⟨rfl, rfl, rfl⟩
      refine ⟨?_, ?_, ?_⟩
      · rw [(hstate p).1, hbuf.2.2]
        exact hp.located
      · rw [hbuf.1, hbuf.2.1]
        exact hp.buffer.mono fun i _ hd => by rw [(hstate i).1, hd]
      · rw [hbuf.1, (hstate p).1]
        exact hp.input
    · intro f hf
      exact ⟨(h.frames f hf).1, (h.frames f hf).2.mono fun i _ hd => by rw [(hstate i).1, hd]⟩
    · intro m hm
      simp only [sccQueries, enroll, Option.map_some, Option.getD_some, List.map_map, List.mem_map, Function.comp,
        List.mem_eraseDups, List.mem_filter] at hm
      obtain ⟨m', ⟨hpath, hk⟩, rfl⟩ := hm
      obtain ⟨f, hf, hfq⟩ := mem_cyclePath hpath
      exact ⟨hk, hfq ▸ (h.frames f hf).1⟩
    · intro p _ hrun
      exact .inl (by rwa [(hstate p).1] at hrun)
    · intro p _ _ hrun
      rwa [(hstate p).1]
    · intro p _ _ hv
      refine ⟨?_, (hstate p).2.trans hv.2⟩
      rw [Settled, (hstate p).1]
      exact hv.1
    · intro p _ _ hd
      rwa [(hstate p).1]
  unfold enterCycle
  split
  · split
    · exact henroll
    · split <;> exact ⟨h, .refl _, rfl⟩
  · exact ⟨h, .refl _, rfl⟩

theorem Answered.of_passes {t : State V F} {a : Answer V} (h : Answered scope tolerated t q a s')
    (hpass : Passes s.toDb t.toDb) (hstack : t.stack = s.stack) : Answered scope tolerated s q a s' :=
  ⟨h.kept, hpass.trans h.passes, hstack ▸ h.grown, hstack ▸ h.recorded⟩

theorem computeAndDrive_kept [DecidableEq F] (hpull : PullKept fam scope tolerated pull)
    (hfix : ∀ c, CanFail (fam.body c) → tolerated c ∨ c.kind.isFixpoint = false)
    (hclosed : ∀ p c, scope p → Calls fam p c → scope c) (hq : q.kind.isInput = false) (h : Kept scope tolerated s)
    (hstack : s.stack = top :: rest) (htop : top.query = q)
    (hrunning : q.kind.isFixpoint = false → (s.slots q).state = .running)
    (hsafe : ∀ c, scope c → Safe fam tolerated s.toDb c) {a : Answer V}
    (hrun : computeAndDrive fam pull q s = some (a, s')) :
    Closed scope tolerated s q rest s' ∧
      (needsDep a.kind = true →
        rest = [] ∨ (∃ f ∈ s'.stack.head?, q ∈ names f) ∨ a.kind = .failed ∧ CanFail (fam.body q)) := by
  unfold computeAndDrive at hrun
  cases hc : compute fam pull q s with
  | none => simp [hc] at hrun
  | some res =>
      obtain ⟨a', t⟩ := res
      obtain ⟨hclose, hrec⟩ := compute_closed hpull hfix hclosed hq h hstack htop hrunning hsafe hc
      simp only [hc] at hrun
      split at hrun
      · rename_i hroot
        simp only [Option.map_eq_some_iff, Prod.mk.injEq] at hrun
        obtain ⟨u, hdrive, rfl, rfl⟩ := hrun
        have hsafe' : ∀ c, scope c → Safe fam tolerated t.toDb c := by
          intro c hcs
          by_cases hcq : c = q
          · subst hcq
            exact fun hfail => (hfix c hfail).imp_right fun hk => by simp [hroot.1] at hk
          · exact (hsafe c hcs).moves hclose.moves hcq (hfix c)
        obtain ⟨hkept, hpass, hgrown, hmem⟩ := fixpointDrive_kept hpull hfix hclosed hclose.kept hsafe' hdrive
        refine ⟨⟨hkept, hclose.moves.trans (hpass.weaken fun _ hx => hx.elim), ?_, hclose.grown.trans hgrown⟩, ?_⟩
        · intro hr
          rcases hpass.tracked q (fun hx => hx) hr with hr | hr
          · exact (hclose.tracked hr).imp_right (hpass.mono q)
          · exact .inr hr
        · rw [checkCancel_eq]
          split
          · simp [needsDep]
          rename_i hcan
          split
          · rename_i hmemq
            intro _
            rcases hmem q hmemq (by simpa using hcan) with hnil | hm
            · left
              have hg := hclose.grown
              rw [hnil] at hg
              exact hg.nil_right
            · exact .inr (.inl hm)
          · intro hneed
            rcases hrec hneed with hnil | hm | hf
            · exact .inl hnil
            · exact .inr (.inl (hgrown.keep hm))
            · exact .inr (.inr hf)
      · simp only [Option.some.injEq, Prod.mk.injEq] at hrun
        obtain ⟨rfl, rfl⟩ := hrun
        exact ⟨hclose, hrec⟩

theorem answered_of_compute [DecidableEq F] (hpull : PullKept fam scope tolerated pull)
    (hfix : ∀ c, CanFail (fam.body c) → tolerated c ∨ c.kind.isFixpoint = false)
    (hclosed : ∀ p c, scope p → Calls fam p c → scope c) (hq : q.kind.isInput = false)
    (hidle : (s.slots q).state ≠ .running) (hstale : ¬ Verified s.toDb q)
    (hsafe : ∀ c, c ≠ q → scope c → Safe fam tolerated s.toDb c) (hself : s.stack = [] ∨ Safe fam tolerated s.toDb q)
    (hkept : Kept scope tolerated t) (hmoves : Moves (· = q) s.toDb t.toDb) (htracked : q ∈ t.running)
    (hrunning : q.kind.isFixpoint = false → (t.slots q).state = .running) (hstack : t.stack = top :: s.stack)
    (htop : top.query = q) {a : Answer V}
    (hrun : computeAndDrive fam pull q (t.emit (.answered q .compute t.toDb)) = some (a, s')) :
      Answered scope tolerated s q a s' := by
  have hsafe' : ∀ c, scope c → Safe fam tolerated t.toDb c := by
    intro c hc
    by_cases hcq : c = q
    · subst hcq
      exact fun hfail => (hfix c hfail).imp_right fun hk => .inr (hrunning hk)
    · exact (hsafe c hcq hc).moves hmoves hcq (hfix c)
  obtain ⟨hclose, hrec⟩ := computeAndDrive_kept hpull hfix hclosed hq
    (emit_kept hkept (e := .answered q .compute t.toDb) trivial) hstack htop hrunning hsafe' hrun
  refine ⟨hclose.kept, ?_, hclose.grown, ?_⟩
  · refine Moves.close (q := q) (hmoves.trans hclose.moves) (fun _ => .inr (hclose.moves.mono q htracked)) ?_ ?_ ?_
    · exact fun _ hr => absurd hr hidle
    · exact fun _ hv => absurd hv hstale
    · simp [hq]
  · intro hneed
    rcases hrec hneed with hnil | hmem | ⟨hkind, hfail⟩
    · exact .inl hnil
    · exact .inr (.inl hmem)
    · rcases hself with hnil | hself
      · exact .inl hnil
      · rcases hself hfail with ht | hv | hr
        · exact .inr (.inr ⟨hkind, ht⟩)
        · exact absurd hv hstale
        · exact absurd hr hidle

theorem enterCycle_result (s : State V F) (q : Query) :
    (enterCycle q s).1 = .cycle ∨ (enterCycle q s).1 = .cycleProvisional := by
  unfold enterCycle
  split
  · split
    · exact .inr rfl
    · split
      · exact .inr rfl
      · exact .inl rfl
  · exact .inl rfl

theorem slotAlloc_kept [Inhabited V] (h : Kept scope tolerated s) :
    Kept scope tolerated (slotAlloc s q) ∧ Passes s.toDb (slotAlloc s q).toDb ∧ (slotAlloc s q).stack = s.stack ∧
      isLocated (slotAlloc s q).toDb q = true := by
  unfold slotAlloc
  split
  · rename_i hloc
    exact ⟨h, .refl _, rfl, hloc⟩
  · rename_i hloc
    have hempty : (s.slots q).state = .empty := by
      by_contra hstate
      exact hloc ((h.slots q).located hstate)
    have hq : q.kind.isInput = false := by
      cases hk : q.kind <;> simp_all [QueryKind.isInput, isLocated, QueryKind.isHashRouted]
    have hmod : Kept scope tolerated (s.modifySlot q fun _ => { Slot.zero F with routed := true }) :=
      Kept.modify h hq (by simp [Slot.zero]) .nil
    have hmoves : Moves (· = q) s.toDb
        ((s.modifySlot q fun _ => { Slot.zero F with routed := true }).writeColumn q default false).toDb :=
      .only q rfl rfl id (fun _ h => h) fun p hp => by simp [State.writeColumn, modifySlot_ne s _ hp]
    refine ⟨⟨⟨hmod.slots, hmod.frames, hmod.members⟩, hmod.log⟩, hmoves.close ?_ ?_ ?_ ?_, rfl, ?_⟩
    · simp [State.writeColumn, Slot.zero]
    · simp [hempty]
    · rintro _ ⟨hs | hs, -⟩ <;> simp [hempty] at hs
    · simp [hq]
    · simp [isLocated, State.writeColumn]

section Demand

variable [DecidableEq F]

theorem input_answered (h : Kept scope tolerated s) (hscope : scope q) (hin : q.kind.isInput = true)
    (hstate : (s.slots q).state = .done) {a : Answer V} {r : BeginResult} (hbegin : beginSlot pull q s = some (r, t))
    (hrun : answerOf fam pull q r (t.emit (.answered q r t.toDb)) = some (a, s')) :
      Answered scope tolerated s q a s' := by
  have hdeps := ((h.slots q).input hin).1
  obtain ⟨log, hlog, hrev⟩ := revalidate_leaf pull .done .cached (s := s) hdeps
  simp only [beginSlot, hstate, hrev, Option.some.injEq, Prod.mk.injEq] at hbegin
  obtain ⟨rfl, rfl⟩ := hbegin
  simp only [answerOf, Option.some.injEq, Prod.mk.injEq] at hrun
  obtain ⟨rfl, rfl⟩ := hrun
  have hinputs (p : Query) (hp : p.kind.isInput = true) (hd : (s.slots p).state = .done) :
      (Function.update s.slots q
        { s.slots q with state := .done, verifiedRev := effectiveRevision s.toDb } p).state = .done := by
    by_cases hpq : p = q
    · simp [hpq]
    · simpa [hpq] using hd
  refine ⟨emit_kept ?_ trivial, ?_, .recordTop .., fun _ => ?_⟩
  · refine h.step _ hinputs ?_ ?_ (fun _ hm => .inl hm) ?_
    · intro p
      by_cases hp : p = q
      · subst hp
        refine .inr ⟨?_, ?_, ?_⟩
        · simpa using (h.slots p).located (by simp [hstate])
        · simpa using (h.slots p).buffer.mono hinputs
        · simp [hdeps]
      · exact .inl (by simp [hp])
    · intro f hf
      refine (recordTop_frames h (fun _ hf => hf) hscope (fun _ => hstate) f hf).imp_right ?_
      rintro ⟨hs, hb⟩
      exact ⟨hs, hb.mono hinputs⟩
    · intro e he
      rcases List.mem_append.mp he with he | he
      · exact .inl he
      · right
        rcases hlog with rfl | rfl
        · simp at he
        · obtain rfl := List.mem_singleton.mp he
          exact .inl (by rw [opened_slot]; exact hdeps)
  · refine Moves.close (q := q) (.only q rfl rfl id (fun _ h => h) fun p hp => by simp [State.emit, hp]) ?_ ?_ ?_ ?_
    · simp [State.emit]
    · simp [hstate]
    · intro _ _
      refine ⟨by simp [Settled, State.emit], ?_⟩
      simp [State.emit, effectiveRevision]
    · simp [State.emit]
  · exact (recordTop_recorded ..).imp_right .inl

theorem settled_answered (hpull : PullKept fam scope tolerated pull)
    (hfix : ∀ c, CanFail (fam.body c) → tolerated c ∨ c.kind.isFixpoint = false)
    (hclosed : ∀ p c, scope p → Calls fam p c → scope c) (h : Kept scope tolerated s) (hscope : scope q)
    (hq : q.kind.isInput = false) (hset : Settled s.toDb q)
    (hsafe : ∀ c, c ≠ q → scope c → Safe fam tolerated s.toDb c) (hself : s.stack = [] ∨ Safe fam tolerated s.toDb q)
    {a : Answer V} {hit r : BeginResult} (hhit : hit = .cached ∨ hit = .error)
    (hrev : revalidate pull (s.slots q).state hit q s = some (r, t))
    (hrun : answerOf fam pull q r (t.emit (.answered q r t.toDb)) = some (a, s')) :
      Answered scope tolerated s q a s' := by
  have hidle : (s.slots q).state ≠ .running := by rcases hset with hs | hs <;> simp [hs]
  rcases revalidate_kept hpull hfix hq hscope h hset hsafe hrev with
    ⟨rfl, hkept, hpass, hgrown, hrec⟩ | ⟨rfl, hstale, hkept, hmoves, htracked, hrunning, top, hstack, htop⟩
  · have hemit : s' = t.emit (.answered q r t.toDb) := by
      rcases hhit with rfl | rfl <;> simp only [answerOf, Option.some.injEq, Prod.mk.injEq] at hrun <;>
        exact hrun.2.symm
    subst hemit
    exact ⟨emit_kept hkept trivial, hpass, hgrown, fun _ => hrec.imp_right .inl⟩
  · simp only [answerOf, hq, Bool.false_eq_true, if_false] at hrun
    exact answered_of_compute hpull hfix hclosed hq hidle hstale hsafe hself hkept hmoves htracked hrunning hstack htop
      hrun

theorem begun_answered (hpull : PullKept fam scope tolerated pull)
    (hfix : ∀ c, CanFail (fam.body c) → tolerated c ∨ c.kind.isFixpoint = false)
    (hclosed : ∀ p c, scope p → Calls fam p c → scope c) (h : Kept scope tolerated s) (hscope : scope q)
    (hloc : isLocated s.toDb q = true) (hsafe : ∀ c, c ≠ q → scope c → Safe fam tolerated s.toDb c)
    (hself : s.stack = [] ∨ Safe fam tolerated s.toDb q) {a : Answer V} {r : BeginResult}
    (hbegin : beginSlot pull q s = some (r, t))
    (hrun : answerOf fam pull q r (t.emit (.answered q r t.toDb)) = some (a, s')) :
      Answered scope tolerated s q a s' := by
  by_cases hin : q.kind.isInput = true
  · rcases ((h.slots q).input hin).2 with hstate | hstate
    · simp only [beginSlot, hstate, Option.some.injEq, Prod.mk.injEq] at hbegin
      obtain ⟨rfl, -⟩ := hbegin
      simp [answerOf, hin] at hrun
    · exact input_answered h hscope hin hstate hbegin hrun
  · have hq : q.kind.isInput = false := by simpa using hin
    cases hstate : (s.slots q).state with
    | done =>
        simp only [beginSlot, hstate] at hbegin
        rw [← hstate] at hbegin
        exact settled_answered hpull hfix hclosed h hscope hq (.inl hstate) hsafe hself (.inl rfl) hbegin hrun
    | error =>
        simp only [beginSlot, hstate] at hbegin
        rw [← hstate] at hbegin
        exact settled_answered hpull hfix hclosed h hscope hq (.inr hstate) hsafe hself (.inr rfl) hbegin hrun
    | running =>
        simp only [beginSlot, hstate, Option.some.injEq] at hbegin
        obtain ⟨hkept, hpass, hstack⟩ := enterCycle_kept (q := q) h
        rw [hbegin] at hkept hpass hstack
        rcases hbegin ▸ enterCycle_result s q with rfl | rfl
        · simp only [answerOf, Option.some.injEq, Prod.mk.injEq] at hrun
          obtain ⟨rfl, rfl⟩ := hrun
          exact ⟨emit_kept hkept trivial, hpass, hstack ▸ .refl _, by simp [needsDep]⟩
        · simp only [answerOf, Option.some.injEq, Prod.mk.injEq] at hrun
          obtain ⟨rfl, rfl⟩ := hrun
          exact ⟨emit_kept hkept trivial, hpass, hstack ▸ .refl _, by simp [needsDep]⟩
    | empty =>
        simp only [beginSlot, hstate, Option.some.injEq, Prod.mk.injEq] at hbegin
        obtain ⟨rfl, rfl⟩ := hbegin
        simp only [answerOf, hq, Bool.false_eq_true, if_false] at hrun
        have hopen := opened_kept h hq hscope hloc
        have hmoves := opened_moves s q
        refine answered_of_compute hpull hfix hclosed hq (by simp [hstate]) ?_ hsafe hself
          (t := trackRunning (opened s q) q) ⟨⟨hopen.slots, hopen.frames, hopen.members⟩, hopen.log⟩ ?_ ?_ ?_
          (opened_stack s q) rfl hrun
        · rintro ⟨hs | hs, -⟩ <;> simp [hstate] at hs
        · exact hmoves.trans (.only q rfl rfl id (fun _ h => List.mem_append_left _ h) fun _ _ => rfl)
        · simp [trackRunning]
        · intro _
          show ((opened s q).slots q).state = .running
          rw [opened_slot]

variable [Inhabited V]

theorem demandWith_answered (hpull : PullKept fam scope tolerated pull)
    (hfix : ∀ c, CanFail (fam.body c) → tolerated c ∨ c.kind.isFixpoint = false)
    (hclosed : ∀ p c, scope p → Calls fam p c → scope c) (h : Kept scope tolerated s) (hscope : scope q)
    (hsafe : ∀ c, c ≠ q → scope c → Safe fam tolerated s.toDb c) (hself : s.stack = [] ∨ Safe fam tolerated s.toDb q)
    {a : Answer V} (hrun : demandWith fam pull q s = some (a, s')) : Answered scope tolerated s q a s' := by
  obtain ⟨halloc, hpass, hstack, hloc⟩ := slotAlloc_kept (q := q) h
  unfold demandWith queryBegin at hrun
  rw [checkCancel_eq] at hrun
  generalize ht : ({ slotAlloc s q with cancelIn := (slotAlloc s q).cancelIn.map (· - 1) } : State V F) = t at hrun
  have hkept : Kept scope tolerated t := by
    subst ht
    exact ⟨⟨halloc.slots, halloc.frames, halloc.members⟩, halloc.log⟩
  have hpass' : Passes s.toDb t.toDb := by
    subst ht
    exact ⟨hpass.current, hpass.request, fun hc => sticky_tick (hpass.sticky hc), hpass.mono, hpass.tracked,
      hpass.running,
      hpass.verified, hpass.inputs⟩
  have hstack' : t.stack = s.stack := by
    subst ht
    exact hstack
  have hloc' : isLocated t.toDb q = true := by
    subst ht
    exact hloc
  refine Answered.of_passes ?_ hpass' hstack'
  simp only at hrun
  split at hrun
  · simp at hrun
  · rename_i r u hbegin
    split at hbegin
    · simp only [Option.some.injEq, Prod.mk.injEq] at hbegin
      obtain ⟨rfl, rfl⟩ := hbegin
      simp only [answerOf, Option.some.injEq, Prod.mk.injEq] at hrun
      obtain ⟨rfl, rfl⟩ := hrun
      exact ⟨emit_kept hkept trivial, .refl _, .refl _, by simp [needsDep]⟩
    · exact begun_answered hpull hfix hclosed hkept hscope hloc'
        (fun c hne hc => (hsafe c hne hc).moves hpass' (fun hx => hx) (hfix c))
        (hstack' ▸ hself.imp_right fun hs => hs.moves hpass' (fun hx => hx) (hfix q)) hbegin hrun

/-- At any depth, demands keep the invariant and record what they answer. -/
theorem demand_kept (hfix : ∀ c, CanFail (fam.body c) → tolerated c ∨ c.kind.isFixpoint = false)
    (hclosed : ∀ p c, scope p → Calls fam p c → scope c) (depth : Nat) :
    PullKept fam scope tolerated (demand fam depth) := by
  induction depth with
  | zero =>
      intro q s a s' hrun
      simp [demand] at hrun
  | succ depth ih =>
      intro q s a s' hrun h hscope hsafe
      exact demandWith_answered ih hfix hclosed h hscope (fun c _ hc => hsafe c hc) (.inr (hsafe q hscope)) hrun

end Demand

end Ore.EngineRecording
