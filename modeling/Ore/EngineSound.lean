import Mathlib.Logic.Relation
import Ore.EngineFacts

namespace Ore.EngineSound

open Tasks EngineModel EngineFacts

variable {V F : Type}

/-- The content and the tier of every input at one revision. -/
structure Inputs (V : Type) where
  value : Query → V
  tier : Query → Durability

/-- The queries as a family of pure tasks. -/
def system (fam : Family V F) : System Query V where
  isInput q := q.kind.isInput
  body := fam.body
  bottom := fam.bottom
  onError := fam.onError

def Calls (fam : Family V F) (q c : Query) : Prop := q.kind.isInput = false ∧ Demands (fam.body q) c

/-- The assumptions on a family: acyclic but for queries of the bottom policy
that demand themselves, and without fingerprint collisions. -/
structure Lawful (fam : Family V F) (rank : Query → Nat) : Prop where
  ranked : (system fam).Ranked rank
  selfBottom : ∀ q, Calls fam q q → q.kind.isFixpoint = false
  injective : ∀ q v w, fam.fingerprint q v = fam.fingerprint q w → v = w
  failNone : ∀ q, CanFail (fam.body q) → ∀ v, fam.fingerprint q v ≠ none

def fpOf (fam : Family V F) (q : Query) : Outcome V → Option F
  | .ok v => fam.fingerprint q v
  | .failed => none

def Settled (s : Db V F) (q : Query) : Prop := (s.slots q).state = .done ∨ (s.slots q).state = .error

def Fresh (s : Db V F) (q : Query) : Prop := Settled s q ∧ (s.slots q).verifiedRev = s.current

def outcome (s : Db V F) (q : Query) : Outcome V :=
  if (s.slots q).state = .error then .failed else .ok (s.columns q)

/-- Every other query below `q` that can fail has been settled at this
revision. -/
def FailuresKnown (fam : Family V F) (s : Db V F) (q : Query) : Prop :=
  ∀ c, c ≠ q → Relation.TransGen (Calls fam) q c → CanFail (fam.body c) → Fresh s c

section Invariant

variable (fam : Family V F) (ranks : Nat → Query → Nat) (hist : Nat → Inputs V)

abbrev evalAt (r : Nat) (q : Query) : Outcome V := (system fam).eval (ranks r) (hist r).value q

abbrev readsAt (r : Nat) (q : Query) : List Query := reads ((system fam).ask (ranks r) (hist r).value q) (fam.body q)

/-- The body of one query demands another at revision `r`. -/
def ReadsOf (r : Nat) (q c : Query) : Prop := q.kind.isInput = false ∧ c ∈ readsAt fam ranks hist r q

/-- The same assumptions, of what the bodies demand at each revision. -/
structure LawfulAt : Prop where
  ranked : ∀ r, (system fam).RankedAt (ranks r) (hist r).value
  selfBottom : ∀ r q, ReadsOf fam ranks hist r q q → q.kind.isFixpoint = false
  injective : ∀ q v w, fam.fingerprint q v = fam.fingerprint q w → v = w
  failNone : ∀ q, CanFail (fam.body q) → ∀ v, fam.fingerprint q v ≠ none

/-- Every other query that `q` leads to at this revision and that can fail has
been settled at it. -/
def FailuresKnownAt (s : Db V F) (q : Query) : Prop :=
  ∀ c, c ≠ q → Relation.TransGen (ReadsOf fam ranks hist s.current) q c → CanFail (fam.body c) → Fresh s c

/-- What a settled slot says about its query: the result at revision `r`, a
fingerprint of each child at that revision in the order of the demands, and a
tier below every input. -/
structure Memo (r : Nat) (q : Query) (o : Outcome V) (slot : Slot F) : Prop where
  result : evalAt fam ranks hist r q = o
  fp : slot.fingerprint = fpOf fam q o
  reads : ∀ c, c ∈ slot.deps.map (·.query) ↔ c ∈ readsAt fam ranks hist r q ∧ c ≠ q
  ordered : Ordered q (slot.deps.map (·.query)) (readsAt fam ranks hist r q)
  fps : ∀ d ∈ slot.deps, d.fp = fpOf fam d.query (evalAt fam ranks hist r d.query)
  bound : ∀ i, (system fam).Touches (ranks r) (hist r).value q i → slot.durability ≤ (hist r).tier i

/-- A set input slot carries the current fingerprint and tier. -/
structure InputSlot (s : Db V F) (i : Query) : Prop where
  state : (s.slots i).state = .done
  fp : (s.slots i).fingerprint = fam.fingerprint i (s.columns i)
  durability : (s.slots i).durability = (hist s.current).tier i
  deps : (s.slots i).deps = []

/-- The invariant of the database at every call boundary. -/
structure Sound (s : Db V F) : Prop where
  pinned : effectiveRevision s = s.current
  cancel : s.cancelIn = none
  scc : s.scc = none
  provisional : ∀ q, (s.slots q).provisional = false
  located : ∀ q, (s.slots q).state ≠ .empty → isLocated s q = true
  unused : ∀ q, (s.slots q).state = .empty → (s.slots q).deps = []
  content : ∀ i, i.kind.isInput = true → s.columns i = (hist s.current).value i
  unset : ∀ i, i.kind.isInput = true → (s.slots i).state = .empty → (hist s.current).tier i = .low
  input : ∀ i, i.kind.isInput = true → (s.slots i).state = .empty ∨ InputSlot fam hist s i
  memo : ∀ q, q.kind.isInput = false → Settled s q →
    (s.slots q).verifiedRev ≤ s.current ∧ Memo fam ranks hist (s.slots q).verifiedRev q (outcome s q) (s.slots q)
  stable : ∀ d r, s.lastChanged d ≤ r → r ≤ s.current → ∀ i, d ≤ (hist r).tier i →
    (hist s.current).value i = (hist r).value i ∧ d ≤ (hist s.current).tier i

/-- The inputs that a query depends on at `r'` are no less durable than those it
depended on at `r`. -/
def TiersHeld (r r' : Nat) (q : Query) : Prop :=
  ∀ i, (system fam).Touches (ranks r') (hist r').value q i →
    ∃ j, (system fam).Touches (ranks r) (hist r).value q j ∧ (hist r).tier j ≤ (hist r').tier i

/-- Between two revisions with the same result of a query its tiers are held. -/
def TiersKeptAt : Prop :=
  ∀ r r', r ≤ r' → ∀ q, q.kind.isInput = false → evalAt fam ranks hist r q = evalAt fam ranks hist r' q →
    TiersHeld fam ranks hist r r' q

/-- A settled query that `q` leads to, and for which what it read when it was last
verified has the same results by now, depends on no less durable inputs than then. -/
def TiersHeldBelow (s : Db V F) (q : Query) : Prop :=
  ∀ p, Relation.ReflTransGen (ReadsOf fam ranks hist s.current) q p → p.kind.isInput = false → Settled s p →
    (s.slots p).verifiedRev ≤ s.current →
    (∀ c ∈ readsAt fam ranks hist (s.slots p).verifiedRev p, c ≠ p →
      evalAt fam ranks hist s.current c = evalAt fam ranks hist (s.slots p).verifiedRev c) →
    TiersHeld fam ranks hist (s.slots p).verifiedRev s.current p

/-- An answer from a slot sees the slot settled at the current revision, a slot
accepted by its durability alone is one a full walk would accept, a dep found
unmoved is settled at the current revision, and only a query that demands itself
is answered CYCLE. -/
def EventOk : Event V F → Prop
  | .answered q .cached db | .answered q .error db => Sound fam ranks hist db ∧ Fresh db q
  | .answered q .cycle db => ReadsOf fam ranks hist db.current q q
  | .answered _ .cycleProvisional _ => False
  | .answered _ _ _ => True
  | .skipped q db => (db.slots q).deps = [] ∨
      Sound fam ranks hist db ∧ (∀ p, (db.slots p).state = .running → ranks db.current q ≤ ranks db.current p) ∧
        FailuresKnownAt fam ranks hist db q ∧ TiersHeldBelow fam ranks hist db q ∧
        ∀ d ∈ (db.slots q).deps, ReadsOf fam ranks hist db.current q d.query ∧ d.query ≠ q ∧
          d.fp = fpOf fam d.query (evalAt fam ranks hist db.current d.query)
  | .compared dep _ after => (after.slots dep.query).state = .done → (after.slots dep.query).fingerprint = dep.fp →
      dep.query.kind.isInput = true ∨ Fresh after dep.query
  | .finished _ _ _ => True

def LogOk (log : List (Event V F)) : Prop := ∀ e ∈ log, EventOk fam ranks hist e

end Invariant

/-- A settled query is settled at the current revision or is verified as it was
in `s`. -/
def FreshOrKept (s s' : Db V F) (p : Query) : Prop :=
  Settled s' p → Fresh s' p ∨ (Settled s p ∧ (s'.slots p).verifiedRev = (s.slots p).verifiedRev)

theorem FreshOrKept.of_slot {s s' : Db V F} {p : Query} (hslot : s'.slots p = s.slots p) : FreshOrKept s s' p := by
  intro h
  rw [hslot]
  exact .inr ⟨by simpa [Settled, hslot] using h, rfl⟩

theorem FreshOrKept.trans {s t u : Db V F} {p : Query} (h : FreshOrKept s t p) (h' : FreshOrKept t u p)
    (hfresh : Fresh t p → Fresh u p) : FreshOrKept s u p := by
  intro hset
  rcases h' hset with hnow | ⟨hset, hrev'⟩
  · exact .inl hnow
  · exact (h hset).imp hfresh fun ⟨hset, hrev⟩ => ⟨hset, hrev'.trans hrev⟩

/-- What a nested call leaves alone. -/
structure Ext (s s' : Db V F) : Prop where
  current : s'.current = s.current
  request : s'.request = s.request
  lastChanged : s'.lastChanged = s.lastChanged
  running : ∀ p, (s.slots p).state = .running → s'.slots p = s.slots p ∧ s'.columns p = s.columns p
  noNew : ∀ p, (s'.slots p).state = .running → (s.slots p).state = .running
  fresh : ∀ p, Fresh s p → Fresh s' p
  settled : ∀ p, FreshOrKept s s' p

theorem Ext.refl (s : Db V F) : Ext s s :=
  ⟨rfl, rfl, rfl, fun _ _ => ⟨rfl, rfl⟩, fun _ h => h, fun _ h => h, fun _ => .of_slot rfl⟩

theorem Ext.trans {s t u : Db V F} (h : Ext s t) (h' : Ext t u) : Ext s u where
  current := h'.current.trans h.current
  request := h'.request.trans h.request
  lastChanged := h'.lastChanged.trans h.lastChanged
  running p hp := by
    obtain ⟨hslot, hcol⟩ := h.running p hp
    obtain ⟨hslot', hcol'⟩ := h'.running p (hslot ▸ hp)
    exact ⟨hslot'.trans hslot, hcol'.trans hcol⟩
  noNew p hp := h.noNew p (h'.noNew p hp)
  fresh p hp := h'.fresh p (h.fresh p hp)
  settled p := (h.settled p).trans (h'.settled p) (h'.fresh p)

section Lemmas

variable {fam : Family V F} {rank : Query → Nat} {ranks : Nat → Query → Nat} {hist : Nat → Inputs V} {r r' : Nat}
  {q c : Query}

theorem LogOk.emit {log : List (Event V F)} (h : LogOk fam ranks hist log) {e : Event V F}
    (he : EventOk fam ranks hist e) : LogOk fam ranks hist (log ++ [e]) := by
  intro e' he'
  rcases List.mem_append.mp he' with he' | he'
  · exact h e' he'
  · exact List.mem_singleton.mp he' ▸ he

theorem canFail_of_failed (hfam : LawfulAt fam ranks hist) (h : evalAt fam ranks hist r q = .failed) :
    CanFail (fam.body q) := by
  by_cases hin : q.kind.isInput = true
  · rw [evalAt, System.eval_input (system fam) hin] at h
    simp at h
  · rw [evalAt, System.eval_body (hfam.ranked r) (by simpa [system] using hin)] at h
    exact canFail_of_run h

/-- Equal fingerprints mean equal results. -/
theorem eval_eq_of_fp (hfam : LawfulAt fam ranks hist)
    (h : fpOf fam q (evalAt fam ranks hist r q) = fpOf fam q (evalAt fam ranks hist r' q)) :
    evalAt fam ranks hist r q = evalAt fam ranks hist r' q := by
  cases ho : evalAt fam ranks hist r q with
  | ok v =>
      cases ho' : evalAt fam ranks hist r' q with
      | ok w =>
          rw [ho, ho'] at h
          rw [hfam.injective q v w h]
      | failed =>
          rw [ho, ho'] at h
          exact absurd h (hfam.failNone q (canFail_of_failed hfam ho') v)
  | failed =>
      cases ho' : evalAt fam ranks hist r' q with
      | ok w =>
          rw [ho, ho'] at h
          exact absurd h.symm (hfam.failNone q (canFail_of_failed hfam ho) w)
      | failed => rfl

theorem calls_of_reads (h : ReadsOf fam ranks hist r q c) : Calls fam q c := ⟨h.1, demands_of_reads h.2⟩

theorem Lawful.at (h : Lawful fam rank) (hist : Nat → Inputs V) : LawfulAt fam (fun _ => rank) hist :=
  ⟨fun r => h.ranked.at (hist r).value, fun _ q hq => h.selfBottom q (calls_of_reads hq), h.injective, h.failNone⟩

theorem FailuresKnown.at {s : Db V F} (h : FailuresKnown fam s q) (ranks : Nat → Query → Nat) (hist : Nat → Inputs V) :
    FailuresKnownAt fam ranks hist s q := by
  intro c hne hc
  refine h c hne ?_
  clear hne
  induction hc with
  | single hab => exact .single (calls_of_reads hab)
  | tail _ hbc ih => exact .tail ih (calls_of_reads hbc)

theorem rank_of_reads (hfam : LawfulAt fam ranks hist) (h : ReadsOf fam ranks hist r q c) (hne : c ≠ q) :
    ranks r c < ranks r q :=
  (hfam.ranked r q c (by simpa [system] using h.1) h.2).resolve_left hne

theorem rank_of_transGen (hfam : LawfulAt fam ranks hist) (h : Relation.TransGen (ReadsOf fam ranks hist r) q c) :
    ranks r c ≤ ranks r q := by
  have hstep {a b : Query} (hab : ReadsOf fam ranks hist r a b) : ranks r b ≤ ranks r a := by
    by_cases hne : b = a
    · exact hne ▸ Nat.le_refl _
    · exact Nat.le_of_lt (rank_of_reads hfam hab hne)
  induction h with
  | single hc => exact hstep hc
  | tail _ hbc ih => exact Nat.le_trans (hstep hbc) ih

theorem FailuresKnownAt.child {s : Db V F} (h : FailuresKnownAt fam ranks hist s q) (hfam : LawfulAt fam ranks hist)
    (hc : ReadsOf fam ranks hist s.current q c) (hne : c ≠ q) : FailuresKnownAt fam ranks hist s c := by
  intro b _ hb
  refine h b ?_ (.head hc hb)
  rintro rfl
  have := rank_of_reads hfam hc hne
  have := rank_of_transGen hfam hb
  omega

theorem FailuresKnownAt.ext {s s' : Db V F} (h : FailuresKnownAt fam ranks hist s q) (hext : Ext s s') :
    FailuresKnownAt fam ranks hist s' q :=
  fun c hne hc hfail => hext.fresh c (h c hne (hext.current ▸ hc) hfail)

theorem TiersHeld.refl (fam : Family V F) (ranks : Nat → Query → Nat) (hist : Nat → Inputs V) (r : Nat) (q : Query) :
    TiersHeld fam ranks hist r r q :=
  fun i hi => ⟨i, hi, Durability.le_refl _⟩

theorem TiersHeldBelow.child {s : Db V F} (h : TiersHeldBelow fam ranks hist s q)
    (hc : ReadsOf fam ranks hist s.current q c) : TiersHeldBelow fam ranks hist s c :=
  fun p hp => h p (.head hc hp)

theorem TiersHeldBelow.kept {s s' : Db V F} (h : TiersHeldBelow fam ranks hist s q) (hcurrent : s'.current = s.current)
    (hkept : ∀ p, FreshOrKept s s' p) : TiersHeldBelow fam ranks hist s' q := by
  intro p hp hin hset hle hsame
  rw [hcurrent] at hp hle hsame ⊢
  rcases hkept p hset with hfresh | ⟨hset, hrev⟩
  · have hrev := hfresh.2
    rw [hcurrent] at hrev
    rw [hrev]
    exact .refl fam ranks hist s.current p
  · rw [hrev] at hle hsame ⊢
    exact h p hp hin hset hle hsame

theorem TiersHeldBelow.ext {s s' : Db V F} (h : TiersHeldBelow fam ranks hist s q) (hext : Ext s s') :
    TiersHeldBelow fam ranks hist s' q :=
  h.kept hext.current hext.settled

theorem TiersKeptAt.below (h : TiersKeptAt fam ranks hist) (hfam : LawfulAt fam ranks hist) (s : Db V F) (q : Query) :
    TiersHeldBelow fam ranks hist s q := by
  intro p _ hin _ hle hsame
  have heval := (System.eval_congr (hfam.ranked _) (hfam.ranked _) (show (system fam).isInput p = false from hin)
    hsame).1
  exact h _ _ hle p hin heval.symm

namespace Memo

variable {o : Outcome V} {slot slot' : Slot F}

/-- A query whose children kept their results asks for the same ones. -/
theorem kept (h : Memo fam ranks hist r q o slot) (hfam : LawfulAt fam ranks hist) (hq : q.kind.isInput = false)
    (hsame : ∀ c ∈ slot.deps.map (·.query), evalAt fam ranks hist r' c = evalAt fam ranks hist r c) :
    evalAt fam ranks hist r' q = evalAt fam ranks hist r q ∧ readsAt fam ranks hist r' q = readsAt fam ranks hist r q :=
  System.eval_congr (hfam.ranked r) (hfam.ranked r') (show (system fam).isInput q = false from hq)
    fun c hc hne => hsame c ((h.reads c).mpr ⟨hc, hne⟩)

/-- A query whose children kept their results up to a later revision is
current there. -/
theorem afterWalk (h : Memo fam ranks hist r q o slot) (hfam : LawfulAt fam ranks hist) (hq : q.kind.isInput = false)
    (hheld : TiersHeld fam ranks hist r r' q)
    (hsame : ∀ c ∈ slot.deps.map (·.query), evalAt fam ranks hist r' c = evalAt fam ranks hist r c) :
    Memo fam ranks hist r' q o slot := by
  obtain ⟨heval, hreads⟩ := h.kept hfam hq hsame
  refine ⟨heval.trans h.result, h.fp, ?_, hreads ▸ h.ordered, ?_, ?_⟩
  · intro c
    rw [h.reads c, hreads]
  · intro d hd
    rw [h.fps d hd, hsame d.query (List.mem_map_of_mem hd)]
  · intro i hi
    obtain ⟨j, hj, htier⟩ := hheld i hi
    exact Durability.le_trans (h.bound j hj) htier

/-- A query none of whose inputs moved is current. -/
theorem afterSkip (h : Memo fam ranks hist r q o slot) (hfam : LawfulAt fam ranks hist) (hq : q.kind.isInput = false)
    (hstable : ∀ i, slot.durability ≤ (hist r).tier i →
      (hist r').value i = (hist r).value i ∧ slot.durability ≤ (hist r').tier i) :
    Memo fam ranks hist r' q o slot := by
  obtain ⟨heval, htouches⟩ := System.eval_stable (hfam.ranked r) (hfam.ranked r') q
    fun i hi => (hstable i (h.bound i hi)).1
  have hchild : ∀ c ∈ readsAt fam ranks hist r q, c ≠ q → evalAt fam ranks hist r' c = evalAt fam ranks hist r c := by
    intro c hc hne
    refine (System.eval_stable (hfam.ranked r) (hfam.ranked r') c ?_).1
    intro i hi
    exact (hstable i (h.bound i (.read (show (system fam).isInput q = false from hq) hc hne hi))).1
  have hreads : readsAt fam ranks hist r' q = readsAt fam ranks hist r q :=
    (h.kept hfam hq fun c hc => hchild c ((h.reads c).mp hc).1 ((h.reads c).mp hc).2).2
  refine ⟨heval.trans h.result, h.fp, ?_, hreads ▸ h.ordered, ?_, ?_⟩
  · intro c
    rw [h.reads c, hreads]
  · intro d hd
    obtain ⟨hc, hne⟩ := (h.reads d.query).mp (List.mem_map_of_mem hd)
    rw [h.fps d hd, hchild d.query hc hne]
  · intro i hi
    exact (hstable i (h.bound i (htouches i hi))).2

/-- The shared buffer may have grown duplicate rows in the meantime. -/
theorem withDeps (h : Memo fam ranks hist r q o slot) (hfp : slot'.fingerprint = slot.fingerprint)
    (hdur : slot'.durability = slot.durability)
    (hnames : ∀ c, c ∈ slot'.deps.map (·.query) ↔ c ∈ slot.deps.map (·.query))
    (hordered : Ordered q (slot'.deps.map (·.query)) (readsAt fam ranks hist r q))
    (hfps : ∀ d ∈ slot'.deps, d.fp = fpOf fam d.query (evalAt fam ranks hist r d.query)) :
    Memo fam ranks hist r q o slot' where
  result := h.result
  fp := hfp.trans h.fp
  reads c := (hnames c).trans (h.reads c)
  ordered := hordered
  fps := hfps
  bound i hi := by
    rw [hdur]
    exact h.bound i hi

end Memo

theorem Sound.anyStack {s : Db V F} (h : Sound fam ranks hist s) (stack : List (Frame F)) (running : List Query)
    (tainted : Query → Bool) :
    Sound fam ranks hist { s with stack := stack, running := running, tainted := tainted } :=
  ⟨h.pinned, h.cancel, h.scc, h.provisional, h.located, h.unused, h.content, h.unset,
    fun i hi => (h.input i hi).imp_right fun hin => ⟨hin.state, hin.fp, hin.durability, hin.deps⟩,
    h.memo, h.stable⟩

theorem Sound.replace {s s' : Db V F} (h : Sound fam ranks hist s)
    (hcurrent : s'.current = s.current) (hrequest : s'.request = s.request)
    (hchanged : s'.lastChanged = s.lastChanged) (hcancel : s'.cancelIn = s.cancelIn) (hscc : s'.scc = s.scc)
    (hother : ∀ p, p ≠ q → s'.slots p = s.slots p ∧ s'.columns p = s.columns p)
    (hprovisional : (s'.slots q).provisional = false)
    (hlocated : (s'.slots q).state ≠ .empty → isLocated s' q = true)
    (hunused : (s'.slots q).state = .empty → (s'.slots q).deps = [])
    (hinput : q.kind.isInput = true → InputSlot fam hist s' q ∧ s'.columns q = s.columns q)
    (hmemo : q.kind.isInput = false → Settled s' q → (s'.slots q).verifiedRev ≤ s.current ∧
      Memo fam ranks hist (s'.slots q).verifiedRev q (outcome s' q) (s'.slots q)) :
    Sound fam ranks hist s' where
  pinned := by simpa [effectiveRevision, hcurrent, hrequest] using h.pinned
  cancel := hcancel.trans h.cancel
  scc := hscc.trans h.scc
  provisional p := by
    by_cases hp : p = q
    · rw [hp, hprovisional]
    · rw [(hother p hp).1, h.provisional p]
  located p hstate := by
    by_cases hp : p = q
    · subst hp
      exact hlocated hstate
    · have hloc := h.located p
      rw [(hother p hp).1] at hstate
      simpa [isLocated, (hother p hp).1] using hloc hstate
  unused p hstate := by
    by_cases hp : p = q
    · subst hp
      exact hunused hstate
    · rw [(hother p hp).1] at hstate ⊢
      exact h.unused p hstate
  content i hi := by
    rw [hcurrent, ← h.content i hi]
    by_cases hiq : i = q
    · subst hiq
      exact (hinput hi).2
    · exact (hother i hiq).2
  unset i hi hempty := by
    rw [hcurrent]
    by_cases hiq : i = q
    · subst hiq
      simp [(hinput hi).1.state] at hempty
    · rw [(hother i hiq).1] at hempty
      exact h.unset i hi hempty
  input i hi := by
    by_cases hiq : i = q
    · subst hiq
      exact .inr (hinput hi).1
    · obtain ⟨hslot, hcol⟩ := hother i hiq
      rcases h.input i hi with hempty | hin
      · exact .inl (by rw [hslot, hempty])
      · exact .inr ⟨by rw [hslot, hin.state], by rw [hslot, hcol, hin.fp], by rw
          [hslot, hcurrent, hin.durability], by rw [hslot, hin.deps]⟩
  memo p hp hset := by
    rw [hcurrent]
    by_cases hpq : p = q
    · subst hpq
      exact hmemo hp hset
    · obtain ⟨hslot, hcol⟩ := hother p hpq
      have hout : outcome s' p = outcome s p := by simp [outcome, hslot, hcol]
      rw [hslot, hout]
      exact h.memo p hp (by simpa [Settled, hslot] using hset)
  stable := by
    rw [hcurrent, hchanged]
    exact h.stable

end Lemmas

end Ore.EngineSound
