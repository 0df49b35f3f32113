import Ore.EngineSound

namespace Ore.EngineDiscipline

open Tasks EngineModel EngineFacts EngineSound

variable {V F : Type}

/-- The answers that a body must find recorded when it ends. -/
def needsDep : AnswerKind → Bool
  | .cached | .succeeded | .failed | .cachedError => true
  | .cycle | .provisional | .canceled | .abandoned => false

def Verified (s : Db V F) (q : Query) : Prop := Settled s q ∧ (s.slots q).verifiedRev = effectiveRevision s

/-- What a call leaves alone, but for the queries in `x`. -/
structure Moves (x : Query → Prop) (s s' : Db V F) : Prop where
  current : s'.current = s.current
  request : s'.request = s.request
  sticky : s.cancelIn = some 0 → s'.cancelIn = some 0
  mono : ∀ p ∈ s.running, p ∈ s'.running
  tracked : ∀ p, ¬ x p → (s'.slots p).state = .running → (s.slots p).state = .running ∨ p ∈ s'.running
  running : ∀ p, ¬ x p → p.kind.isFixpoint = false → (s.slots p).state = .running → (s'.slots p).state = .running
  verified : ∀ p, ¬ x p → p.kind.isFixpoint = false → Verified s p → Verified s' p
  inputs : ∀ p, ¬ x p → p.kind.isInput = true → (s.slots p).state = .done → (s'.slots p).state = .done

abbrev Passes (s s' : Db V F) : Prop := Moves (fun _ => False) s s'

/-- The frame on top may have recorded more; the frames below are as before. -/
def Grown : List (Frame F) → List (Frame F) → Prop
  | [], [] => True
  | f :: rest, f' :: rest' =>
      rest' = rest ∧ f'.query = f.query ∧ f'.consumed = f.consumed ∧ ∀ c ∈ names f, c ∈ names f'
  | _, _ => False

section Invariant

variable (fam : Family V F) (scope tolerated : Query → Prop)

/-- Every settled answer has an entry, but for the tolerated fresh failures. -/
def Covers (deps : List (Dep F)) (consumed : List (Query × AnswerKind)) : Prop :=
  ∀ x ∈ consumed, needsDep x.2 = true → x.1 ∈ deps.map (·.query) ∨ x.2 = .failed ∧ tolerated x.1

/-- The dependency buffer of a slot or of a frame. -/
structure Buffer (slots : Query → Slot F) (q : Query) (deps : List (Dep F)) (consumed : List (Query × AnswerKind)) :
    Prop where
  covers : Covers tolerated deps consumed
  inputs : ∀ d ∈ deps, d.query.kind.isInput = true → (slots d.query).state = .done
  inScope : scope q → ∀ d ∈ deps, scope d.query

structure SlotKept (slots : Query → Slot F) (q : Query) : Prop where
  located : (slots q).state ≠ .empty → (!q.kind.isHashRouted || (slots q).routed) = true
  buffer : Buffer scope tolerated slots q (slots q).deps (slots q).consumed
  input : q.kind.isInput = true → (slots q).deps = [] ∧ ((slots q).state = .empty ∨ (slots q).state = .done)

/-- The invariant without the log. -/
structure KeptDb (s : Db V F) : Prop where
  slots : ∀ q, SlotKept scope tolerated s.slots q
  frames : ∀ f ∈ s.stack, scope f.query ∧ Buffer scope tolerated s.slots f.query f.deps f.consumed
  members : ∀ m ∈ sccQueries s, m.kind.isFixpoint = true ∧ scope m

def EventKept : Event V F → Prop
  | .answered _ _ _ | .compared _ _ _ => True
  | .skipped q db => (db.slots q).deps = [] ∨ KeptDb (fun _ => True) tolerated db
  | .finished _ deps consumed => Covers tolerated deps consumed

/-- The invariant of dependency recording, for any family and at any call
boundary. -/
structure Kept (s : State V F) : Prop extends KeptDb scope tolerated s.toDb where
  log : ∀ e ∈ s.log, EventKept tolerated e

/-- A query that can fail is settled, or in progress, or its failures are
tolerated. -/
def Safe (s : Db V F) (c : Query) : Prop :=
  CanFail (fam.body c) → tolerated c ∨ Verified s c ∨ (s.slots c).state = .running

/-- What an answered demand guarantees. -/
structure Answered (s : State V F) (q : Query) (a : Answer V) (s' : State V F) : Prop where
  kept : Kept scope tolerated s'
  passes : Passes s.toDb s'.toDb
  grown : Grown s.stack s'.stack
  recorded : needsDep a.kind = true → s.stack = [] ∨ (∃ f ∈ s'.stack.head?, q ∈ names f) ∨ a.kind = .failed ∧
    tolerated q

def PullKept (pull : Pull V F) : Prop :=
  ∀ q s a s', pull q s = some (a, s') → Kept scope tolerated s → scope q →
    (∀ c, scope c → Safe fam tolerated s.toDb c) →
    Answered scope tolerated s q a s'

end Invariant

namespace Moves

variable {s t u : Db V F} {x y : Query → Prop}

theorem refl (s : Db V F) : Moves x s s :=
  ⟨rfl, rfl, id, fun _ h => h, fun _ _ h => .inl h, fun _ _ _ h => h, fun _ _ _ h => h, fun _ _ _ h => h⟩

theorem trans (h : Moves x s t) (h' : Moves x t u) : Moves x s u where
  current := h'.current.trans h.current
  request := h'.request.trans h.request
  sticky hc := h'.sticky (h.sticky hc)
  mono p hp := h'.mono p (h.mono p hp)
  tracked p hp hrun := by
    rcases h'.tracked p hp hrun with hrun | hmem
    · exact (h.tracked p hp hrun).imp_right (h'.mono p)
    · exact .inr hmem
  running p hp hk hrun := h'.running p hp hk (h.running p hp hk hrun)
  verified p hp hk hv := h'.verified p hp hk (h.verified p hp hk hv)
  inputs p hp hi hd := h'.inputs p hp hi (h.inputs p hp hi hd)

theorem weaken (h : Moves x s t) (hxy : ∀ p, x p → y p) : Moves y s t where
  current := h.current
  request := h.request
  sticky := h.sticky
  mono := h.mono
  tracked p hp := h.tracked p fun hx => hp (hxy p hx)
  running p hp := h.running p fun hx => hp (hxy p hx)
  verified p hp := h.verified p fun hx => hp (hxy p hx)
  inputs p hp := h.inputs p fun hx => hp (hxy p hx)

theorem effective (h : Moves x s t) : effectiveRevision t = effectiveRevision s := by
  simp [effectiveRevision, h.current, h.request]

theorem only (q : Query) (hcurrent : t.current = s.current) (hrequest : t.request = s.request)
    (hsticky : s.cancelIn = some 0 → t.cancelIn = some 0) (hmono : ∀ p ∈ s.running, p ∈ t.running)
    (hother : ∀ p, p ≠ q → t.slots p = s.slots p) : Moves (· = q) s t where
  current := hcurrent
  request := hrequest
  sticky := hsticky
  mono := hmono
  tracked p hp hrun := .inl (by rwa [hother p hp] at hrun)
  running p hp _ hrun := by rwa [hother p hp]
  verified p hp _ hv := by simpa [Verified, Settled, effectiveRevision, hother p hp, hcurrent, hrequest] using hv
  inputs p hp _ hd := by rwa [hother p hp]

theorem close {q : Query} (h : Moves (· = q) s t)
    (htracked : (t.slots q).state = .running → (s.slots q).state = .running ∨ q ∈ t.running)
    (hrunning : q.kind.isFixpoint = false → (s.slots q).state = .running → (t.slots q).state = .running)
    (hverified : q.kind.isFixpoint = false → Verified s q → Verified t q)
    (hinputs : q.kind.isInput = true → (s.slots q).state = .done → (t.slots q).state = .done) : Passes s t where
  current := h.current
  request := h.request
  sticky := h.sticky
  mono := h.mono
  tracked p _ hrun := by
    by_cases hp : p = q
    · subst hp
      exact htracked hrun
    · exact h.tracked p hp hrun
  running p _ hk hrun := by
    by_cases hp : p = q
    · subst hp
      exact hrunning hk hrun
    · exact h.running p hp hk hrun
  verified p _ hk hv := by
    by_cases hp : p = q
    · subst hp
      exact hverified hk hv
    · exact h.verified p hp hk hv
  inputs p _ hi hd := by
    by_cases hp : p = q
    · subst hp
      exact hinputs hi hd
    · exact h.inputs p hp hi hd

end Moves

namespace Grown

variable {a b c : List (Frame F)} {f : Frame F} {rest : List (Frame F)}

theorem refl (a : List (Frame F)) : Grown a a := by
  cases a with
  | nil => trivial
  | cons f rest => exact ⟨rfl, rfl, rfl, fun _ h => h⟩

theorem cons_left (h : Grown (f :: rest) b) :
    ∃ f', b = f' :: rest ∧ f'.query = f.query ∧ f'.consumed = f.consumed ∧ ∀ c ∈ names f, c ∈ names f' := by
  cases b with
  | nil => exact absurd h id
  | cons f' rest' =>
      obtain ⟨rfl, hq, hc, hn⟩ := h
      exact ⟨f', rfl, hq, hc, hn⟩

theorem nil_left (h : Grown [] b) : b = [] := by
  cases b with
  | nil => rfl
  | cons f' rest' => exact absurd h id

theorem nil_right (h : Grown a []) : a = [] := by
  cases a with
  | nil => rfl
  | cons f rest => exact absurd h id

theorem trans (h : Grown a b) (h' : Grown b c) : Grown a c := by
  cases a with
  | nil =>
      rw [h.nil_left] at h'
      exact h'
  | cons f rest =>
      obtain ⟨g, rfl, hq, hc, hn⟩ := h.cons_left
      obtain ⟨g', rfl, hq', hc', hn'⟩ := h'.cons_left
      exact ⟨rfl, hq'.trans hq, hc'.trans hc, fun c hmem => hn' c (hn c hmem)⟩

theorem recordTop (a : List (Frame F)) (q : Query) (fp : Option F) (dur : Durability) :
    Grown a (recordTop a q fp dur) := by
  cases a with
  | nil => trivial
  | cons f rest =>
      refine ⟨rfl, recordDep_query .., recordDep_consumed .., ?_⟩
      intro c hc
      exact (mem_names_recordDep ..).mpr (.inl hc)

/-- What was recorded on top stays recorded. -/
theorem keep (h : Grown a b) {q : Query} (hmem : ∃ f ∈ a.head?, q ∈ names f) : ∃ f ∈ b.head?, q ∈ names f := by
  obtain ⟨f, hf, hq⟩ := hmem
  cases a with
  | nil => simp at hf
  | cons g rest =>
      simp only [List.head?_cons, Option.mem_def, Option.some.injEq] at hf
      subst hf
      obtain ⟨g', rfl, -, -, hn⟩ := h.cons_left
      exact ⟨g', by simp, hn q hq⟩

end Grown

section Lemmas

variable {fam : Family V F} {scope tolerated : Query → Prop} {s s' t : State V F} {q c : Query} {x : Query → Prop}

theorem Safe.moves (h : Safe fam tolerated s.toDb c) (hm : Moves x s.toDb t.toDb) (hx : ¬ x c)
    (hfix : CanFail (fam.body c) → tolerated c ∨ c.kind.isFixpoint = false) : Safe fam tolerated t.toDb c := by
  intro hfail
  rcases hfix hfail with ht | hk
  · exact .inl ht
  · rcases h hfail with ht | hv | hr
    · exact .inl ht
    · exact .inr (.inl (hm.verified c hx hk hv))
    · exact .inr (.inr (hm.running c hx hk hr))

namespace Buffer

variable {deps : List (Dep F)} {consumed : List (Query × AnswerKind)}

theorem nil : Buffer scope tolerated s.slots q [] [] :=
  ⟨fun _ h => by simp at h, fun _ h => by simp at h, fun _ _ h => by simp at h⟩

theorem mono {slots slots' : Query → Slot F} (h : Buffer scope tolerated slots q deps consumed)
    (hinputs : ∀ p, p.kind.isInput = true → (slots p).state = .done → (slots' p).state = .done) :
    Buffer scope tolerated slots' q deps consumed :=
  ⟨h.covers, fun d hd hi => hinputs d.query hi (h.inputs d hd hi), h.inScope⟩

theorem recordDep {f : Frame F} (h : Buffer scope tolerated s.slots f.query f.deps f.consumed) {fp : Option F}
    {dur : Durability} (hscope : scope c) (hinput : c.kind.isInput = true → (s.slots c).state = .done) :
    Buffer scope tolerated s.slots (recordDep f c fp dur).query (recordDep f c fp dur).deps
      (recordDep f c fp dur).consumed := by
  rw [recordDep_query, recordDep_consumed]
  refine ⟨?_, ?_, ?_⟩
  · intro x hx hneed
    refine (h.covers x hx hneed).imp_left fun hmem => ?_
    exact (mem_names_recordDep f c fp dur x.1).mpr (.inl hmem)
  · intro d hd
    rcases mem_recordDep hd with hd | rfl
    · exact h.inputs d hd
    · exact hinput
  · intro hq d hd
    rcases mem_recordDep hd with hd | rfl
    · exact h.inScope hq d hd
    · exact hscope

end Buffer

theorem KeptDb.widen {db : Db V F} (h : KeptDb scope tolerated db) : KeptDb (fun _ => True) tolerated db where
  slots p := by
    obtain ⟨hloc, hbuf, hin⟩ := h.slots p
    exact ⟨hloc, ⟨hbuf.covers, hbuf.inputs, fun _ _ _ => trivial⟩, hin⟩
  frames f hf := by
    obtain ⟨-, hbuf⟩ := h.frames f hf
    exact ⟨trivial, hbuf.covers, hbuf.inputs, fun _ _ _ => trivial⟩
  members m hm := ⟨(h.members m hm).1, trivial⟩

/-- Rebuild the invariant where slots, frames and events changed. -/
theorem Kept.step (h : Kept scope tolerated s) (s' : State V F)
    (hinputs : ∀ p, p.kind.isInput = true → (s.slots p).state = .done → (s'.slots p).state = .done)
    (hslots : ∀ p, s'.slots p = s.slots p ∨ SlotKept scope tolerated s'.slots p)
    (hframes : ∀ f ∈ s'.stack, f ∈ s.stack ∨ scope f.query ∧ Buffer scope tolerated s'.slots f.query f.deps f.consumed)
    (hmembers : ∀ m ∈ sccQueries s'.toDb, m ∈ sccQueries s.toDb ∨ m.kind.isFixpoint = true ∧ scope m)
    (hlog : ∀ e ∈ s'.log, e ∈ s.log ∨ EventKept tolerated e) : Kept scope tolerated s' where
  slots p := by
    rcases hslots p with heq | hk
    · have hp := h.slots p
      refine ⟨?_, ?_, ?_⟩
      · rw [heq]
        intro hstate
        exact hp.located hstate
      · rw [heq]
        exact hp.buffer.mono hinputs
      · rw [heq]
        exact hp.input
    · exact hk
  frames f hf := by
    rcases hframes f hf with hf | hf
    · exact ⟨(h.frames f hf).1, (h.frames f hf).2.mono hinputs⟩
    · exact hf
  members m hm := (hmembers m hm).elim (h.members m) id
  log e he := (hlog e he).elim (h.log e) id

end Lemmas

end Ore.EngineDiscipline
