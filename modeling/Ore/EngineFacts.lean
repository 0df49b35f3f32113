import Ore.EngineModel

namespace Ore.EngineModel.Durability

theorem le_refl (d : Durability) : d ≤ d := Nat.le_refl d.level

theorem le_trans {a b c : Durability} (hab : a ≤ b) (hbc : b ≤ c) : a ≤ c := Nat.le_trans hab hbc

theorem low_le (d : Durability) : .low ≤ d := Nat.zero_le d.level

theorem le_of_not_lt {a b : Durability} (h : ¬ a < b) : b ≤ a := Nat.le_of_not_lt h

theorem le_of_lt {a b : Durability} (h : a < b) : a ≤ b := Nat.le_of_lt h

theorem not_le_of_lt {a b : Durability} (h : a < b) : ¬ b ≤ a := Nat.not_le_of_lt h

theorem lt_of_not_le {a b : Durability} (h : ¬ a ≤ b) : b < a := Nat.lt_of_not_le h

end Ore.EngineModel.Durability

namespace Ore.EngineFacts

open Tasks EngineModel

variable {V F : Type} {s s' : State V F} {q p c : Query}

@[simp] theorem modifySlot_self (s : State V F) (q : Query) (f : Slot F → Slot F) :
    (s.modifySlot q f).slots q = f (s.slots q) := by
  simp [State.modifySlot]

theorem modifySlot_ne (s : State V F) (f : Slot F → Slot F) (h : p ≠ q) : (s.modifySlot q f).slots p = s.slots p := by
  simp [State.modifySlot, h]

@[simp] theorem modifySlot_stack (s : State V F) (q : Query) (f : Slot F → Slot F) :
    (s.modifySlot q f).stack = s.stack := rfl

@[simp] theorem modifySlot_columns (s : State V F) (q : Query) (f : Slot F → Slot F) :
    (s.modifySlot q f).columns = s.columns := rfl

/-- The queries a frame has recorded, row by row. -/
def names (frame : Frame F) : List Query := frame.deps.map (·.query)

/-- Recording keeps the rows in place: the child's row is refreshed, or one row
is added for it. -/
theorem recordDep_names (frame : Frame F) (child : Query) (fp : Option F) (dur : Durability) :
    (names (recordDep frame child fp dur) = names frame ∧ child ∈ names frame) ∨
      names (recordDep frame child fp dur) = names frame ++ [child] := by
  unfold recordDep names
  simp only
  split
  · rename_i hit
    left
    obtain ⟨hrow, hname⟩ := hit
    generalize frame.depIndex (depIndexKey child) = row at hrow hname
    simp only [Option.map_eq_some_iff] at hname
    obtain ⟨dep, hdep, rfl⟩ := hname
    obtain ⟨hlt, hget⟩ := List.getElem?_eq_some_iff.mp hdep
    refine ⟨?_, List.mem_map.mpr ⟨dep, List.mem_of_getElem? hdep, rfl⟩⟩
    simp only [List.map_set]
    conv_rhs => rw [← @List.set_getElem_self _ (frame.deps.map (·.query)) row (by simpa using hlt)]
    simp [hget]
  · right
    simp

theorem mem_names_recordDep (frame : Frame F) (child : Query) (fp : Option F) (dur : Durability) (c : Query) :
    c ∈ names (recordDep frame child fp dur) ↔ c ∈ names frame ∨ c = child := by
  rcases recordDep_names frame child fp dur with ⟨h, hmem⟩ | h
  · rw [h]
    constructor
    · exact .inl
    · rintro (hc | rfl)
      · exact hc
      · exact hmem
  · simp [h]

theorem getElem?_names_recordDep {frame : Frame F} {child : Query} {fp : Option F} {dur : Durability} {i : Nat}
    {c : Query} (h : (names frame)[i]? = some c) : (names (recordDep frame child fp dur))[i]? = some c := by
  rcases recordDep_names frame child fp dur with ⟨heq, -⟩ | heq
  · rw [heq, h]
  · rw [heq, List.getElem?_append_left (List.getElem?_eq_some_iff.mp h).1, h]

theorem take_names_recordDep {frame : Frame F} {child : Query} {fp : Option F} {dur : Durability} {i : Nat}
    (h : i < (names frame).length) :
    (names (recordDep frame child fp dur)).take (i + 1) = (names frame).take (i + 1) := by
  rcases recordDep_names frame child fp dur with ⟨heq, -⟩ | heq
  · rw [heq]
  · rw [heq, List.take_append_of_le_length h]

theorem mem_recordDep {frame : Frame F} {child : Query} {fp : Option F} {dur : Durability} {d : Dep F}
    (h : d ∈ (recordDep frame child fp dur).deps) : d ∈ frame.deps ∨ d = ⟨child, fp, dur⟩ := by
  unfold recordDep at h
  simp only at h
  split at h
  · exact List.mem_or_eq_of_mem_set h
  · simpa using h

@[simp] theorem recordDep_query (frame : Frame F) (child : Query) (fp : Option F) (dur : Durability) :
    (recordDep frame child fp dur).query = frame.query := by
  unfold recordDep
  simp only
  split <;> rfl

@[simp] theorem recordDep_consumed (frame : Frame F) (child : Query) (fp : Option F) (dur : Durability) :
    (recordDep frame child fp dur).consumed = frame.consumed := by
  unfold recordDep
  simp only
  split <;> rfl

@[simp] theorem recordDep_durSet (frame : Frame F) (child : Query) (fp : Option F) (dur : Durability) :
    (recordDep frame child fp dur).durSet = true := rfl

theorem recordDep_minInputDur (frame : Frame F) (child : Query) (fp : Option F) (dur : Durability) :
    (recordDep frame child fp dur).minInputDur ≤ dur ∧
      (frame.durSet = true → (recordDep frame child fp dur).minInputDur ≤ frame.minInputDur) := by
  have heq : (recordDep frame child fp dur).minInputDur =
      if frame.durSet = false ∨ dur < frame.minInputDur then dur else frame.minInputDur := by
    unfold recordDep
    simp only
    split <;> rfl
  rw [heq]
  split
  · rename_i h
    refine ⟨Durability.le_refl _, ?_⟩
    intro hset
    rcases h with h | h
    · simp [hset] at h
    · exact Durability.le_of_lt h
  · rename_i h
    refine ⟨Durability.le_of_not_lt fun hlt => h (.inr hlt), fun _ => Durability.le_refl _⟩

def recordTop (stack : List (Frame F)) (q : Query) (fp : Option F) (dur : Durability) : List (Frame F) :=
  match stack with
  | [] => []
  | top :: rest => recordDep top q fp dur :: rest

/-- The state in which a settled slot is verified, or an empty one computed. -/
def opened (s : State V F) (q : Query) : State V F :=
  queryStackPush (s.modifySlot q fun slot => { slot with state := .running }) q

def openedFrame (s : State V F) (q : Query) : Frame F :=
  ⟨q, (s.slots q).deps, (s.slots q).depIndex, .high, false, (s.slots q).consumed⟩

theorem revalidate_eq [DecidableEq F] (pull : Pull V F) (prev : QueryState) (hit : BeginResult) (q : Query)
    (s : State V F) :
    revalidate pull prev hit q s =
      match engineVerify pull q (opened s q) with
      | none => none
      | some (true, t) => some (hit, accept prev q t)
      | some (false, t) => some (.compute, reject q t) := rfl

theorem opened_stack (s : State V F) (q : Query) : (opened s q).stack = openedFrame s q :: s.stack := by
  simp [opened, queryStackPush, openedFrame]

theorem opened_slot (s : State V F) (q : Query) :
    (opened s q).slots q = { s.slots q with state := .running } := by
  simp [opened, queryStackPush]

theorem opened_ne (s : State V F) {p q : Query} (h : p ≠ q) : (opened s q).slots p = s.slots p := by
  simp [opened, queryStackPush, modifySlot_ne _ _ h]

@[simp] theorem opened_current (s : State V F) (q : Query) : (opened s q).current = s.current := rfl

variable {top : Frame F} {rest : List (Frame F)}

theorem accept_slot (prev : QueryState) (hstack : s.stack = top :: rest) :
    (accept prev q s).slots q =
      { s.slots q with
        state := prev, verifiedRev := effectiveRevision s.toDb, deps := top.deps, depIndex := top.depIndex
        consumed := top.consumed } := by
  unfold accept
  cases rest <;> simp [transferDeps, recordDepOnParent, queryStackPop, hstack, State.modifySlot]

theorem accept_ne (prev : QueryState) (hstack : s.stack = top :: rest) {p : Query} (hp : p ≠ q) :
    (accept prev q s).slots p = s.slots p := by
  unfold accept
  cases rest <;> simp [transferDeps, recordDepOnParent, queryStackPop, hstack, State.modifySlot, hp]

theorem accept_stack (prev : QueryState) (hstack : s.stack = top :: rest) :
    (accept prev q s).stack = recordTop rest q (s.slots q).fingerprint (s.slots q).durability := by
  unfold accept
  cases rest <;> simp [transferDeps, recordDepOnParent, queryStackPop, hstack, State.modifySlot, recordTop]

/-- Accepting touches nothing but the slot, its frame and the frame below. -/
theorem accept_rest (prev : QueryState) (hstack : s.stack = top :: rest) :
    (accept prev q s).columns = s.columns ∧ (accept prev q s).current = s.current ∧
      (accept prev q s).request = s.request ∧ (accept prev q s).lastChanged = s.lastChanged ∧
      (accept prev q s).cancelIn = s.cancelIn ∧ (accept prev q s).scc = s.scc ∧ (accept prev q s).log = s.log := by
  unfold accept
  cases rest <;> simp [transferDeps, recordDepOnParent, queryStackPop, hstack, State.modifySlot]

/-- What is left of the frame of a rejected query. -/
def clearedFrame (frame : Frame F) : Frame F := { frame with deps := [], depIndex := fun _ => 0, consumed := [] }

theorem reject_slot (s : State V F) (q : Query) :
    (reject q s).slots q =
      { s.slots q with deps := [], depIndex := fun _ => 0, consumed := [], fingerprint := none } := by
  unfold reject clearDeps
  cases hstack : s.stack <;> simp [trackRunning, State.modifySlot, hstack]

theorem reject_ne (s : State V F) (hp : p ≠ q) : (reject q s).slots p = s.slots p := by
  unfold reject clearDeps
  cases hstack : s.stack <;> simp [trackRunning, State.modifySlot, hstack, hp]

theorem reject_stack (hstack : s.stack = top :: rest) : (reject q s).stack = clearedFrame top :: rest := by
  simp [reject, clearDeps, trackRunning, State.modifySlot, hstack, clearedFrame]

theorem reject_rest (s : State V F) (q : Query) :
    (reject q s).columns = s.columns ∧ (reject q s).current = s.current ∧ (reject q s).request = s.request ∧
      (reject q s).lastChanged = s.lastChanged ∧ (reject q s).cancelIn = s.cancelIn ∧ (reject q s).scc = s.scc ∧
      (reject q s).log = s.log := by
  unfold reject clearDeps
  cases hstack : s.stack <;> simp [trackRunning, State.modifySlot, hstack]

theorem noteConsumed_stack {kind : AnswerKind} (hstack : s.stack = top :: rest) :
    (noteConsumed c kind s).stack = { top with consumed := top.consumed ++ [(c, kind)] } :: rest := by
  simp [noteConsumed, hstack]

theorem noteConsumed_rest (c : Query) (kind : AnswerKind) (s : State V F) :
    noteConsumed c kind s = { s with stack := (noteConsumed c kind s).stack } := by
  unfold noteConsumed
  cases hstack : s.stack <;> simp

def frameTier (frame : Frame F) : Durability := if frame.durSet then frame.minInputDur else .low

/-- A slot settled with the frame `top`. -/
def settledSlot (slot : Slot F) (top : Frame F) (state : QueryState) (fp : Option F) (rev : Nat) : Slot F :=
  { slot with
    state := state, fingerprint := fp, verifiedRev := rev, durability := frameTier top, computedRev := rev
    deps := top.deps, depIndex := top.depIndex, consumed := top.consumed }

variable {fp : Option F} {state : QueryState}

theorem settle_eq (hstack : s.stack = top :: rest) (hcancel : s.cancelIn = none) :
    settle q state fp s =
      (false, { s with
        slots := Function.update s.slots q (settledSlot (s.slots q) top state fp s.current)
        log := s.log ++ [.finished q top.deps top.consumed] }) := by
  simp [settle, transferDeps, hstack, checkCancel, hcancel, State.modifySlot, State.emit, topConsumed, topDurability,
    settledSlot, frameTier]

theorem querySucceed_eq (q : Query) (fp : Option F) (hstack : s.stack = top :: rest) (hcancel : s.cancelIn = none) :
    querySucceed q fp s =
      { s with
        slots := Function.update s.slots q (settledSlot (s.slots q) top .done fp s.current)
        stack := recordTop rest q fp (frameTier top)
        log := s.log ++ [.finished q top.deps top.consumed] } := by
  cases rest <;>
    simp [querySucceed, settle_eq hstack hcancel, recordDepOnParent, queryStackPop, hstack, recordTop, settledSlot]

theorem queryFail_eq (hstack : s.stack = top :: rest) (hcancel : s.cancelIn = none) :
    queryFail q s =
      { s with
        slots := Function.update s.slots q (settledSlot (s.slots q) top .error none s.current)
        stack := rest
        log := s.log ++ [.finished q top.deps top.consumed] } := by
  simp [queryFail, settle_eq hstack hcancel, queryStackPop, hstack]

theorem checkCancel_eq (s : State V F) :
    checkCancel s = (s.cancelIn == some 0, { s with cancelIn := s.cancelIn.map (· - 1) }) := by
  obtain ⟨⟨slots, columns, tainted, stack, running, scc, current, request, lastChanged, cancelIn⟩, log⟩ := s
  rcases cancelIn with _ | _ | n <;> rfl

def carried (slot : Slot F) (top : Frame F) : Slot F :=
  { slot with deps := top.deps, depIndex := top.depIndex, consumed := top.consumed }

theorem accept_eq (prev : QueryState) (hstack : s.stack = top :: rest) :
    accept prev q s =
      { s with
        slots := Function.update s.slots q
          { carried (s.slots q) top with state := prev, verifiedRev := effectiveRevision s.toDb }
        stack := recordTop rest q (s.slots q).fingerprint (s.slots q).durability } := by
  cases rest <;>
    simp [accept, transferDeps, recordDepOnParent, queryStackPop, hstack, State.modifySlot, recordTop, carried]

theorem reject_eq (hstack : s.stack = top :: rest) :
    reject q s =
      { s with
        slots := Function.update s.slots q
          { s.slots q with deps := [], depIndex := fun _ => 0, consumed := [], fingerprint := none }
        stack := clearedFrame top :: rest
        running := s.running ++ [q] } := by
  simp [reject, clearDeps, trackRunning, State.modifySlot, hstack, clearedFrame]

theorem querySucceed_canceled (hstack : s.stack = top :: rest) (hcancel : s.cancelIn = some 0) :
    querySucceed q fp s =
      { s with slots := Function.update s.slots q (carried (s.slots q) top), stack := rest } := by
  simp [querySucceed, settle, transferDeps, hstack, checkCancel, hcancel, State.modifySlot, queryStackPop, carried]

theorem querySucceed_settled (hstack : s.stack = top :: rest) (hcancel : s.cancelIn ≠ some 0) :
    querySucceed q fp s =
      { s with
        slots := Function.update s.slots q (settledSlot (s.slots q) top .done fp s.current)
        stack := recordTop rest q fp (frameTier top)
        log := s.log ++ [.finished q top.deps top.consumed]
        cancelIn := s.cancelIn.map (· - 1) } := by
  have hc : (s.cancelIn == some 0) = false := by simpa using hcancel
  cases rest <;>
    simp [querySucceed, settle, transferDeps, hstack, checkCancel_eq, hc, State.modifySlot, State.emit, topConsumed,
      topDurability, settledSlot, frameTier, recordDepOnParent, queryStackPop, recordTop]

theorem queryFail_canceled (hstack : s.stack = top :: rest) (hcancel : s.cancelIn = some 0) :
    queryFail q s = { s with slots := Function.update s.slots q (carried (s.slots q) top), stack := rest } := by
  simp [queryFail, settle, transferDeps, hstack, checkCancel, hcancel, State.modifySlot, queryStackPop, carried]

theorem queryFail_settled (hstack : s.stack = top :: rest) (hcancel : s.cancelIn ≠ some 0) :
    queryFail q s =
      { s with
        slots := Function.update s.slots q (settledSlot (s.slots q) top .error none s.current)
        stack := rest
        log := s.log ++ [.finished q top.deps top.consumed]
        cancelIn := s.cancelIn.map (· - 1) } := by
  have hc : (s.cancelIn == some 0) = false := by simpa using hcancel
  simp [queryFail, settle, transferDeps, hstack, checkCancel_eq, hc, State.modifySlot, State.emit, topConsumed,
    topDurability, settledSlot, frameTier, queryStackPop]

theorem provisionalPop_eq (hstack : s.stack = top :: rest) :
    provisionalPop s q =
      { s with slots := Function.update s.slots q (carried (s.slots q) top), stack := rest } := by
  simp [provisionalPop, transferDeps, hstack, State.modifySlot, queryStackPop, carried]

theorem revalidate_leaf [DecidableEq F] (pull : Pull V F) (prev : QueryState) (hit : BeginResult)
    (hdeps : (s.slots q).deps = []) :
    ∃ log, (log = [] ∨ log = [.skipped q (opened s q).toDb]) ∧ revalidate pull prev hit q s = some (hit, { s with
      slots := Function.update s.slots q { s.slots q with state := prev, verifiedRev := effectiveRevision s.toDb }
      stack := recordTop s.stack q (s.slots q).fingerprint (s.slots q).durability
      log := s.log ++ log }) := by
  have hver : ∃ log, (log = [] ∨ log = [.skipped q (opened s q).toDb]) ∧ ∃ rev u,
      engineVerify pull q (opened s q) = some (true, u) ∧ u = { opened s q with
        slots := Function.update s.slots q { s.slots q with state := .running, verifiedRev := rev }
        log := s.log ++ log } := by
    have hframe : (openedFrame s q).deps = [] := hdeps
    unfold engineVerify
    simp only [opened_stack, List.head?_cons, Option.map_some, Option.getD_some, hframe, List.length_nil, verifyWalk]
    split
    · exact ⟨[], .inl rfl, (s.slots q).verifiedRev, _, rfl, by
        simp [opened, openedFrame, queryStackPush, State.modifySlot]⟩
    split
    · exact ⟨_, .inr rfl, effectiveRevision s.toDb, _, rfl, by
        simp [opened, openedFrame, queryStackPush, State.modifySlot, State.emit, effectiveRevision]⟩
    · exact ⟨[], .inl rfl, effectiveRevision s.toDb, _, rfl, by
        simp [opened, openedFrame, queryStackPush, State.modifySlot, effectiveRevision]⟩
  obtain ⟨log, hlog, rev, u, hver, hu⟩ := hver
  refine ⟨log, hlog, ?_⟩
  have hstack : u.stack = openedFrame s q :: s.stack := by
    rw [hu]
    exact opened_stack s q
  have hrev : revalidate pull prev hit q s = some (hit, accept prev q u) := by
    rw [revalidate_eq, hver]
  rw [hrev, accept_eq prev hstack, hu]
  simp [carried, opened, queryStackPush, openedFrame, effectiveRevision, State.modifySlot]

end Ore.EngineFacts
