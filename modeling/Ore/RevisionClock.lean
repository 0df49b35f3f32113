import Mathlib.Data.List.Induction
import Ore.EngineModel

namespace Ore.RevisionClock

open EngineModel

/-- What the engine compares: the current revision and the one a request is pinned to, and
the revision at which each tier last changed. -/
structure Revisions where
  current : Nat
  request : Nat
  lastChanged : Durability → Nat

inductive Verdict
  | current | skipped | walk
  deriving DecidableEq, Repr

namespace Revisions

def effective (r : Revisions) : Nat := if r.request ≠ 0 then r.request else r.current

/-- The current revision is masked to 31 bits, the stamps are not. -/
def inputChanged (dur : Durability) (r : Revisions) : Revisions :=
  { r with
    current := (r.current + 1) % revLimit
    lastChanged := fun d => if d ≤ dur then r.current + 1 else r.lastChanged d }

def requestBegin (revision : Nat) (r : Revisions) : Option Revisions :=
  if revision ≠ 0 ∧ revision ≤ r.current then some { r with request := revision % 2 ^ 32 } else none

/-- The comparisons of a settled slot that come before the walk over its deps. -/
def verdict (r : Revisions) (durability : Durability) (verifiedRev : Nat) : Verdict :=
  if verifiedRev = r.effective then .current
  else if r.lastChanged durability ≤ verifiedRev then .skipped
  else .walk

end Revisions

section Engine

variable {V F : Type}

def revisions (s : Db V F) : Revisions := ⟨s.current, s.request, s.lastChanged⟩

theorem effective_revisions (s : Db V F) : (revisions s).effective = effectiveRevision s := rfl

theorem revisions_inputChanged (dur : Durability) (s : State V F) :
    revisions (inputChanged dur s).toDb = (revisions s.toDb).inputChanged dur := rfl

variable [DecidableEq F]

theorem engineVerify_verdict (pull : Pull V F) (q : Query) (s : State V F) :
    engineVerify pull q s =
      match (revisions s.toDb).verdict (s.slots q).durability (s.slots q).verifiedRev with
      | .current => some (true, s)
      | .skipped => some (true, (s.emit (.skipped q s.toDb)).modifySlot q fun slot =>
          { slot with verifiedRev := effectiveRevision s.toDb })
      | .walk => match verifyWalk pull ((s.stack.head?.map (·.deps.length)).getD 0) 0 s with
        | some (true, t) => some (true, t.modifySlot q fun slot =>
            { slot with verifiedRev := effectiveRevision s.toDb })
        | r => r := by
  rw [engineVerify, Revisions.verdict, effective_revisions]
  change (if (s.slots q).verifiedRev = effectiveRevision s.toDb then _ else
    if (revisions s.toDb).lastChanged (s.slots q).durability ≤ (s.slots q).verifiedRev then _ else _) = _
  split_ifs with hcurrent hskip
  · rfl
  · rfl
  · rfl

variable [Inhabited V] {fam : Family V F} {depth revision : Nat} {s s' : State V F}

theorem revisions_requestBegin (h : step fam depth s (.requestBegin revision) = some s') :
    (revisions s.toDb).requestBegin revision = some (revisions s'.toDb) := by
  simp only [step, Option.ite_none_right_eq_some, Option.some.injEq] at h
  obtain ⟨⟨hne, -, hle⟩, rfl⟩ := h
  exact if_pos ⟨hne, hle⟩

end Engine

/-- The stamps of a settled slot. `since` is not in the source: it lists the tiers of the
input changes made since the slot was verified. -/
structure Stamp where
  verifiedRev : Nat
  durability : Durability
  since : List Durability

structure Clock where
  revs : Revisions
  slots : Query → Option Stamp

/-- A client's changes and requests, and the three things that happen to a slot: it is
settled by a computation or an input, verified, or given up. `walk` is what a walk over the
slot's deps would say. -/
inductive Op
  | change (dur : Durability)
  | requestBegin (revision : Nat)
  | requestEnd
  | settle (q : Query) (dur : Durability)
  | verify (q : Query) (walk : Bool)
  | reclaim (q : Query)

namespace Clock

def initial : Clock := ⟨⟨1, 0, fun _ => 1⟩, fun _ => none⟩

def write (s : Clock) (q : Query) (x : Option Stamp) : Clock := { s with slots := Function.update s.slots q x }

/-- An accepted slot is stamped with the effective revision, a rejected one starts over. -/
def verify (s : Clock) (q : Query) (x : Stamp) (walk : Bool) : Clock :=
  if s.revs.verdict x.durability x.verifiedRev = .walk ∧ walk = false then s.write q none
  else s.write q (some ⟨s.revs.effective, x.durability, []⟩)

/-- `none` is a failed assertion. -/
def step (s : Clock) : Op → Option Clock
  | .change dur =>
      if s.revs.request = 0 then
        some ⟨s.revs.inputChanged dur, fun q => (s.slots q).map fun x => { x with since := dur :: x.since }⟩
      else none
  | .requestBegin revision => (s.revs.requestBegin revision).map fun revs => { s with revs := revs }
  | .requestEnd => if s.revs.request ≠ 0 then some { s with revs := { s.revs with request := 0 } } else none
  | .settle q dur => some (s.write q (some ⟨s.revs.current, dur, []⟩))
  | .verify q walk => (s.slots q).map fun x => s.verify q x walk
  | .reclaim q => some (s.write q none)

def run (ops : List Op) (s : Clock) : Option Clock := ops.foldlM step s

end Clock

def isChange : Op → Bool
  | .change _ => true
  | _ => false

/-- In this state no slot is accepted as verified at the current revision after a change,
and none by its durability after a change of its tier. -/
def Sound (s : Clock) : Prop :=
  ∀ q x, s.slots q = some x →
    (s.revs.verdict x.durability x.verifiedRev = .current → s.revs.effective = s.revs.current → x.since = []) ∧
      (s.revs.verdict x.durability x.verifiedRev = .skipped → ∀ d ∈ x.since, ¬ x.durability ≤ d)

section Counting

variable {s s' : Clock} {x : Stamp} {op : Op} {ops : List Op} {q : Query} {dur : Durability} {n : Nat}

/-- A stamp beside the number of revisions there have been, the wrapped ones among them. -/
structure StampOk (revs : Revisions) (n : Nat) (x : Stamp) : Prop where
  le : x.verifiedRev ≤ n
  positive : n < revLimit → 0 < x.verifiedRev
  older : x.since ≠ [] → 0 < x.verifiedRev ∧ x.verifiedRev < n
  tiers : ∀ d ∈ x.since, ∀ t, t ≤ d → x.verifiedRev < revs.lastChanged t

/-- What holds after `n` revisions, as long as there are not more than 2^31. -/
structure Counted (n : Nat) (s : Clock) : Prop where
  current : s.revs.current = n % revLimit
  positive : 0 < n
  request : s.revs.request ≤ s.revs.current
  stamps : ∀ q x, s.slots q = some x → StampOk s.revs n x

theorem Counted.effective_le (h : Counted n s) : s.revs.effective ≤ n := by
  have hcurrent : s.revs.current ≤ n := h.current ▸ Nat.mod_le n revLimit
  rw [Revisions.effective]
  split_ifs
  · exact Nat.le_trans h.request hcurrent
  · exact hcurrent

theorem Counted.effective_pos (h : Counted n s) (hn : n < revLimit) : 0 < s.revs.effective := by
  rw [Revisions.effective]
  split_ifs with hrequest
  · exact Nat.pos_of_ne_zero hrequest
  · rw [h.current, Nat.mod_eq_of_lt hn]
    exact h.positive

theorem stampOk_new {revs : Revisions} {v : Nat} (hle : v ≤ n) (hpos : n < revLimit → 0 < v) (dur : Durability) :
    StampOk revs n ⟨v, dur, []⟩ := ⟨hle, hpos, fun hne => absurd rfl hne, nofun⟩

theorem Counted.write (h : Counted n s) (q : Query) {x : Option Stamp} (hx : ∀ y ∈ x, StampOk s.revs n y) :
    Counted n (s.write q x) := by
  refine ⟨h.current, h.positive, h.request, fun p y hy => ?_⟩
  change Function.update s.slots q x p = some y at hy
  by_cases hp : p = q
  · rw [hp, Function.update_self] at hy
    exact hx y hy
  · rw [Function.update_of_ne hp] at hy
    exact h.stamps p y hy

/-- Before the counter is full a change gets a number above every stamp. -/
theorem Counted.change (h : Counted n s) (hn : n < revLimit) (hstep : s.step (.change dur) = some s') :
    Counted (n + 1) s' := by
  simp only [Clock.step, Option.ite_none_right_eq_some, Option.some.injEq] at hstep
  obtain ⟨hidle, rfl⟩ := hstep
  have hcurrent : s.revs.current = n := by rw [h.current, Nat.mod_eq_of_lt hn]
  refine ⟨?_, Nat.succ_pos n, ?_, fun q x hx => ?_⟩
  · change (s.revs.current + 1) % revLimit = (n + 1) % revLimit
    rw [hcurrent]
  · change s.revs.request ≤ _
    rw [hidle]
    exact Nat.zero_le _
  · obtain ⟨y, hy, rfl⟩ := Option.map_eq_some_iff.mp hx
    have hok := h.stamps q y hy
    refine ⟨Nat.le_succ_of_le hok.le, fun _ => hok.positive hn,
      fun _ => ⟨hok.positive hn, Nat.lt_succ_of_le hok.le⟩, fun d hd t ht => ?_⟩
    change y.verifiedRev < if t ≤ dur then s.revs.current + 1 else s.revs.lastChanged t
    split_ifs with htier
    · rw [hcurrent]
      exact Nat.lt_succ_of_le hok.le
    · rcases List.mem_cons.mp hd with rfl | hd
      · exact absurd ht htier
      · exact hok.tiers d hd t ht

theorem Counted.step (h : Counted n s) (hop : isChange op = false) (hstep : s.step op = some s') : Counted n s' := by
  have hcurrent : s.revs.current ≤ n := h.current ▸ Nat.mod_le n revLimit
  cases op with
  | change dur => cases hop
  | requestBegin revision =>
      obtain ⟨revs, hbegin, rfl⟩ := Option.map_eq_some_iff.mp hstep
      simp only [Revisions.requestBegin, Option.ite_none_right_eq_some, Option.some.injEq] at hbegin
      obtain ⟨⟨-, hle⟩, rfl⟩ := hbegin
      exact ⟨h.current, h.positive, Nat.le_trans (Nat.mod_le revision _) hle,
        fun q x hx => ⟨(h.stamps q x hx).le, (h.stamps q x hx).positive, (h.stamps q x hx).older,
          (h.stamps q x hx).tiers⟩⟩
  | requestEnd =>
      simp only [Clock.step, Option.ite_none_right_eq_some, Option.some.injEq] at hstep
      obtain ⟨-, rfl⟩ := hstep
      exact ⟨h.current, h.positive, Nat.zero_le _,
        fun q x hx => ⟨(h.stamps q x hx).le, (h.stamps q x hx).positive, (h.stamps q x hx).older,
          (h.stamps q x hx).tiers⟩⟩
  | settle q dur =>
      obtain rfl := Option.some.inj hstep
      refine h.write q ?_
      rintro y ⟨⟩
      refine stampOk_new hcurrent (fun hn => ?_) dur
      rw [h.current, Nat.mod_eq_of_lt hn]
      exact h.positive
  | verify q walk =>
      obtain ⟨x, hx, rfl⟩ := Option.map_eq_some_iff.mp hstep
      rw [Clock.verify]
      split_ifs
      · exact h.write q nofun
      · refine h.write q ?_
        rintro y ⟨⟩
        exact stampOk_new h.effective_le h.effective_pos x.durability
  | reclaim q =>
      obtain rfl := Option.some.inj hstep
      exact h.write q nofun

theorem Counted.sound (h : Counted n s) (hn : n ≤ revLimit) : Sound s := by
  intro q x hx
  have hok := h.stamps q x hx
  refine ⟨fun hverdict heff => ?_, fun hverdict d hd hle => ?_⟩
  · by_contra hsince
    obtain ⟨hpos, hlt⟩ := hok.older hsince
    have hsame : x.verifiedRev = s.revs.effective := by
      by_contra hne
      rw [Revisions.verdict, if_neg hne] at hverdict
      split_ifs at hverdict
    rw [heff, h.current] at hsame
    rcases Nat.lt_or_eq_of_le hn with hbelow | rfl
    · rw [Nat.mod_eq_of_lt hbelow] at hsame
      omega
    · rw [Nat.mod_self] at hsame
      omega
  · have hskip : s.revs.lastChanged x.durability ≤ x.verifiedRev := by
      by_contra hless
      rw [Revisions.verdict, if_neg hless] at hverdict
      split_ifs at hverdict
    exact Nat.not_le.mpr (hok.tiers d hd x.durability hle) hskip

theorem run_concat (ops : List Op) (op : Op) (s : Clock) :
    Clock.run (ops ++ [op]) s = (Clock.run ops s).bind (·.step op) := by
  rw [Clock.run, List.foldlM_append]
  simp [Clock.run]

theorem counted_run (hrun : Clock.run ops .initial = some s) (hn : ops.countP isChange < revLimit) :
    Counted (ops.countP isChange + 1) s := by
  induction ops using List.reverseRecOn generalizing s with
  | nil =>
      obtain rfl := Option.some.inj hrun
      exact ⟨rfl, Nat.succ_pos _, Nat.zero_le _, nofun⟩
  | append_singleton ops op ih =>
      rw [run_concat] at hrun
      obtain ⟨t, ht, hstep⟩ := Option.bind_eq_some_iff.mp hrun
      rw [List.countP_append, List.countP_singleton] at hn ⊢
      by_cases hop : isChange op = true
      · rw [if_pos hop] at hn ⊢
        cases op with
        | change dur => exact (ih ht (by omega)).change hn hstep
        | _ => cases hop
      · rw [if_neg hop] at hn ⊢
        exact (ih ht hn).step (Bool.not_eq_true _ ▸ hop) hstep

end Counting

section Wrapping

/-- What `n` changes of the lowest tier make of a state without a request. -/
theorem run_changes {s : Clock} {c : Nat} {x : Stamp} {q : Query} (hc : s.revs.current = c) (hbound : c < revLimit)
    (hidle : s.revs.request = 0) (hx : s.slots q = some x) (n : Nat) :
    ∃ s', Clock.run (List.replicate (n + 1) (.change .low)) s = some s' ∧
      s'.revs.current = (c + (n + 1)) % revLimit ∧ s'.revs.request = 0 ∧
      s'.revs.lastChanged .low = (c + n) % revLimit + 1 ∧
      s'.slots q = some { x with since := List.replicate (n + 1) .low ++ x.since } := by
  induction n with
  | zero =>
      refine ⟨⟨s.revs.inputChanged .low, fun q => (s.slots q).map fun x => { x with since := .low :: x.since }⟩,
        ?_, ?_, hidle, ?_, ?_⟩
      · simp [Clock.run, Clock.step, hidle]
      · change (s.revs.current + 1) % revLimit = _
        rw [hc]
      · change s.revs.current + 1 = _
        rw [hc]
        change c + 1 = c % revLimit + 1
        rw [Nat.mod_eq_of_lt hbound]
      · change (s.slots q).map _ = _
        rw [hx]
        rfl
  | succ n ih =>
      obtain ⟨t, hrun, hcurrent, hrequest, -, hslot⟩ := ih
      refine ⟨⟨t.revs.inputChanged .low, fun q => (t.slots q).map fun x => { x with since := .low :: x.since }⟩,
        ?_, ?_, hrequest, ?_, ?_⟩
      · rw [List.replicate_succ', run_concat, hrun]
        simp [Clock.step, hrequest]
      · change (t.revs.current + 1) % revLimit = _
        rw [hcurrent, Nat.mod_add_mod, Nat.add_assoc]
      · change t.revs.current + 1 = _
        rw [hcurrent]
      · change (t.slots q).map _ = _
        rw [hslot, List.replicate_succ]
        rfl

/-- A slot verified after the first change, and changes after it. -/
def changesAfter (n : Nat) : List Op :=
  .change .low :: .settle ⟨.fileAst, 0⟩ .low :: List.replicate n (.change .low)

def verifiedOnce : Clock where
  revs := Clock.initial.revs.inputChanged .low
  slots := Function.update (fun _ => none) ⟨.fileAst, 0⟩ (some ⟨2, .low, []⟩)

theorem countP_changesAfter (n : Nat) : (changesAfter n).countP isChange = n + 1 := by
  rw [changesAfter, List.countP_cons, List.countP_cons, List.countP_replicate]
  simp [isChange]

theorem changesAfter_prefix {m n : Nat} (h : m ≤ n) : changesAfter m <+: changesAfter n := by
  obtain ⟨k, rfl⟩ := Nat.exists_eq_add_of_le h
  rw [changesAfter, changesAfter, ← List.replicate_append_replicate]
  exact (List.prefix_cons_inj _).mpr ((List.prefix_cons_inj _).mpr (List.prefix_append _ _))

theorem run_changesAfter (n : Nat) : ∃ s, Clock.run (changesAfter (n + 1)) .initial = some s ∧
    s.revs.current = (2 + (n + 1)) % revLimit ∧ s.revs.request = 0 ∧
    s.revs.lastChanged .low = (2 + n) % revLimit + 1 ∧
    s.slots ⟨.fileAst, 0⟩ = some ⟨2, .low, List.replicate (n + 1) .low⟩ := by
  have hverified : verifiedOnce.slots ⟨.fileAst, 0⟩ = some ⟨2, .low, []⟩ := rfl
  obtain ⟨s, hrun, hcurrent, hrequest, hlast, hslot⟩ :=
    run_changes (s := verifiedOnce) (c := 2) rfl (by decide) rfl hverified n
  refine ⟨s, hrun, hcurrent, hrequest, hlast, ?_⟩
  rw [hslot, List.append_nil]

theorem run_skipped : ∃ s x, Clock.run (changesAfter (revLimit - 1)) .initial = some s ∧
    s.slots ⟨.fileAst, 0⟩ = some x ∧ s.revs.verdict x.durability x.verifiedRev = .skipped ∧
    .low ∈ x.since ∧ x.durability = .low := by
  obtain ⟨m, hm⟩ : ∃ m, revLimit = m + 2 := ⟨2 ^ 31 - 2, by decide⟩
  obtain ⟨s, hrun, hcurrent, hrequest, hlast, hslot⟩ := run_changesAfter m
  have heff : s.revs.effective = 1 := by
    rw [Revisions.effective, if_neg (not_not.mpr hrequest), hcurrent, show 2 + (m + 1) = 1 + revLimit by omega,
      Nat.add_mod_right]
    decide
  have hfirst : s.revs.lastChanged .low = 1 := by
    rw [hlast, show 2 + m = revLimit by omega, Nat.mod_self]
  have hcount : revLimit - 1 = m + 1 := by omega
  rw [← hcount] at hrun
  refine ⟨s, _, hrun, hslot, ?_, ?_, rfl⟩
  · rw [Revisions.verdict, heff, hfirst]
    rfl
  · rw [List.replicate_succ]
    exact List.mem_cons_self

theorem run_current : ∃ s x, Clock.run (changesAfter revLimit) .initial = some s ∧
    s.slots ⟨.fileAst, 0⟩ = some x ∧ s.revs.verdict x.durability x.verifiedRev = .current ∧
    s.revs.effective = s.revs.current ∧ x.since ≠ [] := by
  obtain ⟨m, hm⟩ : ∃ m, revLimit = m + 1 := ⟨2 ^ 31 - 1, by decide⟩
  obtain ⟨s, hrun, hcurrent, hrequest, -, hslot⟩ := run_changesAfter m
  have heff : s.revs.effective = s.revs.current := if_neg (not_not.mpr hrequest)
  have hback : s.revs.current = 2 := by
    rw [hcurrent, ← hm, Nat.add_mod_right]
    decide
  rw [← hm] at hrun
  refine ⟨s, _, hrun, hslot, ?_, heff, ?_⟩
  · exact if_pos (heff.trans hback).symm
  · rw [List.replicate_succ]
    exact List.cons_ne_nil _ _

/-- After 2^31 changes the last one is taken for older than the verification before all but
the first of them, and after one more the slot passes for verified at this revision. -/
theorem wrapped_accepts :
    (∃ s, Clock.run (changesAfter (revLimit - 1)) .initial = some s ∧ ¬ Sound s) ∧
      ∃ s, Clock.run (changesAfter revLimit) .initial = some s ∧ ¬ Sound s := by
  obtain ⟨s, x, hrun, hx, hverdict, hsince, hdur⟩ := run_skipped
  obtain ⟨t, y, hrun', hy, hverdict', heff, hne⟩ := run_current
  refine ⟨⟨s, hrun, fun h => ?_⟩, t, hrun', fun h => ?_⟩
  · apply (h _ x hx).2 hverdict .low hsince
    rw [hdur]
    exact Nat.le_refl _
  · exact hne ((h _ y hy).1 hverdict' heff)

end Wrapping

/-- With a number of changes every run of that many is sound in every state exactly when
the number is below 2^31. -/
theorem sound_iff_changes (n : Nat) :
    (∀ ops, ops.countP isChange = n → ∀ before, before <+: ops → ∀ s, Clock.run before .initial = some s → Sound s) ↔
      n < revLimit := by
  constructor
  · intro h
    by_contra hle
    obtain ⟨s, x, hrun, hx, hverdict, hsince, hdur⟩ := run_skipped
    have hpos : 0 < revLimit := by decide
    have hprefix : changesAfter (revLimit - 1) <+: changesAfter (n - 1) := changesAfter_prefix (by omega)
    have hcount : (changesAfter (n - 1)).countP isChange = n := by
      rw [countP_changesAfter]
      omega
    apply (h _ hcount _ hprefix s hrun _ x hx).2 hverdict .low hsince
    rw [hdur]
    exact Nat.le_refl _
  · intro hn ops hcount before hprefix s hrun
    have hle : before.countP isChange ≤ n := hcount ▸ hprefix.sublist.countP_le
    exact (counted_run hrun (by omega)).sound (by omega)

end Ore.RevisionClock
