import Mathlib.Algebra.Ring.Nat
import Mathlib.Logic.Basic
import Mathlib.Tactic.Common

namespace Ore.Tasks

variable {Q V : Type*}

/-- A pure computation that may ask for the results of other tasks, one after
the other, and decides from the answers what to ask next. -/
inductive Prog (Q V : Type*)
  | ret (v : V)
  | fail
  | demand (q : Q) (next : V → Prog Q V)

inductive Outcome (V : Type*)
  | ok (v : V)
  | failed
  deriving DecidableEq

def run (ask : Q → V) : Prog Q V → Outcome V
  | .ret v => .ok v
  | .fail => .failed
  | .demand q next => run ask (next (ask q))

/-- The tasks asked for when `ask` answers. -/
def reads (ask : Q → V) : Prog Q V → List Q
  | .ret _ | .fail => []
  | .demand q next => q :: reads ask (next (ask q))

/-- Some sequence of answers leads the computation to ask for the task. -/
inductive Demands : Prog Q V → Q → Prop
  | here (q : Q) (next : V → Prog Q V) : Demands (.demand q next) q
  | later (q : Q) (next : V → Prog Q V) (v : V) {c : Q} (h : Demands (next v) c) : Demands (.demand q next) c

/-- Some sequence of answers makes the computation fail. -/
inductive CanFail : Prog Q V → Prop
  | fail : CanFail .fail
  | later (q : Q) (next : V → Prog Q V) (v : V) (h : CanFail (next v)) : CanFail (.demand q next)

@[simp] theorem not_demands_ret {v : V} {c : Q} : ¬ Demands (.ret v : Prog Q V) c := nofun

@[simp] theorem not_demands_fail {c : Q} : ¬ Demands (.fail : Prog Q V) c := nofun

@[simp] theorem demands_demand {q c : Q} {next : V → Prog Q V} :
    Demands (.demand q next) c ↔ c = q ∨ ∃ v, Demands (next v) c := by
  constructor
  · rintro (_ | ⟨_, _, v, h⟩)
    · exact .inl rfl
    · exact .inr ⟨v, h⟩
  · rintro (rfl | ⟨v, h⟩)
    · exact .here _ _
    · exact .later _ _ v h

@[simp] theorem not_canFail_ret {v : V} : ¬ CanFail (.ret v : Prog Q V) := nofun

@[simp] theorem canFail_demand {q : Q} {next : V → Prog Q V} :
    CanFail (.demand q next) ↔ ∃ v, CanFail (next v) := by
  constructor
  · rintro (_ | ⟨_, _, v, h⟩)
    exact ⟨v, h⟩
  · rintro ⟨v, h⟩
    exact .later _ _ v h

theorem run_congr {ask ask' : Q → V} (p : Prog Q V) (h : ∀ c ∈ reads ask p, ask' c = ask c) :
    run ask' p = run ask p ∧ reads ask' p = reads ask p := by
  induction p with
  | ret v => exact ⟨rfl, rfl⟩
  | fail => exact ⟨rfl, rfl⟩
  | demand q next ih =>
      have hq : ask' q = ask q := h q (by simp [reads])
      obtain ⟨hrun, hreads⟩ := ih (ask q) fun c hc => h c (by simp [reads, hc])
      simp only [run, reads, hq, hrun, hreads, and_self]

/-- The next task asked for depends on the answers given so far only. -/
theorem reads_prefix {ask ask' : Q → V} (p : Prog Q V) {before after : List Q} {c : Q}
    (hreads : reads ask p = before ++ c :: after) (h : ∀ b ∈ before, ask' b = ask b) : c ∈ reads ask' p := by
  induction p generalizing before with
  | ret v => simp [reads] at hreads
  | fail => simp [reads] at hreads
  | demand q next ih =>
      simp only [reads] at hreads ⊢
      cases before with
      | nil =>
          obtain ⟨rfl, -⟩ := List.cons.inj hreads
          exact List.mem_cons_self ..
      | cons b before =>
          obtain ⟨rfl, hrest⟩ := List.cons.inj hreads
          rw [h q (List.mem_cons_self ..)]
          exact List.mem_cons_of_mem _ (ih (ask q) hrest fun b hb => h b (List.mem_cons_of_mem _ hb))

/-- Tasks are recorded in the order in which they are first asked for, the task
itself left out; repetitions do no harm. -/
def Ordered (self : Q) (recorded asked : List Q) : Prop :=
  ∀ i c, recorded[i]? = some c → ∃ before after, asked = before ++ c :: after ∧
    ∀ b ∈ before, b = self ∨ b ∈ recorded.take i

namespace Ordered

variable {self c : Q} {recorded asked : List Q}

theorem nil (self : Q) (asked : List Q) : Ordered self [] asked := by
  intro i c hc
  simp at hc

theorem ask (h : Ordered self recorded asked) (c : Q) : Ordered self recorded (asked ++ [c]) := by
  intro i d hd
  obtain ⟨before, after, rfl, hbefore⟩ := h i d hd
  exact ⟨before, after ++ [c], by simp, hbefore⟩

theorem snoc (h : Ordered self recorded asked)
    (hlast : ∃ before after, asked = before ++ c :: after ∧ ∀ b ∈ before, b = self ∨ b ∈ recorded) :
    Ordered self (recorded ++ [c]) asked := by
  intro i d hd
  rcases Nat.lt_or_ge i recorded.length with hlt | hge
  · rw [List.getElem?_append_left hlt] at hd
    obtain ⟨before, after, heq, hbefore⟩ := h i d hd
    refine ⟨before, after, heq, fun b hb => (hbefore b hb).imp_right fun hmem => ?_⟩
    rw [List.take_append_of_le_length (Nat.le_of_lt hlt)]
    exact hmem
  · obtain ⟨rfl, hi⟩ : d = c ∧ i = recorded.length := by
      rw [List.getElem?_append_right hge, List.getElem?_singleton] at hd
      split at hd
      · rename_i hzero
        exact ⟨(Option.some.inj hd).symm, by omega⟩
      · simp at hd
    obtain ⟨before, after, heq, hbefore⟩ := hlast
    refine ⟨before, after, heq, fun b hb => (hbefore b hb).imp_right fun hmem => ?_⟩
    rw [hi, List.take_left]
    exact hmem

theorem record (h : Ordered self recorded asked) (hcover : ∀ b ∈ asked, b = self ∨ b ∈ recorded) (c : Q) :
    Ordered self (recorded ++ [c]) (asked ++ [c]) :=
  (h.ask c).snoc ⟨asked, [], rfl, hcover⟩

theorem again (h : Ordered self recorded asked) (hc : c ∈ recorded) : Ordered self (recorded ++ [c]) asked := by
  obtain ⟨j, hj⟩ := List.mem_iff_getElem?.mp hc
  obtain ⟨before, after, heq, hbefore⟩ := h j c hj
  exact h.snoc ⟨before, after, heq, fun b hb => (hbefore b hb).imp_right List.mem_of_mem_take⟩

/-- When all tasks recorded before keep their answers, the next one recorded is
asked for again. -/
theorem asked_again {p : Prog Q V} {ask ask' : Q → V} (h : Ordered self recorded (reads ask p)) {i : Nat}
    (hc : recorded[i]? = some c) (hself : ask' self = ask self) (hsame : ∀ b ∈ recorded.take i, ask' b = ask b) :
    c ∈ reads ask' p := by
  obtain ⟨before, after, heq, hbefore⟩ := h i c hc
  refine reads_prefix p heq fun b hb => ?_
  rcases hbefore b hb with rfl | hmem
  · exact hself
  · exact hsame b hmem

end Ordered

theorem demands_of_reads {ask : Q → V} {p : Prog Q V} {c : Q} (h : c ∈ reads ask p) : Demands p c := by
  induction p with
  | ret v => simp [reads] at h
  | fail => simp [reads] at h
  | demand q next ih =>
      rcases List.mem_cons.mp h with rfl | h
      · exact .here _ _
      · exact .later q next (ask q) (ih _ h)

theorem canFail_of_run {ask : Q → V} {p : Prog Q V} (h : run ask p = .failed) : CanFail p := by
  induction p with
  | ret v => simp [run] at h
  | fail => exact .fail
  | demand q next ih => exact .later q next (ask q) (ih _ h)

/-- A family of tasks over external inputs. `bottom` answers a task that asks
for itself, `onError` stands for the result of a failed task. -/
structure System (Q V : Type*) where
  isInput : Q → Bool
  body : Q → Prog Q V
  bottom : Q → V
  onError : Q → V

namespace System

variable (sys : System Q V)

def answer (q : Q) : Outcome V → V
  | .ok v => v
  | .failed => sys.onError q

/-- A task asks for tasks of lower rank only, or for itself. -/
def Ranked (rank : Q → Nat) : Prop :=
  ∀ q c, sys.isInput q = false → Demands (sys.body q) c → c = q ∨ rank c < rank q

variable [DecidableEq Q]

def evalFuel (inputs : Q → V) : Nat → Q → Outcome V
  | 0, _ => .failed
  | n + 1, q =>
      if sys.isInput q then .ok (inputs q)
      else run (fun c => if c = q then sys.bottom q else sys.answer c (evalFuel inputs n c)) (sys.body q)

/-- The result of computing a task from scratch. -/
def eval (rank : Q → Nat) (inputs : Q → V) (q : Q) : Outcome V := sys.evalFuel inputs (rank q + 1) q

/-- How the body of `q` sees the other tasks. -/
def ask (rank : Q → Nat) (inputs : Q → V) (q c : Q) : V :=
  if c = q then sys.bottom q else sys.answer c (sys.eval rank inputs c)

/-- The external inputs a task depends on. -/
inductive Touches (rank : Q → Nat) (inputs : Q → V) : Q → Q → Prop
  | input {i : Q} (h : sys.isInput i = true) : Touches rank inputs i i
  | read {q c i : Q} (hq : sys.isInput q = false) (hc : c ∈ reads (sys.ask rank inputs q) (sys.body q))
      (hne : c ≠ q) (h : Touches rank inputs c i) : Touches rank inputs q i

/-- With these inputs, a task asks for tasks of lower rank, or for itself. -/
def RankedAt (rank : Q → Nat) (inputs : Q → V) : Prop :=
  ∀ q c, sys.isInput q = false → c ∈ reads (sys.ask rank inputs q) (sys.body q) → c = q ∨ rank c < rank q

variable {sys} {rank rank' : Q → Nat} {inputs inputs' : Q → V}

theorem Ranked.at (h : sys.Ranked rank) (inputs : Q → V) : sys.RankedAt rank inputs :=
  fun q c hq hc => h q c hq (demands_of_reads hc)

theorem evalFuel_stable (hrank : sys.RankedAt rank inputs) (q : Q) (n : Nat) (hn : rank q < n) :
    sys.evalFuel inputs n q = sys.eval rank inputs q := by
  induction hr : rank q using Nat.strongRecOn generalizing q n with
  | _ r ih =>
      obtain ⟨m, rfl⟩ := Nat.exists_eq_succ_of_ne_zero (show n ≠ 0 by omega)
      simp only [eval, evalFuel]
      by_cases hin : sys.isInput q = true
      · simp [hin]
      · simp only [hin, Bool.false_eq_true, if_false]
        have hask (k : Nat) (hk : rank q ≤ k) :
            run (fun c => if c = q then sys.bottom q else sys.answer c (sys.evalFuel inputs k c)) (sys.body q) =
              run (sys.ask rank inputs q) (sys.body q) := by
          refine (run_congr (sys.body q) ?_).1
          intro c hc
          by_cases hself : c = q
          · simp [ask, hself]
          · have hlt : rank c < rank q := (hrank q c (by simpa using hin) hc).resolve_left hself
            simp only [ask, hself, if_false]
            rw [ih (rank c) (by omega) c k (by omega) rfl]
        rw [hask m (by omega), hask (rank q) (Nat.le_refl _)]

theorem eval_inputs (sys : System Q V) (h : ∀ i, sys.isInput i = true → inputs' i = inputs i) (q : Q) :
    sys.eval rank inputs' q = sys.eval rank inputs q := by
  have hfuel (n : Nat) : sys.evalFuel inputs' n = sys.evalFuel inputs n := by
    induction n with
    | zero => rfl
    | succ n ih =>
        funext q
        simp only [evalFuel, ih]
        split
        · rename_i hin
          rw [h q hin]
        · rfl
  rw [eval, eval, hfuel]

theorem eval_input (sys : System Q V) {i : Q} (h : sys.isInput i = true) : sys.eval rank inputs i = .ok (inputs i) := by
  simp [eval, evalFuel, h]

theorem eval_body (hrank : sys.RankedAt rank inputs) {q : Q} (h : sys.isInput q = false) :
    sys.eval rank inputs q = run (sys.ask rank inputs q) (sys.body q) := by
  rw [eval, evalFuel, h]
  simp only [Bool.false_eq_true, if_false]
  refine (run_congr (sys.body q) ?_).1
  intro c hc
  by_cases hself : c = q
  · simp [ask, hself]
  · have hlt : rank c < rank q := (hrank q c h hc).resolve_left hself
    simp [ask, hself, evalFuel_stable hrank c (rank q) hlt]

theorem rank_of_reads (hrank : sys.RankedAt rank inputs) {q c : Q} (h : sys.isInput q = false)
    (hc : c ∈ reads (sys.ask rank inputs q) (sys.body q)) (hne : c ≠ q) : rank c < rank q :=
  (hrank q c h hc).resolve_left hne

/-- A task whose children keep their results keeps its own. -/
theorem eval_congr (hrank : sys.RankedAt rank inputs) (hrank' : sys.RankedAt rank' inputs') {q : Q}
    (h : sys.isInput q = false)
    (hreads : ∀ c ∈ reads (sys.ask rank inputs q) (sys.body q), c ≠ q →
      sys.eval rank' inputs' c = sys.eval rank inputs c) :
    sys.eval rank' inputs' q = sys.eval rank inputs q ∧
      reads (sys.ask rank' inputs' q) (sys.body q) = reads (sys.ask rank inputs q) (sys.body q) := by
  rw [eval_body hrank h, eval_body hrank' h]
  refine run_congr (sys.body q) ?_
  intro c hc
  by_cases hself : c = q
  · simp [ask, hself]
  · simp [ask, hself, hreads c hc hself]

theorem eval_stable (hrank : sys.RankedAt rank inputs) (hrank' : sys.RankedAt rank' inputs') (q : Q)
    (h : ∀ i, sys.Touches rank inputs q i → inputs' i = inputs i) :
    sys.eval rank' inputs' q = sys.eval rank inputs q ∧
      ∀ i, sys.Touches rank' inputs' q i → sys.Touches rank inputs q i := by
  induction hr : rank q using Nat.strongRecOn generalizing q with
  | _ r ih =>
      by_cases hin : sys.isInput q = true
      · rw [eval_input sys hin, eval_input sys hin, h q (.input hin)]
        refine ⟨rfl, ?_⟩
        intro i hi
        cases hi with
        | input _ => exact .input hin
        | read hq _ _ _ => simp [hin] at hq
      · have hq : sys.isInput q = false := by simpa using hin
        have hchild : ∀ c ∈ reads (sys.ask rank inputs q) (sys.body q), c ≠ q →
            sys.eval rank' inputs' c = sys.eval rank inputs c ∧
              ∀ i, sys.Touches rank' inputs' c i → sys.Touches rank inputs c i := by
          intro c hc hne
          refine ih (rank c) ?_ c ?_ rfl
          · rw [← hr]
            exact rank_of_reads hrank hq hc hne
          · intro i hi
            exact h i (.read hq hc hne hi)
        obtain ⟨heval, hreads⟩ := eval_congr hrank hrank' hq fun c hc hne => (hchild c hc hne).1
        refine ⟨heval, ?_⟩
        intro i hi
        cases hi with
        | input hin' => exact absurd hin' hin
        | read _ hc hne hi =>
            rw [hreads] at hc
            exact .read hq hc hne ((hchild _ hc hne).2 i hi)

end System

end Ore.Tasks
