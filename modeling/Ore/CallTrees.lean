import Mathlib.Logic.Basic
import Mathlib.Order.Basic
import Mathlib.Tactic.Common

namespace Ore.CallTrees

universe u

/-- A computation over a state that may call procedures, itself among them, and
goes on with what they return. -/
inductive CallTree (Call Val State α : Type*)
  | done (a : α)
  | read (next : State → CallTree Call Val State α)
  | write (s : State) (next : CallTree Call Val State α)
  | call (c : Call) (next : Val → CallTree Call Val State α)

variable {Call Val State : Type*} {α β : Type u}

namespace CallTree

def bind (f : α → CallTree Call Val State β) : CallTree Call Val State α → CallTree Call Val State β
  | .done a => f a
  | .read next => .read fun s => (next s).bind f
  | .write s next => .write s (next.bind f)
  | .call c next => .call c fun v => (next v).bind f

instance : Monad (CallTree Call Val State) where
  pure := .done
  bind p f := p.bind f

def get : CallTree Call Val State State := .read .done

def modify (f : State → State) : CallTree Call Val State PUnit := .read fun s => .write (f s) (.done ⟨⟩)

def invoke (c : Call) : CallTree Call Val State Val := .call c .done

end CallTree

section Runs

variable (body : Call → CallTree Call Val State Val)

/-- The computation ends with a value, all its calls having returned. -/
inductive Runs : CallTree Call Val State Val → State → Val → State → Prop
  | done (v : Val) (s : State) : Runs (.done v) s v s
  | read {next : State → CallTree Call Val State Val} {s : State} {v : Val} {s' : State} (h : Runs (next s) s v s') :
      Runs (.read next) s v s'
  | write {s₁ : State} {next : CallTree Call Val State Val} (s : State) {v : Val} {s' : State} (h : Runs next s₁ v s') :
      Runs (.write s₁ next) s v s'
  | call {c : Call} {next : Val → CallTree Call Val State Val} {s s₁ : State} {u v : Val} {s' : State}
      (hc : Runs (body c) s u s₁) (h : Runs (next u) s₁ v s') : Runs (.call c next) s v s'

/-- On its way the computation makes the call in the state, itself or in a call
it has made. -/
inductive Enters : CallTree Call Val State Val → State → Call → State → Prop
  | read {next : State → CallTree Call Val State Val} {s : State} {c : Call} {s' : State} (h : Enters (next s) s c s') :
      Enters (.read next) s c s'
  | write {s₁ : State} {next : CallTree Call Val State Val} (s : State) {c : Call} {s' : State}
      (h : Enters next s₁ c s') :
      Enters (.write s₁ next) s c s'
  | here (c : Call) (next : Val → CallTree Call Val State Val) (s : State) : Enters (.call c next) s c s
  | inside {c₀ : Call} (next : Val → CallTree Call Val State Val) {s : State} {c : Call} {s' : State}
      (h : Enters (body c₀) s c s') : Enters (.call c₀ next) s c s'
  | after {c₀ : Call} {next : Val → CallTree Call Val State Val} {s s₁ : State} {u : Val} {c : Call} {s' : State}
      (hc : Runs body (body c₀) s u s₁) (h : Enters (next u) s₁ c s') : Enters (.call c₀ next) s c s'

/-- On its way the computation is in the state, itself or in a call it has made. -/
inductive Visits : CallTree Call Val State Val → State → State → Prop
  | here (p : CallTree Call Val State Val) (s : State) : Visits p s s
  | read {next : State → CallTree Call Val State Val} {s s' : State} (h : Visits (next s) s s') :
      Visits (.read next) s s'
  | write {s₁ : State} {next : CallTree Call Val State Val} (s : State) {s' : State} (h : Visits next s₁ s') :
      Visits (.write s₁ next) s s'
  | inside {c : Call} (next : Val → CallTree Call Val State Val) {s s' : State} (h : Visits (body c) s s') :
      Visits (.call c next) s s'
  | after {c : Call} {next : Val → CallTree Call Val State Val} {s s₁ : State} {u : Val} {s' : State}
      (hc : Runs body (body c) s u s₁) (h : Visits (next u) s₁ s') : Visits (.call c next) s s'

variable {body}

theorem Runs.visits {p : CallTree Call Val State Val} {s : State} {v : Val} {s' : State} (h : Runs body p s v s') :
    Visits body p s s' := by
  induction h with
  | done v s => exact .here _ s
  | read h ih => exact .read ih
  | write s h ih => exact .write s ih
  | call hc h ihc ih => exact .after hc ih

theorem Runs.functional {p : CallTree Call Val State Val} {s : State} {v v' : Val} {s₁ s₂ : State}
    (h : Runs body p s v s₁) (h' : Runs body p s v' s₂) : v = v' ∧ s₁ = s₂ := by
  induction h generalizing v' s₂ with
  | done v s =>
      cases h'
      exact ⟨rfl, rfl⟩
  | read h ih =>
      cases h' with
      | read h' => exact ih h'
  | write s h ih =>
      cases h' with
      | write _ h' => exact ih h'
  | call hc h ihc ih =>
      cases h' with
      | call hc' h' =>
          obtain ⟨rfl, rfl⟩ := ihc hc'
          exact ih h'

/-- A computation that ends makes no call from which there is always another one
of the same kind. -/
theorem Runs.not_endless {Endless : Call → State → Prop}
    (hstep : ∀ c s, Endless c s → ∃ c' s', Endless c' s' ∧ Enters body (body c) s c' s')
    {p : CallTree Call Val State Val} {s : State} {v : Val} {s' : State} (h : Runs body p s v s') {c : Call}
    {s₁ : State}
    (he : Enters body p s c s₁) : ¬ Endless c s₁ := by
  induction h generalizing c s₁ with
  | done v s => cases he
  | read h ih =>
      cases he with
      | read he => exact ih he
  | write s h ih =>
      cases he with
      | write _ he => exact ih he
  | call hc h ihc ih =>
      cases he with
      | here =>
          intro hend
          obtain ⟨c', s', hend', he'⟩ := hstep _ _ hend
          exact ihc he' hend'
      | inside _ he => exact ihc he
      | after hc' he =>
          obtain ⟨rfl, rfl⟩ := hc.functional hc'
          exact ih he

theorem not_returns {Endless : Call → State → Prop}
    (hstep : ∀ c s, Endless c s → ∃ c' s', Endless c' s' ∧ Enters body (body c) s c' s')
    {c : Call} {s : State} (h : Endless c s) : ¬ ∃ v s', Runs body (body c) s v s' := by
  rintro ⟨v, s', hr⟩
  obtain ⟨c', s'', hend, he⟩ := hstep c s h
  exact hr.not_endless hstep he hend

end Runs

section Execution

variable (body : Call → CallTree Call Val State Val)

/-- Run a computation whose calls are answered by `answer`, with the calls it enters. -/
def trace (answer : Call → State → Option (Val × State × List (Call × State))) :
    CallTree Call Val State Val → State → Option (Val × State × List (Call × State))
  | .done v, s => some (v, s, [])
  | .read next, s => trace answer (next s) s
  | .write s₁ next, _ => trace answer next s₁
  | .call c next, s =>
    match answer c s with
    | none => none
    | some (u, s₁, inner) =>
      (trace answer (next u) s₁).map fun r => (r.1, r.2.1, (c, s) :: (inner ++ r.2.2))

/-- Run a call, the bodies nested up to the given depth. -/
def execute : Nat → Call → State → Option (Val × State × List (Call × State))
  | 0, _, _ => none
  | depth + 1, c, s => trace (execute depth) (body c) s

variable {body}

theorem trace_sound {answer : Call → State → Option (Val × State × List (Call × State))}
    (hanswer : ∀ c s r, answer c s = some r →
      Runs body (body c) s r.1 r.2.1 ∧ ∀ c' s', Enters body (body c) s c' s' → (c', s') ∈ r.2.2)
    {p : CallTree Call Val State Val} {s : State} {r : Val × State × List (Call × State)}
    (h : trace answer p s = some r) :
    Runs body p s r.1 r.2.1 ∧ ∀ c' s', Enters body p s c' s' → (c', s') ∈ r.2.2 := by
  induction p generalizing s r with
  | done v =>
      cases h
      exact ⟨.done v s, fun c' s' he => by cases he⟩
  | read next ih =>
      obtain ⟨hr, he⟩ := ih s h
      refine ⟨.read hr, fun c' s' h' => ?_⟩
      cases h' with
      | read h' => exact he c' s' h'
  | write s₁ next ih =>
      obtain ⟨hr, he⟩ := ih h
      refine ⟨.write s hr, fun c' s' h' => ?_⟩
      cases h' with
      | write _ h' => exact he c' s' h'
  | call c next ih =>
      rw [trace] at h
      split at h
      · cases h
      · next u s₁ inner ha =>
          obtain ⟨r', hr', rfl⟩ := Option.map_eq_some_iff.1 h
          obtain ⟨hc, hin⟩ := hanswer c s _ ha
          obtain ⟨hr, he⟩ := ih u hr'
          refine ⟨.call hc hr, fun c' s' h' => ?_⟩
          cases h' with
          | here => exact List.mem_cons_self
          | inside _ h' => exact List.mem_cons_of_mem _ (List.mem_append_left _ (hin c' s' h'))
          | after hc' h' =>
              obtain ⟨rfl, rfl⟩ := hc.functional hc'
              exact List.mem_cons_of_mem _ (List.mem_append_right _ (he c' s' h'))

theorem execute_sound {depth : Nat} {c : Call} {s : State} {r : Val × State × List (Call × State)}
    (h : execute body depth c s = some r) :
    Runs body (body c) s r.1 r.2.1 ∧ ∀ c' s', Enters body (body c) s c' s' → (c', s') ∈ r.2.2 := by
  induction depth generalizing c s r with
  | zero => cases h
  | succ depth ih => exact trace_sound (fun c s r hr => ih hr) h

end Execution

/-- What is required of a call and known of its return, with an invariant of the
states and what the calls of the run at hand are known to meet. -/
structure Spec (Call Val State : Type*) where
  inv : State → Prop
  meets : Call → State → Prop
  pre : Call → State → Prop
  post : Call → State → Val → State → Prop

namespace Spec

variable (S : Spec Call Val State)

def under (below : Call → State → Prop) : Spec Call Val State :=
  { S with pre := fun c s => S.pre c s ∧ below c s }

/-- The weakest precondition. -/
def wp : CallTree Call Val State α → (α → State → Prop) → State → Prop
  | .done a, Q, s => Q a s
  | .read next, Q, s => wp (next s) Q s
  | .write s₁ next, Q, _ => S.inv s₁ ∧ wp next Q s₁
  | .call c next, Q, s => S.meets c s → S.pre c s ∧ ∀ v s', S.post c s v s' → S.inv s' → wp (next v) Q s'

variable {S} {s : State} {Q Q' : α → State → Prop}

@[simp] theorem wp_pure {a : α} : S.wp (pure a : CallTree Call Val State α) Q s ↔ Q a s := Iff.rfl

@[simp] theorem wp_get {Q : State → State → Prop} :
    S.wp (CallTree.get : CallTree Call Val State State) Q s ↔ Q s s := Iff.rfl

@[simp] theorem wp_modify {f : State → State} {Q : PUnit → State → Prop} :
    S.wp (CallTree.modify f : CallTree Call Val State PUnit) Q s ↔ S.inv (f s) ∧ Q ⟨⟩ (f s) := Iff.rfl

@[simp] theorem wp_invoke {c : Call} {Q : Val → State → Prop} :
    S.wp (CallTree.invoke c : CallTree Call Val State Val) Q s ↔
      (S.meets c s → S.pre c s ∧ ∀ v s', S.post c s v s' → S.inv s' → Q v s') := Iff.rfl

@[simp] theorem wp_bind {p : CallTree Call Val State α} {f : α → CallTree Call Val State β} {Q : β → State → Prop} :
    S.wp (p >>= f) Q s ↔ S.wp p (fun a s' => S.wp (f a) Q s') s := by
  change S.wp (p.bind f) Q s ↔ _
  induction p generalizing s with
  | done a => rfl
  | read next ih => exact ih s
  | write s₁ next ih => exact and_congr_right fun _ => ih
  | call c next ih =>
      refine forall_congr' fun _ => and_congr_right fun _ => ?_
      exact forall_congr' fun v => forall_congr' fun s' => forall_congr' fun _ => forall_congr' fun _ => ih v

theorem wp_mono {p : CallTree Call Val State α} (h : S.wp p Q s) (hQ : ∀ a s', Q a s' → Q' a s') : S.wp p Q' s := by
  induction p generalizing s with
  | done a => exact hQ a s h
  | read next ih => exact ih s h
  | write s₁ next ih => exact ⟨h.1, ih h.2⟩
  | call c next ih =>
      intro hm
      exact ⟨(h hm).1, fun v s' hv hs => ih v ((h hm).2 v s' hv hs)⟩

theorem under_mono {below below' : Call → State → Prop} (hb : ∀ c s, below c s → below' c s)
    {p : CallTree Call Val State α} (h : (S.under below).wp p Q s) : (S.under below').wp p Q s := by
  induction p generalizing s with
  | done a => exact h
  | read next ih => exact ih s h
  | write s₁ next ih => exact ⟨h.1, ih h.2⟩
  | call c next ih =>
      intro hm
      exact ⟨⟨(h hm).1.1, hb c s (h hm).1.2⟩, fun v s' hv hs => ih v ((h hm).2 v s' hv hs)⟩

theorem wp_of_under {below : Call → State → Prop} {p : CallTree Call Val State α} (h : (S.under below).wp p Q s) :
    S.wp p Q s := by
  induction p generalizing s with
  | done a => exact h
  | read next ih => exact ih s h
  | write s₁ next ih => exact ⟨h.1, ih h.2⟩
  | call c next ih =>
      intro hm
      exact ⟨(h hm).1.1, fun v s' hv hs => ih v ((h hm).2 v s' hv hs)⟩

variable {body : Call → CallTree Call Val State Val} {p : CallTree Call Val State Val} {Q : Val → State → Prop}

/-- Every body keeps its contract when its calls keep theirs. -/
def Holds (S : Spec Call Val State) (body : Call → CallTree Call Val State Val) : Prop :=
  ∀ c s, S.meets c s → S.pre c s → S.inv s → S.wp (body c) (S.post c s) s

/-- The calls of the computation meet what the specification takes for granted. -/
def Met (S : Spec Call Val State) (body : Call → CallTree Call Val State Val) (p : CallTree Call Val State Val)
    (s : State) :
    Prop :=
  ∀ c s', Enters body p s c s' → S.meets c s'

theorem runs_sound (hbody : S.Holds body) {v : Val} {s' : State} (hr : Runs body p s v s') (hmet : S.Met body p s)
    (hinv : S.inv s) (h : S.wp p Q s) : Q v s' ∧ S.inv s' := by
  induction hr generalizing Q with
  | done v s => exact ⟨h, hinv⟩
  | read hr ih => exact ih (fun c s' he => hmet c s' (.read he)) hinv h
  | write s hr ih => exact ih (fun c s' he => hmet c s' (.write s he)) h.1 h.2
  | @call c next s s₁ u v s' hc hr ihc ih =>
      have hm := hmet c s (.here c next s)
      obtain ⟨hpre, hnext⟩ := h hm
      obtain ⟨hpost, hinv₁⟩ :=
        ihc (fun c' s' he => hmet c' s' (.inside next he)) hinv (hbody c s hm hpre hinv)
      exact ih (fun c' s' he => hmet c' s' (.after hc he)) hinv₁ (hnext u s₁ hpost hinv₁)

theorem visits_sound (hbody : S.Holds body) {s' : State} (hv : Visits body p s s') (hmet : S.Met body p s)
    (hinv : S.inv s) (h : S.wp p Q s) : S.inv s' := by
  induction hv generalizing Q with
  | here p s => exact hinv
  | read hv ih => exact ih (fun c s' he => hmet c s' (.read he)) hinv h
  | write s hv ih => exact ih (fun c s' he => hmet c s' (.write s he)) h.1 h.2
  | @inside c next s s' hv ih =>
      have hm := hmet c s (.here c next s)
      exact ih (fun c' s' he => hmet c' s' (.inside next he)) hinv (hbody c s hm (h hm).1 hinv)
  | @after c next s s₁ u s' hc hv ih =>
      have hm := hmet c s (.here c next s)
      obtain ⟨hpre, hnext⟩ := h hm
      obtain ⟨hpost, hinv₁⟩ :=
        runs_sound hbody hc (fun c' s' he => hmet c' s' (.inside next he)) hinv (hbody c s hm hpre hinv)
      exact ih (fun c' s' he => hmet c' s' (.after hc he)) hinv₁ (hnext u s₁ hpost hinv₁)

theorem total {ρ : Type*} [WellFoundedRelation ρ] {rank : Call → State → ρ}
    (hbody : ∀ c s, S.meets c s → S.pre c s → S.inv s →
      (S.under fun c' s' => WellFoundedRelation.rel (rank c' s') (rank c s)).wp (body c) (S.post c s) s)
    (c : Call) (s : State) (hpre : S.pre c s) (hinv : S.inv s) (hm : S.meets c s) (hmet : S.Met body (body c) s) :
    ∃ v s', Runs body (body c) s v s' := by
  have holds : S.Holds body := fun c s hm hpre hinv => wp_of_under (hbody c s hm hpre hinv)
  suffices hp : ∀ p s', S.Met body p s' → S.inv s' →
      (S.under fun c' s' => WellFoundedRelation.rel (rank c' s') (rank c s)).wp p (S.post c s) s' →
      ∃ v s'', Runs body p s' v s'' from hp _ s hmet hinv (hbody c s hm hpre hinv)
  intro p
  induction p with
  | done v => exact fun s' _ _ _ => ⟨v, s', .done v s'⟩
  | read next ih =>
      intro s' hmet hinv h
      obtain ⟨v, s'', hr⟩ := ih s' s' (fun c s' he => hmet c s' (.read he)) hinv h
      exact ⟨v, s'', .read hr⟩
  | write s₁ next ih =>
      intro s' hmet hinv h
      obtain ⟨v, s'', hr⟩ := ih s₁ (fun c s'' he => hmet c s'' (.write s' he)) h.1 h.2
      exact ⟨v, s'', .write s' hr⟩
  | call c' next ih =>
      intro s' hmet hinv h
      have hm' := hmet c' s' (.here c' next s')
      obtain ⟨⟨hpre', hlt⟩, hnext⟩ := h hm'
      have hmet' : S.Met body (body c') s' := fun c s'' he => hmet c s'' (.inside next he)
      obtain ⟨u, s₁, hc⟩ := total hbody c' s' hpre' hinv hm' hmet'
      obtain ⟨hpost, hinv₁⟩ := runs_sound holds hc hmet' hinv (holds c' s' hm' hpre' hinv)
      obtain ⟨v, s'', hr⟩ := ih u s₁ (fun c s'' he => hmet c s'' (.after hc he)) hinv₁ (hnext u s₁ hpost hinv₁)
      exact ⟨v, s'', .call hc hr⟩
termination_by rank c s

end Spec

end Ore.CallTrees
