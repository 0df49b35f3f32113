import Mathlib.Tactic.Common

namespace Ore.DemandTables

variable {Q A : Type*}

/-- A computation that demands the results of others. `deep` asks whether the
depth limit is reached, and a demand of what is still being computed is answered
with `none`. -/
inductive Task (Q A : Type*)
  | done (a : A)
  | deep (next : Bool → Task Q A)
  | ask (q : Q) (next : Option A → Task Q A)

/-- The computation of each query, and which of them count toward the depth. -/
structure Program (Q A : Type*) where
  body : Q → Task Q A
  counts : Q → Bool
  limit : Nat

/-- The stored results and the live depth counter. -/
structure Tables (Q A : Type*) where
  stored : Q → Option A
  depth : Nat

namespace Tables

def empty : Tables Q A := ⟨fun _ => none, 0⟩

def enter (s : Tables Q A) (counts : Bool) : Tables Q A := { s with depth := if counts then s.depth + 1 else s.depth }

end Tables

section Runs

variable [DecidableEq Q]

def Tables.leave (s : Tables Q A) (counts : Bool) (q : Q) (a : A) : Tables Q A :=
  ⟨fun r => if r = q then some a else s.stored r, if counts then s.depth - 1 else s.depth⟩

def runTask (limit : Nat) (demand : Tables Q A → Q → Option (Tables Q A × Option A)) :
    Task Q A → Tables Q A → Option (Tables Q A × A)
  | .done a, s => some (s, a)
  | .deep next, s => runTask limit demand (next (decide (limit ≤ s.depth))) s
  | .ask q next, s => (demand s q).bind fun (s, answer) => runTask limit demand (next answer) s

/-- A demand while the queries `active` are being computed, the innermost in front:
a stored result is read, an active query has none yet, any other is computed and
its result stored. -/
def demand (P : Program Q A) : Nat → List Q → Tables Q A → Q → Option (Tables Q A × Option A)
  | 0, _, _, _ => none
  | fuel + 1, active, s, q => match s.stored q with
    | some a => some (s, some a)
    | none =>
      if q ∈ active then some (s, none)
      else (runTask P.limit (demand P fuel (q :: active)) (P.body q) (s.enter (P.counts q))).map fun (s, a) =>
        (s.leave (P.counts q) q a, some a)

end Runs

section Conditions

/-- The results a computation may end with, whatever it is answered. -/
inductive Possible : Task Q A → A → Prop
  | done {a : A} : Possible (.done a) a
  | deep {next : Bool → Task Q A} {b : Bool} {a : A} (h : Possible (next b) a) : Possible (.deep next) a
  | ask {q : Q} {next : Option A → Task Q A} {answer : Option A} {a : A} (h : Possible (next answer) a) :
      Possible (.ask q next) a

/-- A computation may come to demand `q` and go on with `next`. -/
inductive Asks (q : Q) (next : Option A → Task Q A) : Task Q A → Prop
  | here : Asks q next (.ask q next)
  | deep {more : Bool → Task Q A} {b : Bool} (h : Asks q next (more b)) : Asks q next (.deep more)
  | ask {r : Q} {more : Option A → Task Q A} {answer : Option A} (h : Asks q next (more answer)) :
      Asks q next (.ask r more)

/-- Whoever demands `q` goes on the same way with no result as with any it may have. -/
def Indifferent (P : Program Q A) (q : Q) : Prop :=
  ∀ p next, Asks q next (P.body p) → ∀ a, Possible (P.body q) a → next none = next (some a)

/-- No step of a computation finds the depth limit reached, and the demands are calm. -/
def CalmTask (limit : Nat) (demand : Tables Q A → Q → Option (Tables Q A × Option A)) (calm : Tables Q A → Q → Prop) :
    Task Q A → Tables Q A → Prop
  | .done _, _ => True
  | .deep next, s => s.depth < limit ∧ CalmTask limit demand calm (next false) s
  | .ask q next, s => calm s q ∧ ∀ s' answer, demand s q = some (s', answer) →
        CalmTask limit demand calm (next answer) s'

/-- Only the innermost query or an indifferent one is demanded while it is active,
and the depth limit is not reached. -/
def Calm [DecidableEq Q] (P : Program Q A) : Nat → List Q → Tables Q A → Q → Prop
  | 0, _, _, _ => True
  | fuel + 1, active, s, q => match s.stored q with
    | some _ => True
    | none =>
      if q ∈ active then active.head? = some q ∨ Indifferent P q
      else CalmTask P.limit (demand P fuel (q :: active)) (Calm P fuel (q :: active)) (P.body q) (s.enter (P.counts q))

end Conditions

/-- The results of a query by the program alone: its own is not there for it, and
that of an indifferent query is not looked at. -/
inductive Settles (P : Program Q A) : Q → Task Q A → A → Prop
  | done {self : Q} {a : A} : Settles P self (.done a) a
  | deep {self : Q} {next : Bool → Task Q A} {a : A} (h : Settles P self (next false) a) : Settles P self (.deep next) a
  | free {self q : Q} {next : Option A → Task Q A} {a : A} (hq : q = self ∨ Indifferent P q)
      (h : Settles P self (next none) a) : Settles P self (.ask q next) a
  | ask {self q : Q} {next : Option A → Task Q A} {a b : A} (hq : ¬ (q = self ∨ Indifferent P q))
      (hb : Settles P q (P.body q) b) (h : Settles P self (next (some b)) a) : Settles P self (.ask q next) a

variable {P : Program Q A} {s s' : Tables Q A} {active : List Q} {q : Q} {a b : A} {answer : Option A} {t : Task Q A}

theorem Settles.unique {self : Q} (h : Settles P self t a) (h' : Settles P self t b) : a = b := by
  induction h generalizing b with
  | done =>
      cases h'
      rfl
  | deep _ ih =>
      cases h' with
      | deep h' => exact ih h'
  | free hq _ ih =>
      cases h' with
      | free _ h' => exact ih h'
      | ask hn _ _ => exact absurd hq hn
  | ask hn _ _ ihb ih =>
      cases h' with
      | free hq _ => exact absurd hq hn
      | ask _ hb' h' =>
          obtain rfl := ihb hb'
          exact ih h'

def Sound (P : Program Q A) (s : Tables Q A) : Prop :=
  ∀ q a, s.stored q = some a → Settles P q (P.body q) a ∧ Possible (P.body q) a

theorem Sound.empty : Sound P Tables.empty := fun _ _ h => by cases h

section Demands

variable [DecidableEq Q]

theorem Sound.leave (h : Sound P s) (hs : Settles P q (P.body q) a) (hp : Possible (P.body q) a) :
    Sound P (s.leave (P.counts q) q a) := by
  intro r b hb
  simp only [Tables.leave] at hb
  split_ifs at hb with hr
  · subst hr
    cases hb
    exact ⟨hs, hp⟩
  · exact h r b hb

def Answers (P : Program Q A) (active : List Q) (q : Q) : Option A → Prop
  | some a => Settles P q (P.body q) a ∧ Possible (P.body q) a
  | none => active.head? = some q ∨ Indifferent P q

/-- What a calm demand leaves behind: sound tables without results for what is
still active. -/
structure Answered (P : Program Q A) (active : List Q) (s' : Tables Q A) (q : Q) (answer : Option A) : Prop where
  sound : Sound P s'
  pending : ∀ p ∈ active, s'.stored p = none
  withheld : q ∈ active → answer = none
  answers : Answers P active q answer

theorem runTask_settles {demand : Tables Q A → Q → Option (Tables Q A × Option A)} {calm : Tables Q A → Q → Prop}
    {self : Q} (hdemand : ∀ s q s' answer, Sound P s → (∀ p ∈ self :: active, s.stored p = none) → calm s q →
      demand s q = some (s', answer) → Answered P (self :: active) s' q answer)
    (hasks : ∀ q next, Asks q next t → Asks q next (P.body self))
    (hsound : Sound P s) (hpending : ∀ p ∈ self :: active, s.stored p = none)
    (hcalm : CalmTask P.limit demand calm t s) (hr : runTask P.limit demand t s = some (s', a)) :
    Sound P s' ∧ (∀ p ∈ self :: active, s'.stored p = none) ∧ Settles P self t a ∧ Possible t a := by
  induction t generalizing s with
  | done b =>
      cases hr
      exact ⟨hsound, hpending, .done, .done⟩
  | deep next ih =>
      have hlt : decide (P.limit ≤ s.depth) = false := by simpa using hcalm.1
      rw [runTask, hlt] at hr
      obtain ⟨h₁, h₂, h₃, h₄⟩ := ih false (fun q next h => hasks q next (.deep h)) hsound hpending hcalm.2 hr
      exact ⟨h₁, h₂, .deep h₃, .deep h₄⟩
  | ask q next ih =>
      rw [runTask] at hr
      obtain ⟨⟨s₁, answer⟩, hd, hr⟩ := Option.bind_eq_some_iff.mp hr
      have hanswered := hdemand s q s₁ answer hsound hpending hcalm.1 hd
      obtain ⟨h₁, h₂, h₃, h₄⟩ := ih answer (fun q next h => hasks q next (.ask h)) hanswered.sound hanswered.pending
        (hcalm.2 s₁ answer hd) hr
      refine ⟨h₁, h₂, ?_, .ask h₄⟩
      have hanswers := hanswered.answers
      cases answer with
      | none =>
          rcases hanswers with hself | hq
          · exact .free (.inl (Option.some.inj hself).symm) h₃
          · exact .free (.inr hq) h₃
      | some b =>
          obtain ⟨hb, hposs⟩ := hanswers
          by_cases hq : Indifferent P q
          · refine .free (.inr hq) ?_
            rw [hq self next (hasks q next .here) b hposs]
            exact h₃
          · by_cases hself : q = self
            · have hnone := hanswered.withheld (by rw [hself]; exact List.mem_cons_self)
              cases hnone
            · exact .ask (by simp [hself, hq]) hb h₃

theorem demand_settles {fuel : Nat} (hsound : Sound P s) (hpending : ∀ p ∈ active, s.stored p = none)
    (hcalm : Calm P fuel active s q) (hr : demand P fuel active s q = some (s', answer)) :
    Answered P active s' q answer := by
  induction fuel generalizing active s q s' answer with
  | zero => cases hr
  | succ fuel ih =>
      rw [demand] at hr
      rw [Calm] at hcalm
      cases hq : s.stored q with
      | some a =>
          simp only [hq] at hr
          cases hr
          refine ⟨hsound, hpending, fun hmem => ?_, hsound q a hq⟩
          rw [hpending q hmem] at hq
          cases hq
      | none =>
          simp only [hq] at hr hcalm
          split_ifs at hr hcalm with hactive
          · cases hr
            exact ⟨hsound, hpending, fun _ => rfl, hcalm⟩
          · obtain ⟨⟨s₁, a⟩, hrun, hs⟩ := Option.map_eq_some_iff.mp hr
            cases hs
            have hstart : ∀ p ∈ q :: active, (s.enter (P.counts q)).stored p = none := by
              intro p hp
              rcases List.mem_cons.mp hp with rfl | hp
              · exact hq
              · exact hpending p hp
            have hentered : Sound P (s.enter (P.counts q)) := hsound
            obtain ⟨hsound₁, hpending₁, hsettles, hposs⟩ := runTask_settles
              (fun s q s' answer h₁ h₂ h₃ h₄ => ih h₁ h₂ h₃ h₄) (fun _ _ h => h) hentered hstart hcalm hrun
            refine ⟨hsound₁.leave hsettles hposs, fun p hp => ?_, fun hmem => absurd hmem hactive, hsettles, hposs⟩
            have hpq : p ≠ q := fun hpq => hactive (hpq ▸ hp)
            simp only [Tables.leave, if_neg hpq]
            exact hpending₁ p (List.mem_cons_of_mem _ hp)

/-- The tables after demands from outside, one after another, that are all of a
kind. -/
inductive Session (P : Program Q A) (ok : Nat → Tables Q A → Q → Prop) : Tables Q A → Prop
  | start : Session P ok .empty
  | demand {s s' : Tables Q A} {q : Q} {answer : Option A} (fuel : Nat) (before : Session P ok s) (held : ok fuel s q)
      (step : demand P fuel [] s q = some (s', answer)) : Session P ok s'

theorem Session.sound (h : Session P (fun fuel s q => Calm P fuel [] s q) s) : Sound P s := by
  induction h with
  | start => exact .empty
  | demand fuel _ hcalm hr ih => exact (demand_settles ih (by simp) hcalm hr).sound

end Demands

end Ore.DemandTables
