import Mathlib.Data.List.Nodup
import Mathlib.Logic.Function.Basic
import Mathlib.Tactic.Common

namespace Ore.HeapLedger

variable {P : Type*} [DecidableEq P]

/-- The blocks that places own, the number of blocks allocated so far, and the blocks
freed, in order. -/
structure Ledger (P : Type*) where
  held : P → Option Nat
  next : Nat
  freed : List Nat

namespace Ledger

def empty : Ledger P := ⟨fun _ => none, 0, []⟩

/-- Free what a place owns. -/
def release (l : Ledger P) (p : P) : Ledger P :=
  { l with held := Function.update l.held p none, freed := l.freed ++ (l.held p).toList }

/-- A fresh block. -/
def put (l : Ledger P) (p : P) : Ledger P :=
  { l with held := Function.update l.held p (some l.next), next := l.next + 1 }

def releaseAll (l : Ledger P) (ps : List P) : Ledger P := ps.foldl release l

/-- Free what a place owns before it is written. -/
def overwrite (l : Ledger P) (p : P) (fresh : Bool) : Ledger P :=
  if fresh then (l.release p).put p else l.release p

/-- Zero some places without freeing what they own. -/
def wipe (l : Ledger P) (s : P → Bool) : Ledger P := { l with held := fun p => if s p then none else l.held p }

/-- A block that a place has stays in use. -/
def refill (l : Ledger P) (p : P) (fresh : Bool) : Ledger P := if l.held p = none ∧ fresh then l.put p else l

end Ledger

/-- Every block ever allocated is owned by exactly one place or has been freed exactly
once. -/
structure Balanced (l : Ledger P) : Prop where
  alone : ∀ p p' h, l.held p = some h → l.held p' = some h → p = p'
  once : l.freed.Nodup
  apart : ∀ p h, l.held p = some h → h ∉ l.freed
  known : ∀ h, (∃ p, l.held p = some h) ∨ h ∈ l.freed ↔ h < l.next

variable {l : Ledger P} {p q : P} {ps : List P} {fresh : Bool}

section Frames

@[simp] theorem held_release : (l.release p).held = Function.update l.held p none := rfl

@[simp] theorem held_put : (l.put p).held = Function.update l.held p (some l.next) := rfl

theorem held_releaseAll (l : Ledger P) (ps : List P) (q : P) :
    (l.releaseAll ps).held q = if q ∈ ps then none else l.held q := by
  induction ps generalizing l with
  | nil => simp [Ledger.releaseAll]
  | cons p ps ih =>
      rw [Ledger.releaseAll, List.foldl_cons, ← Ledger.releaseAll, ih, held_release]
      by_cases hq : q = p
      · simp [hq]
      · simp [hq]

theorem held_overwrite_of_ne (h : q ≠ p) : (l.overwrite p fresh).held q = l.held q := by
  rw [Ledger.overwrite]
  split <;> simp [h]

theorem held_refill_of_ne (h : q ≠ p) : (l.refill p fresh).held q = l.held q := by
  rw [Ledger.refill]
  split <;> simp [h]

end Frames

section Balance

omit [DecidableEq P] in
theorem balanced_empty : Balanced (Ledger.empty : Ledger P) := by
  constructor <;> simp [Ledger.empty]

theorem Balanced.release (hl : Balanced l) (p : P) : Balanced (l.release p) := by
  have hheld {q : P} {h : Nat} (hq : (l.release p).held q = some h) : q ≠ p ∧ l.held q = some h := by
    rw [held_release] at hq
    by_cases heq : q = p
    · simp [heq] at hq
    · exact ⟨heq, by simpa [heq] using hq⟩
  have hfreed (h : Nat) : h ∈ (l.release p).freed ↔ h ∈ l.freed ∨ l.held p = some h := by
    simp [Ledger.release]
  constructor
  · exact fun q q' h hq hq' => hl.alone q q' h (hheld hq).2 (hheld hq').2
  · rw [Ledger.release, List.nodup_append]
    refine ⟨hl.once, by cases l.held p <;> simp, ?_⟩
    rintro h hh h' hh' rfl
    exact hl.apart p h (by simpa using hh') hh
  · intro q h hq hmem
    obtain ⟨hne, hold⟩ := hheld hq
    rcases (hfreed h).mp hmem with hmem | hp
    · exact hl.apart q h hold hmem
    · exact hne (hl.alone q p h hold hp)
  · intro h
    rw [show (l.release p).next = l.next from rfl, ← hl.known h, hfreed h]
    constructor
    · rintro (⟨q, hq⟩ | hmem | hp)
      · exact .inl ⟨q, (hheld hq).2⟩
      · exact .inr hmem
      · exact .inl ⟨p, hp⟩
    · rintro (⟨q, hq⟩ | hmem)
      · by_cases heq : q = p
        · exact .inr (.inr (heq ▸ hq))
        · exact .inl ⟨q, by simpa [heq] using hq⟩
      · exact .inr (.inl hmem)

theorem Balanced.put (hl : Balanced l) (hp : l.held p = none) : Balanced (l.put p) := by
  have hheld {q : P} {h : Nat} (hq : (l.put p).held q = some h) :
      q = p ∧ h = l.next ∨ q ≠ p ∧ l.held q = some h := by
    rw [held_put] at hq
    by_cases heq : q = p
    · simp only [heq, Function.update_self, Option.some.injEq] at hq
      exact .inl ⟨heq, hq.symm⟩
    · exact .inr ⟨heq, by simpa [heq] using hq⟩
  have hbelow {q : P} {h : Nat} (hq : l.held q = some h) : h < l.next := (hl.known h).mp (.inl ⟨q, hq⟩)
  constructor
  · intro q q' h hq hq'
    rcases hheld hq with ⟨rfl, rfl⟩ | ⟨hne, hold⟩
    · rcases hheld hq' with ⟨heq, -⟩ | ⟨-, hold'⟩
      · exact heq.symm
      · exact absurd (hbelow hold') (Nat.lt_irrefl _)
    · rcases hheld hq' with ⟨-, rfl⟩ | ⟨-, hold'⟩
      · exact absurd (hbelow hold) (Nat.lt_irrefl _)
      · exact hl.alone q q' h hold hold'
  · exact hl.once
  · intro q h hq hmem
    rcases hheld hq with ⟨-, rfl⟩ | ⟨-, hold⟩
    · exact Nat.lt_irrefl _ ((hl.known _).mp (.inr hmem))
    · exact hl.apart q h hold hmem
  · intro h
    rw [show (l.put p).next = l.next + 1 from rfl, show (l.put p).freed = l.freed from rfl, Nat.lt_succ_iff_lt_or_eq,
      ← hl.known h]
    constructor
    · rintro (⟨q, hq⟩ | hmem)
      · rcases hheld hq with ⟨-, rfl⟩ | ⟨-, hold⟩
        · exact .inr rfl
        · exact .inl (.inl ⟨q, hold⟩)
      · exact .inl (.inr hmem)
    · rintro ((⟨q, hq⟩ | hmem) | rfl)
      · refine .inl ⟨q, ?_⟩
        have hne : q ≠ p := fun heq => by simp [heq, hp] at hq
        simpa [hne] using hq
      · exact .inr hmem
      · exact .inl ⟨p, by simp⟩

omit [DecidableEq P] in
/-- Nothing is lost when the zeroed places own nothing. -/
theorem wipe_eq {s : P → Bool} (h : ∀ p, s p → l.held p = none) : l.wipe s = l := by
  rw [Ledger.wipe]
  congr
  funext p
  by_cases hs : s p
  · rw [if_pos hs, h p hs]
  · rw [if_neg hs]

theorem Balanced.releaseAll (hl : Balanced l) (ps : List P) : Balanced (l.releaseAll ps) := by
  induction ps generalizing l with
  | nil => exact hl
  | cons p ps ih => exact ih (hl.release p)

theorem Balanced.overwrite (hl : Balanced l) (p : P) (fresh : Bool) : Balanced (l.overwrite p fresh) := by
  rw [Ledger.overwrite]
  split
  · exact (hl.release p).put (by simp)
  · exact hl.release p

theorem Balanced.refill (hl : Balanced l) (p : P) (fresh : Bool) : Balanced (l.refill p fresh) := by
  rw [Ledger.refill]
  split
  · rename_i h
    exact hl.put h.1
  · exact hl

end Balance

/-- Only some places change hands, and the balance is kept. -/
structure Edits (A : P → Prop) (l l' : Ledger P) : Prop where
  balanced : Balanced l → Balanced l'
  frame : ∀ p, ¬ A p → l'.held p = l.held p

section Edits

variable {A : P → Prop} {l' l'' : Ledger P}

omit [DecidableEq P] in
theorem Edits.refl (l : Ledger P) : Edits A l l := ⟨id, fun _ _ => rfl⟩

omit [DecidableEq P] in
theorem Edits.trans (h : Edits A l l') (h' : Edits A l' l'') : Edits A l l'' :=
  ⟨h'.balanced ∘ h.balanced, fun p hp => (h'.frame p hp).trans (h.frame p hp)⟩

theorem edits_releaseAll (hps : ∀ p ∈ ps, A p) : Edits A l (l.releaseAll ps) := by
  refine ⟨fun hl => hl.releaseAll ps, fun p hp => ?_⟩
  rw [held_releaseAll, if_neg fun hmem => hp (hps p hmem)]

theorem edits_overwrite (hp : A p) : Edits A l (l.overwrite p fresh) :=
  ⟨fun hl => hl.overwrite p fresh, fun _ hq => held_overwrite_of_ne fun heq => hq (heq ▸ hp)⟩

theorem edits_refill (hp : A p) : Edits A l (l.refill p fresh) :=
  ⟨fun hl => hl.refill p fresh, fun _ hq => held_refill_of_ne fun heq => hq (heq ▸ hp)⟩

end Edits

end Ore.HeapLedger
