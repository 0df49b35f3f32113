import Ore.Loop
import Mathlib.Data.List.Nodup
import Mathlib.Logic.Relation

namespace Ore.Worklist

open Relation

variable {σ α : Type*} [DecidableEq α]

def enqueue (found : List α) (a : α) : List α := if a ∈ found then found else found ++ [a]

/-- A turn of the loop, at a position of the list. An expansion that fails ends it. -/
def turn (expand : σ → α → Option (σ × List α)) : σ × List α × Nat → (σ × List α × Nat) ⊕ Option (σ × List α)
  | (s, found, i) => match found[i]? with
    | none => .inr (some (s, found))
    | some a => match expand s a with
      | none => .inr none
      | some (s', out) => .inl (s', out.foldl enqueue found, i + 1)

/-- The outer `none` is a lack of fuel. -/
def collect (expand : σ → α → Option (σ × List α)) (fuel : Nat) (s : σ) (root : α) : Option (Option (σ × List α)) :=
  Loop.run (turn expand) fuel (s, [root], 0)

section Enqueue

variable {found out : List α} {a b : α}

theorem mem_enqueue : b ∈ enqueue found a ↔ b ∈ found ∨ b = a := by
  rw [enqueue]
  split
  · rename_i hmem
    constructor
    · exact .inl
    · rintro (h | rfl)
      · exact h
      · exact hmem
  · simp

theorem nodup_enqueue (h : found.Nodup) : (enqueue found a).Nodup := by
  rw [enqueue]
  split
  · exact h
  · rename_i hmem
    exact List.concat_eq_append ▸ h.concat hmem

theorem prefix_enqueue (found : List α) (a : α) : found <+: enqueue found a := by
  rw [enqueue]
  split
  · exact List.prefix_rfl
  · exact List.prefix_append _ _

theorem mem_enqueued : b ∈ out.foldl enqueue found ↔ b ∈ found ∨ b ∈ out := by
  induction out generalizing found with
  | nil => simp
  | cons a out ih => rw [List.foldl_cons, ih, mem_enqueue, List.mem_cons, or_assoc]

theorem nodup_enqueued (h : found.Nodup) : (out.foldl enqueue found).Nodup := by
  induction out generalizing found with
  | nil => exact h
  | cons a out ih => exact ih (nodup_enqueue h)

theorem prefix_enqueued (found out : List α) : found <+: out.foldl enqueue found := by
  induction out generalizing found with
  | nil => exact List.prefix_rfl
  | cons a out ih => exact (prefix_enqueue found a).trans (ih _)

end Enqueue

/-- How an expansion answers to the edges. They settle once a node is expanded, and what the
expansion is for is done, whatever is found out later. -/
structure Explores (Inv : σ → Prop) (Known Done : σ → α → Prop) (le : σ → σ → Prop) (succ : σ → α → List α)
    (expand : σ → α → Option (σ × List α)) : Prop where
  refl : ∀ s, le s s
  trans : ∀ s t u, le s t → le t u → le s u
  known : ∀ s t a, le s t → Known s a → Known t a
  step : ∀ s a s' out, Inv s → Known s a → expand s a = some (s', out) →
    Inv s' ∧ le s s' ∧ (∀ b ∈ out, Known s' b) ∧ ∀ t, Inv t → le s' t → Done t a ∧ succ t a = out

variable {Inv : σ → Prop} {Known Done : σ → α → Prop} {le : σ → σ → Prop} {succ : σ → α → List α}
  {expand : σ → α → Option (σ × List α)} {s s' : σ} {root : α} {found : List α} {i fuel : Nat}

/-- Between the turns, from a state and a root. -/
structure Visited (Inv : σ → Prop) (Known Done : σ → α → Prop) (le : σ → σ → Prop) (succ : σ → α → List α) (s₀ : σ)
    (root : α) (s : σ) (found : List α) (i : Nat) : Prop where
  inv : Inv s
  grows : le s₀ s
  known : ∀ a ∈ found, Known s a
  nodup : found.Nodup
  head : found.head? = some root
  bound : i ≤ found.length
  closed : ∀ t, Inv t → le s t → ∀ a ∈ found.take i, Done t a ∧ ∀ b ∈ succ t a, b ∈ found
  reached : ∀ t, Inv t → le s t → ∀ b ∈ found, ReflTransGen (fun a b => b ∈ succ t a) root b

omit [DecidableEq α] in
theorem visited_start (h : Explores Inv Known Done le succ expand) (hinv : Inv s) (hroot : Known s root) :
    Visited Inv Known Done le succ s root s [root] 0 where
  inv := hinv
  grows := h.refl s
  known := by
    intro a ha
    rw [List.mem_singleton.mp ha]
    exact hroot
  nodup := List.nodup_singleton root
  head := rfl
  bound := Nat.zero_le _
  closed := by
    intro t _ _ a ha
    cases ha
  reached := by
    intro t _ _ b hb
    rw [List.mem_singleton.mp hb]

theorem Visited.turn {s₀ : σ} (hexp : Explores Inv Known Done le succ expand) {a : α} {out : List α}
    (h : Visited Inv Known Done le succ s₀ root s found i) (hget : found[i]? = some a)
    (hout : expand s a = some (s', out)) :
    Visited Inv Known Done le succ s₀ root s' (out.foldl enqueue found) (i + 1) := by
  have hmem : a ∈ found := List.mem_of_getElem? hget
  have hlt : i < found.length := (List.getElem?_eq_some_iff.mp hget).1
  obtain ⟨hinv, hgrows, hknown, hsucc⟩ := hexp.step s a s' out h.inv (h.known a hmem) hout
  have hprefix := prefix_enqueued found out
  have htake : (out.foldl enqueue found).take (i + 1) = found.take i ++ [a] := by
    obtain ⟨more, hmore⟩ := hprefix
    rw [← hmore, List.take_append_of_le_length hlt, List.take_add_one, hget]
    rfl
  refine ⟨hinv, hexp.trans _ _ _ h.grows hgrows, ?_, nodup_enqueued h.nodup, ?_, ?_, ?_, ?_⟩
  · intro b hb
    rcases mem_enqueued.mp hb with hb | hb
    · exact hexp.known s s' b hgrows (h.known b hb)
    · exact hknown b hb
  · obtain ⟨more, hmore⟩ := hprefix
    rw [← hmore, List.head?_append, h.head]
    rfl
  · exact Nat.le_trans hlt hprefix.length_le
  · intro t ht hle b hb
    rw [htake, List.mem_append, List.mem_singleton] at hb
    rcases hb with hb | rfl
    · obtain ⟨hdone, hclosed⟩ := h.closed t ht (hexp.trans _ _ _ hgrows hle) b hb
      exact ⟨hdone, fun c hc => mem_enqueued.mpr (.inl (hclosed c hc))⟩
    · obtain ⟨hdone, hout⟩ := hsucc t ht hle
      refine ⟨hdone, fun c hc => ?_⟩
      rw [hout] at hc
      exact mem_enqueued.mpr (.inr hc)
  · intro t ht hle b hb
    have hreached := h.reached t ht (hexp.trans _ _ _ hgrows hle)
    rcases mem_enqueued.mp hb with hb | hb
    · exact hreached b hb
    · refine (hreached a hmem).tail ?_
      show b ∈ succ t a
      rw [(hsucc t ht hle).2]
      exact hb

omit [DecidableEq α] in
theorem Visited.mem_iff {s₀ t : σ} (h : Visited Inv Known Done le succ s₀ root s found i)
    (hend : found[i]? = none) (ht : Inv t)
    (hle : le s t) (b : α) : b ∈ found ↔ ReflTransGen (fun a b => b ∈ succ t a) root b := by
  constructor
  · exact h.reached t ht hle b
  · intro hreach
    have hclosed := h.closed t ht hle
    rw [List.take_of_length_le (List.getElem?_eq_none_iff.mp hend)] at hclosed
    induction hreach with
    | refl => exact List.mem_of_head? h.head
    | tail _ hedge ih => exact (hclosed _ ih).2 _ hedge

theorem collect_spec (h : Explores Inv Known Done le succ expand) (hinv : Inv s) (hroot : Known s root)
    (hcollect : collect expand fuel s root = some (some (s', found))) :
    Inv s' ∧ le s s' ∧ found.Nodup ∧ found.head? = some root ∧ (∀ a ∈ found, Known s' a ∧ Done s' a) ∧
      ∀ t, Inv t → le s' t → ∀ b, b ∈ found ↔ ReflTransGen (fun a b => b ∈ succ t a) root b := by
  have hpost := Loop.run_ended (f := turn expand) (fun p => Visited Inv Known Done le succ s root p.1 p.2.1 p.2.2)
    (fun r => ∀ s' found, r = some (s', found) →
      ∃ i, Visited Inv Known Done le succ s root s' found i ∧ found[i]? = none)
    ?_ ?_ (visited_start h hinv hroot) hcollect
  · obtain ⟨i, hvisited, hend⟩ := hpost s' found rfl
    have hclosed := hvisited.closed s' hvisited.inv (h.refl s')
    rw [List.take_of_length_le (List.getElem?_eq_none_iff.mp hend)] at hclosed
    exact ⟨hvisited.inv, hvisited.grows, hvisited.nodup, hvisited.head,
      fun a ha => ⟨hvisited.known a ha, (hclosed a ha).1⟩,
      fun t ht hle b => hvisited.mem_iff hend ht hle b⟩
  · rintro ⟨u, seen, j⟩ next hvisited hturn
    rw [turn] at hturn
    split at hturn
    · cases hturn
    · rename_i a hget
      split at hturn
      · cases hturn
      · rename_i u' out hout
        exact Sum.inl.inj hturn ▸ hvisited.turn h hget hout
  · rintro ⟨u, seen, j⟩ r hvisited hturn s' found rfl
    rw [turn] at hturn
    split at hturn
    · rename_i hend
      obtain ⟨rfl, rfl⟩ := Prod.mk.inj (Option.some.inj (Sum.inr.inj hturn))
      exact ⟨j, hvisited, hend⟩
    · split at hturn
      · cases Sum.inr.inj hturn
      · cases hturn

theorem collect_ends (h : Explores Inv Known Done le succ expand) (hinv : Inv s) (hroot : Known s root) {room : Nat}
    (hroom : ∀ t, Inv t → le s t → ∀ found : List α, found.Nodup → (∀ a ∈ found, Known t a) → found.length ≤ room)
    (hfuel : room < fuel) : ∃ result, collect expand fuel s root = some result := by
  have hnext : ∀ p next : σ × List α × Nat, Visited Inv Known Done le succ s root p.1 p.2.1 p.2.2 →
      turn expand p = .inl next →
        Visited Inv Known Done le succ s root next.1 next.2.1 next.2.2 ∧ room - next.2.2 < room - p.2.2 := by
    rintro ⟨u, seen, j⟩ next hvisited hturn
    rw [turn] at hturn
    split at hturn
    · cases hturn
    · rename_i a hget
      split at hturn
      · cases hturn
      · rename_i u' out hout
        obtain rfl := Sum.inl.inj hturn
        have hlt : j < seen.length := (List.getElem?_eq_some_iff.mp hget).1
        have hlength := hroom u hvisited.inv hvisited.grows seen hvisited.nodup hvisited.known
        refine ⟨hvisited.turn h hget hout, ?_⟩
        show room - (j + 1) < room - j
        omega
  obtain ⟨result, hresult, -⟩ := Loop.run_spec (turn expand)
    (fun p => Visited Inv Known Done le succ s root p.1 p.2.1 p.2.2)
    (fun _ => True) (fun p => room - p.2.2) hnext (fun _ _ _ _ => trivial) fuel (s, [root], 0)
    (visited_start h hinv hroot) (by simpa using hfuel)
  exact ⟨result, hresult⟩

end Ore.Worklist
