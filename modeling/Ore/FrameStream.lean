import Mathlib.Data.List.Infix
import Mathlib.Tactic.Common

namespace Ore.FrameStream

variable {α μ : Type*}

inductive Received (α μ : Type*)
  | eof
  | fail
  | message (m : μ) (rest : List α)

/-- The messages up to the end of the stream, and whether it is a clean one. -/
def readAll (read : List α → Received α μ) : Nat → List α → List μ × Bool
  | 0, _ => ([], false)
  | fuel + 1, input => match read input with
    | .eof => ([], true)
    | .fail => ([], false)
    | .message m rest => (m :: (readAll read fuel rest).1, (readAll read fuel rest).2)

/-- What a reader takes back of the messages of a writer. -/
structure Codec (read : List α → Received α μ) (write : μ → List α) (Ok : μ → Prop) : Prop where
  eof : read [] = .eof
  nonempty : ∀ m, Ok m → write m ≠ []
  whole : ∀ m rest, Ok m → read (write m ++ rest) = .message m rest
  truncated : ∀ m p m' rest, Ok m → p <+: write m → read p = .message m' rest → m' = m ∧ rest = []

theorem prefix_append_cases {p l t : List α} (h : p <+: l ++ t) : p <+: l ∨ ∃ q, p = l ++ q ∧ q <+: t := by
  rcases List.prefix_or_prefix_of_prefix h (List.prefix_append l t) with hp | ⟨q, rfl⟩
  · exact .inl hp
  · exact .inr ⟨q, rfl, (List.prefix_append_right_inj l).mp h⟩

variable {read : List α → Received α μ} {write : μ → List α} {Ok : μ → Prop}

theorem readAll_nil (h : Codec read write Ok) (fuel : Nat) : readAll read (fuel + 1) [] = ([], true) := by
  rw [readAll, h.eof]

/-- A stream of messages comes back whole. Cut anywhere, it gives the first of them. -/
theorem Codec.readAll_prefix (h : Codec read write Ok) {ms : List μ} (hok : ∀ m ∈ ms, Ok m) {p : List α}
    (hp : p <+: ms.flatMap write) {fuel : Nat} (hfuel : p.length < fuel) :
    (readAll read fuel p).1 <+: ms ∧ (p = ms.flatMap write → readAll read fuel p = (ms, true)) := by
  induction ms generalizing p fuel with
  | nil =>
      obtain rfl : p = [] := List.prefix_nil.mp hp
      obtain ⟨fuel, rfl⟩ := Nat.exists_eq_succ_of_ne_zero (by omega : fuel ≠ 0)
      rw [readAll_nil h]
      exact ⟨List.prefix_rfl, fun _ => rfl⟩
  | cons m ms ih =>
      obtain ⟨hm, hms⟩ := List.forall_mem_cons.mp hok
      obtain ⟨fuel, rfl⟩ := Nat.exists_eq_succ_of_ne_zero (by omega : fuel ≠ 0)
      have hwide : 0 < (write m).length := List.length_pos_iff.mpr (h.nonempty m hm)
      rw [List.flatMap_cons] at hp ⊢
      rcases prefix_append_cases hp with hcut | ⟨q, rfl, hq⟩
      · cases hread : read p with
        | eof =>
            rw [readAll, hread]
            refine ⟨List.nil_prefix, fun hall => ?_⟩
            rw [hall, h.whole m _ hm] at hread
            cases hread
        | fail =>
            rw [readAll, hread]
            refine ⟨List.nil_prefix, fun hall => ?_⟩
            rw [hall, h.whole m _ hm] at hread
            cases hread
        | message m' rest =>
            obtain ⟨rfl, rfl⟩ := h.truncated m p m' rest hm hcut hread
            have hne : p ≠ [] := by
              rintro rfl
              rw [h.eof] at hread
              cases hread
            have hpos := List.length_pos_iff.mpr hne
            obtain ⟨fuel, rfl⟩ := Nat.exists_eq_succ_of_ne_zero (by omega : fuel ≠ 0)
            rw [readAll, hread]
            simp only [readAll_nil h]
            refine ⟨List.cons_prefix_cons.mpr ⟨rfl, List.nil_prefix⟩, fun hall => ?_⟩
            rw [hall, h.whole m' _ hm] at hread
            obtain ⟨-, hrest⟩ := Received.message.inj hread
            cases ms with
            | nil => rfl
            | cons m₁ ms =>
                rw [List.flatMap_cons, List.append_eq_nil_iff] at hrest
                exact absurd hrest.1 (h.nonempty m₁ (hms m₁ (List.mem_cons_self ..)))
      · rw [List.length_append] at hfuel
        obtain ⟨hfirst, hend⟩ := ih hms hq (by omega : q.length < fuel)
        rw [readAll, h.whole m q hm]
        refine ⟨List.cons_prefix_cons.mpr ⟨rfl, hfirst⟩, fun heq => ?_⟩
        simp only [hend (List.append_cancel_left heq)]

end Ore.FrameStream
