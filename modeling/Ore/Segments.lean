import Mathlib.Algebra.Order.BigOperators.Group.List
import Mathlib.Algebra.Order.Group.Nat
import Mathlib.Algebra.Ring.Nat
import Mathlib.Tactic.Common

namespace Ore.Segments

variable {α : Type*} (size : α → Nat)

/-- The length of segments laid end to end. -/
def total (l : List α) : Nat := (l.map size).sum

/-- The segment that covers a position, with its start. `base` is the start of the list. -/
def locate (x : Nat) : Nat → List α → Option (α × Nat)
  | _, [] => none
  | base, c :: l => if base ≤ x ∧ x < base + size c then some (c, base) else locate x (base + size c) l

/-- A segment of the list starts at `base`. -/
def At (l : List α) (c : α) (base : Nat) : Prop := ∃ before after, l = before ++ c :: after ∧ base = total size before

variable {size} {l l' : List α} {c d : α} {x base base' : Nat}

section Totals

@[simp] theorem total_nil : total size [] = 0 := rfl

@[simp] theorem total_cons (c : α) (l : List α) : total size (c :: l) = size c + total size l := by
  simp [total]

@[simp] theorem total_append (l l' : List α) : total size (l ++ l') = total size l + total size l' := by
  simp [total]

theorem total_le {size' : α → Nat} (h : ∀ c ∈ l, size c ≤ size' c) : total size l ≤ total size' l := List.sum_le_sum h

end Totals

section Positions

theorem At.mem (h : At size l c base) : c ∈ l := by
  obtain ⟨before, after, rfl, -⟩ := h
  simp

theorem At.end_le (h : At size l c base) : base + size c ≤ total size l := by
  obtain ⟨before, after, rfl, rfl⟩ := h
  rw [total_append, total_cons]
  omega

theorem At.append (h : At size l c base) (l' : List α) : At size (l ++ l') c base := by
  obtain ⟨before, after, rfl, rfl⟩ := h
  exact ⟨before, after ++ l', by simp, rfl⟩

theorem at_concat (l : List α) (c : α) : At size (l ++ [c]) c (total size l) := ⟨l, [], rfl, rfl⟩

theorem at_append_cases (h : At size (l ++ l') c base) :
    At size l c base ∨ ∃ base', base = total size l + base' ∧ At size l' c base' := by
  obtain ⟨before, after, hsplit, rfl⟩ := h
  rcases List.append_eq_append_iff.mp hsplit with ⟨mid, rfl, rfl⟩ | ⟨mid, rfl, hmid⟩
  · exact .inr ⟨total size mid, total_append _ _, mid, after, rfl, rfl⟩
  · cases mid with
    | nil =>
        refine .inr ⟨0, by simp, [], after, ?_, rfl⟩
        simpa using hmid.symm
    | cons b mid =>
        obtain ⟨rfl, rfl⟩ := List.cons.inj hmid
        exact .inl ⟨before, mid, rfl, rfl⟩

theorem at_concat_cases (h : At size (l ++ [d]) c base) : At size l c base ∨ c = d ∧ base = total size l := by
  rcases at_append_cases h with hl | ⟨base', rfl, before, after, hsplit, rfl⟩
  · exact .inl hl
  · cases before with
    | nil =>
        obtain ⟨rfl, -⟩ := List.cons.inj hsplit
        exact .inr ⟨rfl, by simp⟩
    | cons b before => simp at hsplit

theorem At.locate (h : At size l c base) (hle : base ≤ x) (hlt : x < base + size c) :
    Segments.locate size x 0 l = some (c, base) := by
  have hgeneral : ∀ start before after, start + total size before ≤ x → x < start + total size before + size c →
      Segments.locate size x start (before ++ c :: after) = some (c, start + total size before) := by
    intro start before after hle hlt
    induction before generalizing start with
    | nil => exact if_pos ⟨hle, hlt⟩
    | cons b before ih =>
        rw [total_cons] at hle hlt ⊢
        rw [List.cons_append, Segments.locate, if_neg (by omega), ih (start + size b) (by omega) (by omega),
          Nat.add_assoc]
  obtain ⟨before, after, rfl, rfl⟩ := h
  simpa using hgeneral 0 before after (by simpa using hle) (by simpa using hlt)

theorem at_of_locate (h : locate size x 0 l = some (c, base)) : At size l c base ∧ base ≤ x ∧ x < base + size c := by
  have hgeneral : ∀ start l, locate size x start l = some (c, base) →
      ∃ before after, l = before ++ c :: after ∧ base = start + total size before ∧ base ≤ x ∧ x < base + size c := by
    intro start l h
    induction l generalizing start with
    | nil => cases h
    | cons b l ih =>
        rw [locate] at h
        split_ifs at h with hcover
        · cases h
          exact ⟨[], l, rfl, rfl, hcover⟩
        · obtain ⟨before, after, rfl, hbase, hx⟩ := ih _ h
          exact ⟨b :: before, after, rfl, by rw [hbase, total_cons, Nat.add_assoc], hx⟩
  obtain ⟨before, after, hl, hbase, hx⟩ := hgeneral 0 l h
  exact ⟨⟨before, after, hl, by rw [hbase, Nat.zero_add]⟩, hx⟩

/-- No two segments cover one position. -/
theorem At.unique (h : At size l c base) (h' : At size l d base') (hle : base ≤ x) (hlt : x < base + size c)
    (hle' : base' ≤ x) (hlt' : x < base' + size d) : c = d ∧ base = base' := by
  have heq := (h.locate hle hlt).symm.trans (h'.locate hle' hlt')
  exact Prod.mk.inj (Option.some.inj heq)

end Positions

end Ore.Segments
