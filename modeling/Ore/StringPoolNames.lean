import Ore.StringPoolModel

namespace Ore.StringPoolNames

open Probing StringPoolModel
open HashMapModel (maskNext)
open HashMapRefinement (maskNext_eq)
open WorkspaceModel (Bytes)

/-- Where a name starts when the blocks of the names follow each other from an
offset on; 0 for other strings. -/
def idOf : Nat → List Bytes → Bytes → Nat
  | _, [], _ => 0
  | a, x :: xs, s => if x = s then a else idOf (a + x.length + 5) xs s

def intern (names : List Bytes) (s : Bytes) : List Bytes := if s = [] ∨ s ∈ names then names else names ++ [s]

/-- The abstract pool: the names in the order of their first interning. -/
def answer (names : List Bytes) : Op → List Bytes × Nat
  | .intern s => (intern names s, idOf 5 (intern names s) s)
  | .lookup s => (names, idOf 5 names s)
  | .reserveSlots _ => (names, 0)

def answers : List Bytes → List Op → List Bytes × List (Op × Nat)
  | names, [] => (names, [])
  | names, op :: ops =>
      let rest := answers (answer names op).1 ops
      (rest.1, (op, (answer names op).2) :: rest.2)

variable {names : List Bytes} {s t : Bytes} {a b n : Nat} {buffer buffer' : Memory} {pool : StringPool}

theorem idOf_of_not_mem (h : s ∉ names) : idOf a names s = 0 := by
  induction names generalizing a with
  | nil => rfl
  | cons x xs ih =>
      simp only [List.mem_cons, not_or] at h
      rw [idOf, if_neg (Ne.symm h.1), ih h.2]

theorem le_idOf (h : s ∈ names) : a ≤ idOf a names s := by
  induction names generalizing a with
  | nil => simp at h
  | cons x xs ih =>
      unfold idOf
      split
      · exact Nat.le_refl _
      · rename_i hne
        have := ih (a := a + x.length + 5) ((List.mem_cons.mp h).resolve_left (Ne.symm hne))
        omega

theorem idOf_append (h : s ∈ names) (more : List Bytes) : idOf a (names ++ more) s = idOf a names s := by
  induction names generalizing a with
  | nil => simp at h
  | cons x xs ih =>
      rw [List.cons_append, idOf, idOf]
      split
      · rfl
      · rename_i hne
        exact ih ((List.mem_cons.mp h).resolve_left (Ne.symm hne))

theorem idOf_inj (hs : s ∈ names) (ht : t ∈ names) (h : idOf a names s = idOf a names t) : s = t := by
  induction names generalizing a with
  | nil => simp at hs
  | cons x xs ih =>
      have hlater {r : Bytes} (hr : r ∈ x :: xs) (hne : x ≠ r) : a < idOf (a + x.length + 5) xs r := by
        have := le_idOf (a := a + x.length + 5) ((List.mem_cons.mp hr).resolve_left (Ne.symm hne))
        omega
      unfold idOf at h
      split at h <;> split at h
      · rename_i hxs hxt
        exact hxs.symm.trans hxt
      · rename_i hxt
        have := hlater ht hxt
        omega
      · rename_i hxs _
        have := hlater hs hxs
        omega
      · rename_i hxs hxt
        exact ih ((List.mem_cons.mp hs).resolve_left (Ne.symm hxs)) ((List.mem_cons.mp ht).resolve_left (Ne.symm hxt)) h

theorem mem_intern : t ∈ intern names s ↔ t ∈ names ∨ (t = s ∧ s ≠ []) := by
  unfold intern
  split
  · rename_i h
    constructor
    · exact .inl
    · rintro (hmem | ⟨rfl, hne⟩)
      · exact hmem
      · exact h.resolve_left hne
  · rename_i h
    simp only [not_or] at h
    rw [List.mem_append, List.mem_singleton]
    simp [h.1]

theorem idOf_intern (h : s ∈ names) (t : Bytes) : idOf a (intern names t) s = idOf a names s := by
  unfold intern
  split
  · rfl
  · exact idOf_append h [t]

@[simp] theorem length_readBytes (buffer : Memory) (a n : Nat) :
    (readBytes buffer a n).length = n := by simp [readBytes]

theorem readBytes_congr (h : ∀ i, a ≤ i → i < a + n → buffer' i = buffer i) :
    readBytes buffer' a n = readBytes buffer a n := by
  refine List.map_congr_left fun k hk => ?_
  rw [List.mem_range] at hk
  exact h _ (Nat.le_add_right _ _) (by omega)

theorem readBytes_eq (h : ∀ k < s.length, buffer (a + k) = s.getD k 0) : readBytes buffer a s.length = s := by
  refine List.ext_getElem (length_readBytes _ _ _) fun k hk hk' => ?_
  simp [readBytes, h k hk', List.getElem?_eq_getElem hk']

theorem writeBytes_inside {k : Nat} (h : k < s.length) : writeBytes buffer a s (a + k) = s.getD k 0 := by
  rw [writeBytes, if_pos ⟨Nat.le_add_right _ _, by omega⟩, Nat.add_sub_cancel_left]

theorem writeBytes_outside {i : Nat} (h : i < a ∨ a + s.length ≤ i) : writeBytes buffer a s i = buffer i := by
  rw [writeBytes, if_neg (by omega)]

theorem readU32_congr (h : ∀ i, a ≤ i → i < a + 4 → buffer' i = buffer i) : readU32 buffer' a = readU32 buffer a := by
  rw [readU32, readU32, h a (Nat.le_refl _) (by omega), h (a + 1) (by omega) (by omega),
    h (a + 2) (by omega) (by omega),
    h (a + 3) (by omega) (by omega)]

/-- A word that was written is read back when it fits. -/
theorem readU32_of_bytes (hn : n < 2 ^ 32) (h : ∀ k < 4, buffer (a + k) = (u32Bytes n).getD k 0) :
    readU32 buffer a = n := by
  have h0 := h 0 (by decide)
  have h1 := h 1 (by decide)
  have h2 := h 2 (by decide)
  have h3 := h 3 (by decide)
  simp only [u32Bytes, List.getD_cons_zero, List.getD_cons_succ, Nat.add_zero] at h0 h1 h2 h3
  rw [readU32, h0, h1, h2, h3]
  simp only [Nat.toUInt8, UInt8.toNat_ofNat']
  omega

theorem writeBlock_before {i : Nat} (h : i < a) : writeBlock buffer a s i = buffer i := by
  rw [writeBlock, writeBytes_outside (.inl (by omega)), writeBytes_outside (.inl (by omega)),
    writeBytes_outside (.inl h)]

/-- The block of a string: length word, bytes and NUL. -/
structure Block (buffer : Memory) (a : Nat) (s : Bytes) : Prop where
  length : readU32 buffer a = s.length
  bytes : readBytes buffer (a + 4) s.length = s
  nul : buffer (a + 4 + s.length) = 0

namespace Block

theorem text (h : Block buffer a s) : textAt buffer a = s := by rw [textAt, h.length, h.bytes]

theorem congr (h : Block buffer a s) (heq : ∀ i, a ≤ i → i < a + s.length + 5 → buffer' i = buffer i) :
    Block buffer' a s where
  length := by rw [readU32_congr fun i hle hlt => heq i hle (by omega), h.length]
  bytes := by rw [readBytes_congr fun i hle hlt => heq i (by omega) (by omega), h.bytes]
  nul := by rw [heq _ (by omega) (by omega), h.nul]

theorem written (buffer : Memory) (a : Nat) {s : Bytes} (hs : s.length < 2 ^ 32) :
    Block (writeBlock buffer a s) a s where
  length := by
    have hfour : (u32Bytes s.length).length = 4 := rfl
    refine readU32_of_bytes hs fun k hk => ?_
    rw [writeBlock, writeBytes_outside (.inl (by omega)), writeBytes_outside (.inl (by omega)),
      writeBytes_inside (by omega)]
  bytes := by
    refine readBytes_eq fun k hk => ?_
    rw [writeBlock, writeBytes_outside (.inl (by omega)), writeBytes_inside hk]
  nul := by
    have hlast {b : Memory} (e : Nat) : writeBytes b e [0] (e + 0) = ([0] : Bytes).getD 0 0 := writeBytes_inside
      (by decide)
    simpa [writeBlock] using hlast (a + 4 + s.length)

end Block

/-- The blocks of the names, one after the other, each at an offset below the
mark of an empty slot. -/
def Blocks (buffer : Memory) : Nat → List Bytes → Nat → Prop
  | a, [], b => a = b
  | a, s :: ss, b => (Block buffer a s ∧ a < poolEmpty) ∧ Blocks buffer (a + s.length + 5) ss b

namespace Blocks

theorem le (h : Blocks buffer a names b) : a ≤ b := by
  induction names generalizing a with
  | nil => exact Nat.le_of_eq h
  | cons x xs ih =>
      have := ih h.2
      omega

theorem congr (h : Blocks buffer a names b) (heq : ∀ i < b, buffer' i = buffer i) : Blocks buffer' a names b := by
  induction names generalizing a with
  | nil => exact h
  | cons x xs ih =>
      obtain ⟨⟨hblock, hlt⟩, hrest⟩ := h
      have := hrest.le
      exact ⟨⟨hblock.congr fun i _ hi => heq i (by omega), hlt⟩, ih hrest⟩

theorem append (h : Blocks buffer a names b) (hblock : Block buffer b s) (hlt : b < poolEmpty) :
    Blocks buffer a (names ++ [s]) (b + s.length + 5) := by
  induction names generalizing a with
  | nil =>
      obtain rfl : a = b := h
      exact ⟨⟨hblock, hlt⟩, rfl⟩
  | cons x xs ih => exact ⟨h.1, ih h.2⟩

theorem block (h : Blocks buffer a names b) (hs : s ∈ names) : Block buffer (idOf a names s) s ∧
    idOf a names s < poolEmpty := by
  induction names generalizing a with
  | nil => simp at hs
  | cons x xs ih =>
      unfold idOf
      split
      · rename_i heq
        exact heq ▸ h.1
      · rename_i hne
        exact ih h.2 ((List.mem_cons.mp hs).resolve_left (Ne.symm hne))

theorem idOf_new (h : Blocks buffer a names b) (hs : s ∉ names) : idOf a (names ++ [s]) s = b := by
  induction names generalizing a with
  | nil =>
      obtain rfl : a = b := h
      rw [List.nil_append, idOf, if_pos rfl]
  | cons x xs ih =>
      simp only [List.mem_cons, not_or] at hs
      rw [List.cons_append, idOf, if_neg (Ne.symm hs.1)]
      exact ih h.2 hs.2

end Blocks

end Ore.StringPoolNames
