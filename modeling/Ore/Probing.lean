import Ore.Loop
import Mathlib.Logic.Function.Basic
import Mathlib.Data.Finset.Card

namespace Ore.Probing

/-- The forward distance from slot `a` to slot `b` on a ring of `n` slots. -/
def gap (n a b : Nat) : Nat := if a ≤ b then b - a else b + n - a

theorem gap_self (n a : Nat) : gap n a a = 0 := by simp [gap]

theorem gap_lt {n a b : Nat} (ha : a < n) (hb : b < n) : gap n a b < n := by
  unfold gap; split <;> omega

theorem gap_inj {n a x y : Nat} (ha : a < n) (hx : x < n) (hy : y < n) (h : gap n a x = gap n a y) : x = y := by
  unfold gap at h
  split at h <;> split at h <;> omega

/-- The slot after `i` on a ring of `n` slots. -/
def next (n i : Nat) : Nat := (i + 1) % n

theorem next_eq {n i : Nat} (hi : i < n) : next n i = if i + 1 = n then 0 else i + 1 := by
  unfold next
  split
  · next h => rw [h, Nat.mod_self]
  · exact Nat.mod_eq_of_lt (by omega)

theorem next_lt {n i : Nat} (hi : i < n) : next n i < n := by
  rw [next_eq hi]; split <;> omega

theorem gap_next {n a i : Nat} (ha : a < n) (hi : i < n) (h : gap n a i + 1 < n) :
    gap n a (next n i) = gap n a i + 1 := by
  rw [next_eq hi]
  unfold gap at h ⊢
  split at h <;> split <;> split <;> omega

variable {K V : Type*}

abbrev Table (K V : Type*) := Nat → Option (K × V)

def Occupied (t : Table K V) (i : Nat) : Prop := (t i).isSome

def Holds (n : Nat) (t : Table K V) (k : K) (v : V) : Prop := ∃ x < n, t x = some (k, v)

/-- The invariant of linear probing. No empty slot lies on the way from an
entry's home to the slot it sits in, and no key sits in two slots. -/
structure Packed (home : K → Nat) (n : Nat) (t : Table K V) : Prop where
  path : ∀ x k v, x < n → t x = some (k, v) → ∀ y < n, gap n (home k) y < gap n (home k) x → Occupied t y
  unique : ∀ x y k v w, x < n → y < n → t x = some (k, v) → t y = some (k, w) → x = y

theorem Packed.exists_empty {home : K → Nat} {n : Nat} {t : Table K V} (h : Packed home n t)
    (keys : Finset K) (hkeys : ∀ k v, Holds n t k v → k ∈ keys) (hcard : keys.card < n) :
    ∃ e < n, t e = none := by
  classical
  by_contra hfull
  push Not at hfull
  have hentry (x : Nat) (hx : x ∈ Finset.range n) : ∃ k v, t x = some (k, v) := by
    obtain ⟨⟨k, v⟩, hkv⟩ := Option.ne_none_iff_exists'.mp (hfull x (Finset.mem_range.mp hx))
    exact ⟨k, v, hkv⟩
  choose key value hkey using hentry
  have hinj : (Finset.range n).attach.card ≤ keys.card := by
    apply Finset.card_le_card_of_injOn (fun x => key x.1 x.2)
    · intro x _
      exact hkeys _ _ ⟨x.1, Finset.mem_range.mp x.2, hkey x.1 x.2⟩
    · intro x _ y _ hxy
      have hx := hkey x.1 x.2
      have hy := hkey y.1 y.2
      simp only at hxy
      rw [hxy] at hx
      exact Subtype.ext (h.unique _ _ _ _ _ (Finset.mem_range.mp x.2) (Finset.mem_range.mp y.2) hx hy)
  rw [Finset.card_attach, Finset.card_range] at hinj
  omega

theorem packed_empty (home : K → Nat) (n : Nat) : Packed home n (fun _ => none : Table K V) :=
  ⟨fun _ _ _ _ h => by simp at h, fun _ _ _ _ _ _ _ h => by simp at h⟩

/-- Only the slots of the ring matter. -/
theorem holds_congr {n : Nat} {t t' : Table K V} (heq : ∀ x < n, t' x = t x) (k : K) (v : V) : Holds n t' k v ↔
    Holds n t k v := by
  refine exists_congr fun x => and_congr_right fun hx => ?_
  rw [heq x hx]

theorem Packed.congr_slots {home : K → Nat} {n : Nat} {t t' : Table K V} (h : Packed home n t)
    (heq : ∀ x < n, t' x = t x) :
    Packed home n t' := by
  refine ⟨?_, ?_⟩
  · intro x k v hx htx y hy hlt
    rw [Occupied, heq y hy]
    exact h.path x k v hx (heq x hx ▸ htx) y hy hlt
  · intro x y k v w hx hy htx hty
    exact h.unique x y k v w hx hy (heq x hx ▸ htx) (heq y hy ▸ hty)

theorem Packed.congr {home home' : K → Nat} {n : Nat} {t : Table K V} (h : Packed home n t)
    (heq : ∀ x k v, x < n → t x = some (k, v) → home' k = home k) : Packed home' n t := by
  refine ⟨?_, h.unique⟩
  intro x k v hx htx y hy hlt
  rw [heq x k v hx htx] at hlt
  exact h.path x k v hx htx y hy hlt

/-- One turn of a probe: leave at an empty slot or at a matching entry, else
go on to the slot `succ` names. -/
def probeStep (succ : Nat → Nat) (found : K → Bool) (t : Table K V) (i : Nat) : Nat ⊕ Nat :=
  match t i with
  | none => .inr i
  | some (k, _) => if found k then .inr i else .inl (succ i)

def probe (n : Nat) (succ : Nat → Nat) (found : K → Bool) (t : Table K V) (i : Nat) : Option Nat :=
  Loop.run (probeStep succ found t) n i

/-- A probe that starts at slot `a` stops, because an empty slot exists, at
the first slot on its way that is empty or matches. -/
theorem probe_spec (n : Nat) (found : K → Bool) (t : Table K V) (a e : Nat)
    (ha : a < n) (he : e < n) (hempty : t e = none) :
    ∃ i, probe n (next n) found t a = some i ∧ i < n ∧
      (∀ y < n, gap n a y < gap n a i → ∃ k v, t y = some (k, v) ∧ found k = false) ∧
      (t i = none ∨ ∃ k v, t i = some (k, v) ∧ found k = true) := by
  refine Loop.run_spec (probeStep (next n) found t)
    (fun i => i < n ∧ gap n a i ≤ gap n a e ∧
      ∀ y < n, gap n a y < gap n a i → ∃ k v, t y = some (k, v) ∧ found k = false)
    _ (fun i => gap n a e - gap n a i) ?_ ?_ n a ?_ ?_
  · rintro i j ⟨hi, hle, hpast⟩ hstep
    have hen := gap_lt ha he
    cases hti : t i with
    | none => simp [probeStep, hti] at hstep
    | some entry =>
        obtain ⟨k, v⟩ := entry
        have hk : found k = false := by
          rw [Bool.eq_false_iff]
          intro hk
          simp [probeStep, hti, hk] at hstep
        have hj : j = next n i := by simpa [probeStep, hti, hk] using hstep.symm
        have hne : gap n a i ≠ gap n a e := by
          intro hge
          rw [gap_inj ha hi he hge, hempty] at hti
          simp at hti
        have hgap := gap_next ha hi (by omega)
        subst hj
        refine ⟨⟨next_lt hi, by omega, ?_⟩, by omega⟩
        intro y hy hlt
        by_cases hyi : y = i
        · subst hyi; exact ⟨k, v, hti, hk⟩
        · apply hpast y hy
          have : gap n a y ≠ gap n a i := fun h => hyi (gap_inj ha hy hi h)
          omega
  · rintro i r ⟨hi, _, hpast⟩ hstep
    cases hti : t i with
    | none =>
        have hr : r = i := by simpa [probeStep, hti] using hstep.symm
        subst hr
        exact ⟨hi, hpast, .inl hti⟩
    | some entry =>
        obtain ⟨k, v⟩ := entry
        by_cases hk : found k = true
        · have hr : r = i := by simpa [probeStep, hti, hk] using hstep.symm
          subst hr
          exact ⟨hi, hpast, .inr ⟨k, v, hti, hk⟩⟩
        · simp [probeStep, hti, hk] at hstep
  · exact ⟨ha, by simp [gap_self], fun y _ h => by simp [gap_self] at h⟩
  · have := gap_lt ha he
    omega

/-- Probing for a key from its home finds the slot that holds it, or shows it
absent and leaves at the slot where it can be stored. -/
theorem Packed.probe_key [DecidableEq K] {home : K → Nat} {n : Nat} {t : Table K V} (h : Packed home n t)
    (key : K) (hhome : home key < n) (e : Nat) (he : e < n) (hempty : t e = none) :
    ∃ i, probe n (next n) (fun k => k == key) t (home key) = some i ∧ i < n ∧
      ((∃ v, t i = some (key, v)) ∨
        (t i = none ∧ (∀ v, ¬ Holds n t key v) ∧
          ∀ y < n, gap n (home key) y < gap n (home key) i → Occupied t y)) := by
  obtain ⟨i, hp, hi, hpast, hstop⟩ := probe_spec n (fun k => k == key) t (home key) e hhome he hempty
  refine ⟨i, hp, hi, ?_⟩
  rcases hstop with hnone | ⟨k, v, hti, hk⟩
  · right
    refine ⟨hnone, ?_, ?_⟩
    · rintro v ⟨x, hx, htx⟩
      rcases Nat.lt_trichotomy (gap n (home key) x) (gap n (home key) i) with hlt | heq | hgt
      · obtain ⟨k, w, hk, hf⟩ := hpast x hx hlt
        rw [htx] at hk
        simp only [Option.some.injEq, Prod.mk.injEq] at hk
        simp [hk.1] at hf
      · rw [gap_inj hhome hx hi heq, hnone] at htx
        simp at htx
      · have := h.path x key v hx htx i hi hgt
        simp [Occupied, hnone] at this
    · intro y hy hlt
      obtain ⟨k, w, hk, _⟩ := hpast y hy hlt
      simp [Occupied, hk]
  · left
    have : k = key := by simpa using hk
    subst this
    exact ⟨v, hti⟩

/-- A probe that matches nothing leaves at the first empty slot on its way. -/
theorem probe_free (n : Nat) (t : Table K V) (a e : Nat) (ha : a < n) (he : e < n) (hempty : t e = none) :
    ∃ i, probe n (next n) (fun _ => false) t a = some i ∧ i < n ∧ t i = none ∧ ∀ y < n, gap n a y < gap n a i →
      Occupied t y := by
  obtain ⟨i, hp, hi, hpast, hstop⟩ := probe_spec n (fun _ => false) t a e ha he hempty
  refine ⟨i, hp, hi, ?_, ?_⟩
  · rcases hstop with hnone | ⟨_, _, _, hfalse⟩
    · exact hnone
    · simp at hfalse
  · intro y hy hlt
    obtain ⟨_, _, hy', _⟩ := hpast y hy hlt
    simp [Occupied, hy']

/-- Storing a new key in the slot where its probe stopped keeps the invariant. -/
theorem Packed.store {home : K → Nat} {n : Nat} {t : Table K V} (h : Packed home n t)
    (key : K) (value : V) (i : Nat) (hnone : t i = none) (habsent : ∀ v, ¬ Holds n t key v)
    (hpath : ∀ y < n, gap n (home key) y < gap n (home key) i → Occupied t y) :
    Packed home n (Function.update t i (some (key, value))) := by
  refine ⟨?_, ?_⟩
  · intro x k v hx htx y hy hlt
    by_cases hyi : y = i
    · simp [Occupied, hyi]
    · simp only [Occupied, Function.update_of_ne hyi]
      by_cases hxi : x = i
      · subst hxi
        simp only [Function.update_self, Option.some.injEq, Prod.mk.injEq] at htx
        obtain ⟨rfl, rfl⟩ := htx
        exact hpath y hy hlt
      · rw [Function.update_of_ne hxi] at htx
        exact h.path x k v hx htx y hy hlt
  · intro x y k v w hx hy htx hty
    by_cases hxi : x = i <;> by_cases hyi : y = i
    · rw [hxi, hyi]
    · rw [hxi, Function.update_self] at htx
      rw [Function.update_of_ne hyi] at hty
      simp only [Option.some.injEq, Prod.mk.injEq] at htx
      exact absurd ⟨y, hy, htx.1 ▸ hty⟩ (habsent w)
    · rw [hyi, Function.update_self] at hty
      rw [Function.update_of_ne hxi] at htx
      simp only [Option.some.injEq, Prod.mk.injEq] at hty
      exact absurd ⟨x, hx, hty.1 ▸ htx⟩ (habsent v)
    · rw [Function.update_of_ne hxi] at htx
      rw [Function.update_of_ne hyi] at hty
      exact h.unique x y k v w hx hy htx hty

/-- Replacing the value of an entry in place keeps the invariant. -/
theorem Packed.replace {home : K → Nat} {n : Nat} {t : Table K V} (h : Packed home n t)
    {key : K} {old : V} (value : V) {i : Nat} (hi : t i = some (key, old)) :
    Packed home n (Function.update t i (some (key, value))) := by
  have hkey (x : Nat) (k : K) (v : V) (hx : Function.update t i (some (key, value)) x = some (k, v)) :
      ∃ w, t x = some (k, w) := by
    by_cases hxi : x = i
    · subst hxi
      simp only [Function.update_self, Option.some.injEq, Prod.mk.injEq] at hx
      exact ⟨old, hx.1 ▸ hi⟩
    · rw [Function.update_of_ne hxi] at hx
      exact ⟨v, hx⟩
  refine ⟨?_, ?_⟩
  · intro x k v hx htx y hy hlt
    obtain ⟨w, hw⟩ := hkey x k v htx
    by_cases hyi : y = i
    · simp [Occupied, hyi]
    · simpa only [Occupied, Function.update_of_ne hyi] using h.path x k w hx hw y hy hlt
  · intro x y k v w hx hy htx hty
    obtain ⟨v', hv'⟩ := hkey x k v htx
    obtain ⟨w', hw'⟩ := hkey y k w hty
    exact h.unique x y k v' w' hx hy hv' hw'

theorem holds_update_iff [DecidableEq K] {n : Nat} {t : Table K V} {i : Nat} (hi : i < n) (key : K) (value : V)
    (hkey : ∀ x v, x < n → x ≠ i → t x ≠ some (key, v)) (k : K) (v : V) :
    Holds n (Function.update t i (some (key, value))) k v ↔
      if k = key then v = value else ∃ x < n, x ≠ i ∧ t x = some (k, v) := by
  by_cases hk : k = key
  · subst hk
    simp only [if_true]
    constructor
    · rintro ⟨x, hx, htx⟩
      by_cases hxi : x = i
      · subst hxi
        simpa [eq_comm] using htx
      · rw [Function.update_of_ne hxi] at htx
        exact absurd htx (hkey x v hx hxi)
    · rintro rfl
      exact ⟨i, hi, by simp⟩
  · simp only [if_neg hk]
    constructor
    · rintro ⟨x, hx, htx⟩
      by_cases hxi : x = i
      · subst hxi
        simp only [Function.update_self, Option.some.injEq, Prod.mk.injEq] at htx
        exact absurd htx.1.symm hk
      · rw [Function.update_of_ne hxi] at htx
        exact ⟨x, hx, hxi, htx⟩
    · rintro ⟨x, hx, hxi, htx⟩
      exact ⟨x, hx, by rwa [Function.update_of_ne hxi]⟩

/-- Whether the entry in slot `j`, whose home is `r`, may fall back into the
hole `i`. The two cases are a scan that has not wrapped and one that has. -/
def shouldMove (i j r : Nat) : Bool := if j > i then r ≤ i || r > j else r ≤ i && r > j

theorem shouldMove_iff {n i j r : Nat} (hi : i < n) (hj : j < n) (hr : r < n) :
    shouldMove i j r = true ↔ gap n r i < gap n r j := by
  unfold shouldMove gap
  split <;> simp only [Bool.or_eq_true, Bool.and_eq_true, decide_eq_true_eq] <;> split <;> split <;> omega

/-- One turn of the backward shift. The state is the table, the hole and the
slot scanned last; an entry that falls back leaves its own slot as the hole. -/
def shiftStep (succ : Nat → Nat) (home : K → Nat) : Table K V × Nat × Nat → (Table K V × Nat × Nat) ⊕ Table K V
  | (t, i, j) => match t (succ j) with
    | none => .inr t
    | some (k, v) =>
        if shouldMove i (succ j) (home k) then
          .inl (Function.update (Function.update t i (some (k, v))) (succ j) none, succ j, succ j)
        else .inl (t, i, succ j)

def shift (n : Nat) (succ : Nat → Nat) (home : K → Nat) (t : Table K V) (i : Nat) : Option (Table K V) :=
  Loop.run (shiftStep succ home) n (Function.update t i none, i, i)

/-- What the backward shift keeps. Entries whose way from home crosses the
hole `i` lie behind the scan, in the slots after `j`. -/
structure Shifting (home : K → Nat) (n e : Nat) (Q : K → V → Prop) (t : Table K V) (i j : Nat) : Prop where
  hole : i < n
  scan : j < n
  empty : t i = none
  stop : t e = none
  hole_ne : i ≠ e
  scan_ne : j ≠ e
  unique : ∀ x y k v w, x < n → y < n → t x = some (k, v) → t y = some (k, w) → x = y
  path : ∀ x k v, x < n → t x = some (k, v) → ∀ y < n, gap n (home k) y < gap n (home k) x →
    Occupied t y ∨ (y = i ∧ gap n i j < gap n i x)
  content : ∀ k v, Holds n t k v ↔ Q k v

variable {home : K → Nat} {n e : Nat} {Q : K → V → Prop} {t : Table K V} {i j : Nat}

theorem gap_next_left {n a e : Nat} (ha : a < n) (he : e < n) (hne : a ≠ e) :
    gap n (next n a) e < gap n a e := by
  rw [next_eq ha]
  unfold gap
  split <;> split <;> split <;> omega

theorem gap_next_self {n i j : Nat} (hi : i < n) (hj : j < n) (hne : next n j ≠ i) :
    gap n i (next n j) = gap n i j + 1 := by
  rw [next_eq hj] at hne ⊢
  unfold gap
  split at hne <;> split <;> split <;> split <;> omega

theorem gap_between {n r i j x : Nat} (hr : r < n) (hi : i < n) (hj : j < n) (hx : x < n)
    (hri : gap n r i < gap n r x) (hij : gap n i j < gap n i x) : gap n r j < gap n r x := by
  unfold gap at *
  split_ifs at hri hij ⊢ <;> omega

/-- The scan met an empty slot: no way from a home crosses the hole any more. -/
theorem Shifting.packed (h : Shifting home n e Q t i j) (hhome : ∀ k, home k < n)
    (hend : t (next n j) = none) : Packed home n t := by
  refine ⟨?_, h.unique⟩
  intro x k v hx htx y hy hlt
  rcases h.path x k v hx htx y hy hlt with hocc | ⟨rfl, hbehind⟩
  · exact hocc
  · exfalso
    have hnext : next n j ≠ y := by
      intro heq
      have : gap n y j + 1 = n := by
        have hj := h.scan
        rw [next_eq hj] at heq
        unfold gap
        split at heq <;> split <;> omega
      have := gap_lt hy hx
      omega
    have hgap := gap_next_self hy h.scan hnext
    have hxj : next n j ≠ x := by
      rintro rfl
      rw [hend] at htx
      simp at htx
    have hlt' : gap n y (next n j) < gap n y x := by
      have : gap n y (next n j) ≠ gap n y x := fun heq => hxj (gap_inj hy (next_lt h.scan) hx heq)
      omega
    have := gap_between (hhome k) hy (next_lt h.scan) hx hlt hlt'
    rcases h.path x k v hx htx (next n j) (next_lt h.scan) this with hocc | ⟨heq, _⟩
    · simp [Occupied, hend] at hocc
    · exact hnext heq

/-- The scan passes over an entry that may not fall back. -/
theorem Shifting.pass (h : Shifting home n e Q t i j) (hhome : ∀ k, home k < n) {k : K} {v : V}
    (hentry : t (next n j) = some (k, v)) (hstay : shouldMove i (next n j) (home k) = false) :
    Shifting home n e Q t i (next n j) := by
  have hj := next_lt h.scan
  have hne : next n j ≠ i := by
    intro heq
    rw [heq, h.empty] at hentry
    simp at hentry
  have hgap := gap_next_self h.hole h.scan hne
  refine { h with scan := hj, scan_ne := ?_, path := ?_ }
  · intro heq
    rw [heq, h.stop] at hentry
    simp at hentry
  · intro x k' v' hx htx y hy hlt
    rcases h.path x k' v' hx htx y hy hlt with hocc | ⟨rfl, hbehind⟩
    · exact .inl hocc
    · refine .inr ⟨rfl, ?_⟩
      have hxj : next n j ≠ x := by
        rintro rfl
        rw [hentry] at htx
        simp only [Option.some.injEq, Prod.mk.injEq] at htx
        rw [htx.1] at hstay
        have := (shouldMove_iff h.hole hj (hhome k')).mpr hlt
        simp [this] at hstay
      have : gap n y (next n j) ≠ gap n y x := fun heq => hxj (gap_inj hy hj hx heq)
      omega

/-- An entry falls back into the hole and leaves its own slot as the hole. -/
theorem Shifting.move (h : Shifting home n e Q t i j) (hhome : ∀ k, home k < n) {k : K} {v : V}
    (hentry : t (next n j) = some (k, v)) (hmove : shouldMove i (next n j) (home k) = true) :
    Shifting home n e Q (Function.update (Function.update t i (some (k, v))) (next n j) none)
      (next n j) (next n j) := by
  have hj := next_lt h.scan
  have hne : next n j ≠ i := by
    intro heq
    rw [heq, h.empty] at hentry
    simp at hentry
  have hje : next n j ≠ e := by
    intro heq
    rw [heq, h.stop] at hentry
    simp at hentry
  have hback := (shouldMove_iff h.hole hj (hhome k)).mp hmove
  have hother (x : Nat) (hxj : x ≠ next n j) (hxi : x ≠ i) :
      Function.update (Function.update t i (some (k, v))) (next n j) none x = t x := by
    rw [Function.update_of_ne hxj, Function.update_of_ne hxi]
  have hmoved : Function.update (Function.update t i (some (k, v))) (next n j) none i = some (k, v) := by
    rw [Function.update_of_ne (Ne.symm hne), Function.update_self]
  -- an entry of the new table sits in the old hole or where it sat before
  have hwhere (x : Nat) (k' : K) (v' : V)
      (hx : Function.update (Function.update t i (some (k, v))) (next n j) none x = some (k', v')) :
      x ≠ next n j ∧ (x = i ∧ k' = k ∧ v' = v ∨ x ≠ i ∧ t x = some (k', v')) := by
    have hxj : x ≠ next n j := by
      rintro rfl
      simp at hx
    refine ⟨hxj, ?_⟩
    by_cases hxi : x = i
    · subst hxi
      rw [hmoved] at hx
      simp only [Option.some.injEq, Prod.mk.injEq] at hx
      exact .inl ⟨rfl, hx.1.symm, hx.2.symm⟩
    · rw [hother x hxj hxi] at hx
      exact .inr ⟨hxi, hx⟩
  refine ⟨hj, hj, by simp, ?_, hje, hje, ?_, ?_, ?_⟩
  · rw [hother e (Ne.symm hje) (Ne.symm h.hole_ne)]
    exact h.stop
  · intro x y k' v' w' hx hy htx hty
    obtain ⟨hxj, ⟨rfl, rfl, rfl⟩ | ⟨hxi, hx'⟩⟩ := hwhere x k' v' htx <;>
      obtain ⟨hyj, ⟨rfl, hk, rfl⟩ | ⟨hyi, hy'⟩⟩ := hwhere y _ w' hty
    · rfl
    · exact absurd (h.unique _ _ _ _ _ hj hy hentry hy').symm hyj
    · rw [hk] at hx'
      exact absurd (h.unique _ _ _ _ _ hj hx hentry hx').symm hxj
    · exact h.unique x y k' v' w' hx hy hx' hy'
  · intro x k' v' hx htx y hy hlt
    by_cases hyj : y = next n j
    · subst hyj
      right
      refine ⟨rfl, ?_⟩
      obtain ⟨hxj, _⟩ := hwhere x k' v' htx
      rw [gap_self]
      by_contra hzero
      have : gap n (next n j) x = gap n (next n j) (next n j) := by rw [gap_self]; omega
      exact hxj (gap_inj hj hx hj this)
    · left
      by_cases hyi : y = i
      · simp [Occupied, hyi, hmoved]
      · simp only [Occupied, hother y hyj hyi]
        obtain ⟨hxj, ⟨rfl, rfl, rfl⟩ | ⟨hxi, hx'⟩⟩ := hwhere x k' v' htx
        · rcases h.path _ _ _ hj hentry y hy (by omega) with hocc | ⟨heq, _⟩
          · exact hocc
          · exact absurd heq hyi
        · rcases h.path x k' v' hx hx' y hy hlt with hocc | ⟨heq, _⟩
          · exact hocc
          · exact absurd heq hyi
  · intro k' v'
    rw [← h.content]
    constructor
    · rintro ⟨x, hx, htx⟩
      obtain ⟨_, ⟨rfl, rfl, rfl⟩ | ⟨_, hx'⟩⟩ := hwhere x k' v' htx
      · exact ⟨next n j, hj, hentry⟩
      · exact ⟨x, hx, hx'⟩
    · rintro ⟨x, hx, htx⟩
      by_cases hxj : x = next n j
      · rw [hxj, hentry] at htx
        exact ⟨i, h.hole, by rw [hmoved, htx]⟩
      · have hxi : x ≠ i := by
          rintro rfl
          rw [h.empty] at htx
          simp at htx
        exact ⟨x, hx, by rw [hother x hxj hxi, htx]⟩

/-- Erasing a slot of a packed table opens a hole that the scan starts at. -/
theorem Packed.erase (h : Packed home n t) (hi : i < n) {key : K} {old : V} (hkey : t i = some (key, old))
    (hstop : t e = none) :
    Shifting home n e (fun k v => Holds n t k v ∧ k ≠ key) (Function.update t i none) i i := by
  have hie : i ≠ e := by
    rintro rfl
    rw [hstop] at hkey
    simp at hkey
  have hwhere (x : Nat) (k : K) (v : V) (hx : Function.update t i none x = some (k, v)) :
      x ≠ i ∧ t x = some (k, v) := by
    have hxi : x ≠ i := by
      rintro rfl
      simp at hx
    exact ⟨hxi, by rwa [Function.update_of_ne hxi] at hx⟩
  refine ⟨hi, hi, by simp, by rw [Function.update_of_ne (Ne.symm hie)]; exact hstop, hie, hie, ?_, ?_, ?_⟩
  · intro x y k v w hx hy htx hty
    exact h.unique x y k v w hx hy (hwhere x k v htx).2 (hwhere y k w hty).2
  · intro x k v hx htx y hy hlt
    obtain ⟨hxi, hx'⟩ := hwhere x k v htx
    by_cases hyi : y = i
    · refine .inr ⟨hyi, ?_⟩
      rw [gap_self]
      by_contra hzero
      have : gap n i x = gap n i i := by rw [gap_self]; omega
      exact hxi (gap_inj hi hx hi this)
    · left
      simpa only [Occupied, Function.update_of_ne hyi] using h.path x k v hx hx' y hy hlt
  · intro k v
    constructor
    · rintro ⟨x, hx, htx⟩
      obtain ⟨hxi, hx'⟩ := hwhere x k v htx
      refine ⟨⟨x, hx, hx'⟩, ?_⟩
      rintro rfl
      exact hxi (h.unique x i k v old hx hi hx' hkey)
    · rintro ⟨⟨x, hx, htx⟩, hk⟩
      have hxi : x ≠ i := by
        rintro rfl
        rw [hkey] at htx
        simp only [Option.some.injEq, Prod.mk.injEq] at htx
        exact hk htx.1.symm
      exact ⟨x, hx, by rwa [Function.update_of_ne hxi]⟩

/-- Backward-shift deletion ends and leaves a packed table with every entry
but the erased one. -/
theorem Packed.shift_spec (h : Packed home n t) (hhome : ∀ k, home k < n) (hi : i < n) {key : K} {old : V}
    (hkey : t i = some (key, old)) (he : e < n) (hstop : t e = none) :
    ∃ t', shift n (next n) home t i = some t' ∧ Packed home n t' ∧
      ∀ k v, Holds n t' k v ↔ Holds n t k v ∧ k ≠ key := by
  refine Loop.run_spec (shiftStep (next n) home)
    (fun s => Shifting home n e (fun k v => Holds n t k v ∧ k ≠ key) s.1 s.2.1 s.2.2)
    _ (fun s => gap n s.2.2 e) ?_ ?_ n _ (h.erase hi hkey hstop) (gap_lt hi he)
  · rintro ⟨u, i, j⟩ s' hs hstep
    have hdown := gap_next_left hs.scan he hs.scan_ne
    cases hentry : u (next n j) with
    | none => simp [shiftStep, hentry] at hstep
    | some entry =>
        obtain ⟨k, v⟩ := entry
        cases hmove : shouldMove i (next n j) (home k) with
        | true =>
            simp only [shiftStep, hentry, hmove, if_true, Sum.inl.injEq] at hstep
            subst hstep
            exact ⟨hs.move hhome hentry hmove, hdown⟩
        | false =>
            simp only [shiftStep, hentry, hmove, Bool.false_eq_true, if_false, Sum.inl.injEq] at hstep
            subst hstep
            exact ⟨hs.pass hhome hentry hmove, hdown⟩
  · rintro ⟨u, i, j⟩ r hs hstep
    cases hentry : u (next n j) with
    | some entry =>
        obtain ⟨k, v⟩ := entry
        cases hmove : shouldMove i (next n j) (home k) <;> simp [shiftStep, hentry, hmove] at hstep
    | none =>
        simp only [shiftStep, hentry, Sum.inr.injEq] at hstep
        subst hstep
        exact ⟨hs.packed hhome hentry, hs.content⟩

end Ore.Probing
