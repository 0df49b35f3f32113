import Ore.HashMapModel

namespace Ore.HashMapRefinement

open Probing HashMapModel

variable {V : Type}

abbrev Spec (V : Type) := Finmap (fun _ : UInt64 => V)

/-- The table of `n` slots holds exactly the entries of the finite map. -/
structure Content (n : Nat) (slots : Table UInt64 V) (a : Spec V) : Prop where
  packed : Packed (index n) n slots
  holds : ∀ k v, Holds n slots k v ↔ a.lookup k = some v

/-- What a reachable map satisfies: the entry count is the number of keys,
and the load stays under the growth limit of a power-of-two table. -/
structure Represents (map : HashMap V) (a : Spec V) : Prop where
  count : map.count = a.keys.card
  fresh : map.capacity = 0 → a = ∅
  shape : map.capacity = 0 ∨ ∃ k, 4 ≤ k ∧ map.capacity = 2 ^ k
  content : map.capacity ≠ 0 → Content map.capacity map.slots a
  load : map.count ≤ maxCount map.capacity

theorem index_eq (k : Nat) (key : UInt64) : index (2 ^ k) key = (hashU64 key).toNat % 2 ^ k :=
  Nat.and_two_pow_sub_one_eq_mod _ _

theorem index_lt (k : Nat) (key : UInt64) : index (2 ^ k) key < 2 ^ k := by
  rw [index_eq]
  exact Nat.mod_lt _ (Nat.two_pow_pos k)

theorem maskNext_eq (k : Nat) : maskNext (2 ^ k) = next (2 ^ k) := by
  funext i
  exact Nat.and_two_pow_sub_one_eq_mod _ _

theorem maxCount_lt {c : Nat} (hc : 0 < c) : maxCount c < c := by
  simp only [maxCount, maxLoadDenominator, maxLoadNumerator]
  omega

theorem maxCount_double {c : Nat} (hc : 16 ≤ c) : maxCount c + 1 ≤ maxCount (c * 2) := by
  simp only [maxCount, maxLoadDenominator, maxLoadNumerator]
  omega

theorem two_pow_ge {k : Nat} (hk : 4 ≤ k) : 16 ≤ 2 ^ k := by
  calc 16 = 2 ^ 4 := rfl
    _ ≤ 2 ^ k := Nat.pow_le_pow_right (by omega) hk

theorem keys_insert (a : Spec V) (key : UInt64) (value : V) :
    (a.insert key value).keys = insert key a.keys := by
  ext k
  simp [Finmap.mem_keys]

namespace Content

variable {n k : Nat} {slots : Table UInt64 V} {a : Spec V}

theorem mem_keys (h : Content n slots a) (key : UInt64) (v : V) (hv : Holds n slots key v) : key ∈ a.keys := by
  rw [Finmap.mem_keys, Finmap.mem_iff]
  exact ⟨v, (h.holds key v).mp hv⟩

theorem exists_empty (h : Content n slots a) (hcard : a.keys.card < n) : ∃ e < n, slots e = none :=
  h.packed.exists_empty a.keys h.mem_keys hcard

theorem empty (n : Nat) : Content n (fun _ => none) (∅ : Spec V) :=
  ⟨packed_empty _ _, fun k v => by simp [Holds]⟩

theorem probe_cases (h : Content (2 ^ k) slots a) (hcard : a.keys.card < 2 ^ k) (key : UInt64) :
    ∃ i, probe (2 ^ k) (maskNext (2 ^ k)) (· == key) slots (index (2 ^ k) key) = some i ∧ i < 2 ^ k ∧
      ((∃ v, slots i = some (key, v) ∧ a.lookup key = some v) ∨
        (slots i = none ∧ a.lookup key = none ∧
          ∀ y < 2 ^ k, gap (2 ^ k) (index (2 ^ k) key) y < gap (2 ^ k) (index (2 ^ k) key) i → Occupied slots y)) := by
  obtain ⟨e, he, hempty⟩ := h.exists_empty hcard
  obtain ⟨i, hp, hi, hfound⟩ := h.packed.probe_key key (index_lt k key) e he hempty
  refine ⟨i, by rw [maskNext_eq]; exact hp, hi, ?_⟩
  rcases hfound with ⟨v, hv⟩ | ⟨hnone, habsent, hpath⟩
  · exact .inl ⟨v, hv, (h.holds key v).mp ⟨i, hi, hv⟩⟩
  · refine .inr ⟨hnone, ?_, hpath⟩
    by_contra hsome
    obtain ⟨v, hv⟩ := Option.ne_none_iff_exists'.mp hsome
    exact habsent v ((h.holds key v).mpr hv)

theorem update (h : Content n slots a) {i : Nat} (hi : i < n) (key : UInt64) (value : V)
    (hpacked : Packed (index n) n (Function.update slots i (some (key, value))))
    (hkey : ∀ x v, x < n → x ≠ i → slots x ≠ some (key, v))
    (hother : ∀ k v, k ≠ key → slots i ≠ some (k, v)) :
    Content n (Function.update slots i (some (key, value))) (a.insert key value) := by
  refine ⟨hpacked, ?_⟩
  intro k v
  rw [holds_update_iff hi key value hkey]
  by_cases hk : k = key
  · subst hk
    simp [eq_comm]
  · rw [if_neg hk, Finmap.lookup_insert_of_ne a hk, ← h.holds]
    constructor
    · rintro ⟨x, hx, _, htx⟩
      exact ⟨x, hx, htx⟩
    · rintro ⟨x, hx, htx⟩
      refine ⟨x, hx, ?_, htx⟩
      rintro rfl
      exact hother k v hk htx

theorem store (h : Content n slots a) {i : Nat} (hi : i < n) (key : UInt64) (value : V)
    (hnone : slots i = none) (habsent : a.lookup key = none)
    (hpath : ∀ y < n, gap n (index n key) y < gap n (index n key) i → Occupied slots y) :
    Content n (Function.update slots i (some (key, value))) (a.insert key value) := by
  have hfree (v : V) : ¬ Holds n slots key v := by
    rw [h.holds, habsent]
    simp
  refine h.update hi key value (h.packed.store key value i hnone hfree hpath) ?_ ?_
  · intro x v hx _ htx
    exact hfree v ⟨x, hx, htx⟩
  · intro k v _ htx
    rw [hnone] at htx
    simp at htx

theorem overwrite (h : Content n slots a) {i : Nat} (hi : i < n) {key : UInt64} {old : V} (value : V)
    (hold : slots i = some (key, old)) :
    Content n (Function.update slots i (some (key, value))) (a.insert key value) := by
  refine h.update hi key value (h.packed.replace value hold) ?_ ?_
  · intro x v hx hxi htx
    exact hxi (h.packed.unique x i key v old hx hi htx hold)
  · intro k v hk htx
    rw [hold] at htx
    simp only [Option.some.injEq, Prod.mk.injEq] at htx
    exact hk htx.1.symm

end Content

theorem insertExisting_spec {k : Nat} {st : Table UInt64 V} {a : Spec V} (h : Content (2 ^ k) st a)
    (hcard : a.keys.card < 2 ^ k) (key : UInt64) (value : V) (habsent : a.lookup key = none) :
    ∃ st', insertExisting (2 ^ k) st key value = some st' ∧ Content (2 ^ k) st' (a.insert key value) := by
  obtain ⟨e, he, hempty⟩ := h.exists_empty hcard
  obtain ⟨i, hp, hi, hnone, hpast⟩ := probe_free (2 ^ k) st (index (2 ^ k) key) e (index_lt k key) he hempty
  refine ⟨Function.update st i (some (key, value)), ?_, h.store hi key value hnone habsent hpast⟩
  rw [insertExisting, maskNext_eq, hp, Option.map_some]

/-- The part of the old table that the rehash has copied after `i` slots. -/
theorem rehash_prefix {n k : Nat} {slots : Table UInt64 V} {a : Spec V} (h : Content n slots a)
    (hcard : a.keys.card < 2 ^ k) (i : Nat) (hi : i ≤ n) :
    ∃ st b, (List.range i).foldlM (rehash (2 ^ k) slots) (fun _ => none) = some st ∧
      Content (2 ^ k) st b ∧ b.keys ⊆ a.keys ∧
      ∀ key v, b.lookup key = some v ↔ ∃ x < i, slots x = some (key, v) := by
  induction i with
  | zero => exact ⟨fun _ => none, ∅, rfl, Content.empty _, by simp, by simp⟩
  | succ i ih =>
      obtain ⟨st, b, hst, hb, hsub, hlook⟩ := ih (by omega)
      rw [List.range_succ, List.foldlM_append, hst]
      cases hslot : slots i with
      | none =>
          refine ⟨st, b, by simp [rehash, hslot], hb, hsub, ?_⟩
          intro key v
          rw [hlook]
          constructor
          · rintro ⟨x, hx, htx⟩
            exact ⟨x, by omega, htx⟩
          · rintro ⟨x, hx, htx⟩
            have hxi : x ≠ i := by
              rintro rfl
              rw [hslot] at htx
              simp at htx
            exact ⟨x, by omega, htx⟩
      | some entry =>
          obtain ⟨key, value⟩ := entry
          have habsent : b.lookup key = none := by
            by_contra hsome
            obtain ⟨v, hv⟩ := Option.ne_none_iff_exists'.mp hsome
            obtain ⟨x, hx, htx⟩ := (hlook key v).mp hv
            have := h.packed.unique x i key v value (by omega) (by omega) htx hslot
            omega
          have hsmall : b.keys.card < 2 ^ k := lt_of_le_of_lt (Finset.card_le_card hsub) hcard
          obtain ⟨st', hst', hb'⟩ := insertExisting_spec hb hsmall key value habsent
          refine ⟨st', b.insert key value, by simp [rehash, hslot, hst'], hb', ?_, ?_⟩
          · rw [keys_insert]
            apply Finset.insert_subset _ hsub
            exact h.mem_keys key value ⟨i, by omega, hslot⟩
          · intro key' v
            by_cases hk : key' = key
            · subst hk
              rw [Finmap.lookup_insert]
              constructor
              · intro hv
                exact ⟨i, by omega, by rw [hslot]; simpa using hv⟩
              · rintro ⟨x, hx, htx⟩
                have := h.packed.unique x i key' v value (by omega) (by omega) htx hslot
                subst this
                rw [hslot] at htx
                simpa using htx
            · rw [Finmap.lookup_insert_of_ne b hk, hlook]
              constructor
              · rintro ⟨x, hx, htx⟩
                exact ⟨x, by omega, htx⟩
              · rintro ⟨x, hx, htx⟩
                have hxi : x ≠ i := by
                  rintro rfl
                  rw [hslot] at htx
                  simp only [Option.some.injEq, Prod.mk.injEq] at htx
                  exact hk htx.1.symm
                exact ⟨x, by omega, htx⟩

/-- Growing copies every entry into the larger table. -/
theorem rehash_spec {n k : Nat} {slots : Table UInt64 V} {a : Spec V} (h : Content n slots a)
    (hcard : a.keys.card < 2 ^ k) :
    ∃ st, (List.range n).foldlM (rehash (2 ^ k) slots) (fun _ => none) = some st ∧ Content (2 ^ k) st a := by
  obtain ⟨st, b, hst, hb, _, hlook⟩ := rehash_prefix h hcard n le_rfl
  have hab : b = a := by
    apply Finmap.ext_lookup
    intro key
    ext v
    rw [hlook, ← h.holds]
    rfl
  exact ⟨st, hst, hab ▸ hb⟩

theorem nextCapacity_zero : nextCapacity 0 1 = some 16 := by
  decide

theorem nextCapacity_double {c : Nat} (hc : 16 ≤ c) (hsmall : c ≤ sizeMax / 2) :
    nextCapacity c (c + 1) = some (c * 2) := by
  rw [nextCapacity, if_neg (by omega)]
  have hmax : max (if c ≠ 0 then c * 2 else minCapacity) minCapacity = c * 2 := by
    rw [if_pos (by omega), minCapacity]
    omega
  rw [hmax]
  exact Loop.run_exit (by rw [if_neg (by omega)]) 63

namespace Represents

variable {map : HashMap V} {a : Spec V}

theorem card_lt (h : Represents map a) (hc : map.capacity ≠ 0) : a.keys.card < map.capacity := by
  rw [← h.count]
  exact lt_of_le_of_lt h.load (maxCount_lt (by omega))

/-- An initialised table always keeps an empty slot, so every probe ends. -/
theorem exists_empty (h : Represents map a) (hc : map.capacity ≠ 0) :
    ∃ e < map.capacity, map.slots e = none :=
  (h.content hc).exists_empty (h.card_lt hc)

theorem init : Represents (hashmapInit : HashMap V) ∅ :=
  ⟨by simp [hashmapInit], fun _ => rfl, .inl rfl, fun h => absurd rfl h, by simp [hashmapInit]⟩

/-- A table with the entries of `a` and room for them represents `a`. -/
theorem of_content {k : Nat} (hk : 4 ≤ k) {slots : Table UInt64 V} {count : Nat}
    (hcontent : Content (2 ^ k) slots a) (hcount : count = a.keys.card) (hload : count ≤ maxCount (2 ^ k)) :
    Represents ⟨slots, count, 2 ^ k⟩ a :=
  ⟨hcount, fun h => absurd h (by simp), .inr ⟨k, hk, rfl⟩, fun _ => hcontent, hload⟩

theorem probe_cases (h : Represents map a) (hc : map.capacity ≠ 0) (key : UInt64) :
    ∃ i, probe map.capacity (maskNext map.capacity) (· == key) map.slots (index map.capacity key) = some i ∧
      i < map.capacity ∧
      ((∃ v, map.slots i = some (key, v) ∧ a.lookup key = some v) ∨
        (map.slots i = none ∧ a.lookup key = none ∧ ∀ y < map.capacity,
          gap map.capacity (index map.capacity key) y < gap map.capacity (index map.capacity key) i →
            Occupied map.slots y)) := by
  have hcontent := h.content hc
  have hcard := h.card_lt hc
  obtain hzero | ⟨k, _, hk⟩ := h.shape
  · exact absurd hzero hc
  · rw [hk] at hcontent hcard ⊢
    exact hcontent.probe_cases hcard key

theorem putRoom_spec (h : Represents map a) (hc : map.capacity ≠ 0)
    (hroom : map.count + 1 ≤ maxCount map.capacity) (key : UInt64) (value : V) :
    ∃ map', putRoom map key value = some (map', true) ∧ Represents map' (a.insert key value) := by
  obtain ⟨i, hp, hi, hcase⟩ := h.probe_cases hc key
  have hcontent := h.content hc
  rcases hcase with ⟨v, hv, hlook⟩ | ⟨hnone, hlook, hpath⟩
  · refine ⟨⟨Function.update map.slots i (some (key, value)), map.count, map.capacity⟩,
      by rw [putRoom, hp]; simp only [Option.map_some, hv], ?_⟩
    have hmem : key ∈ a.keys := hcontent.mem_keys key v ⟨i, hi, hv⟩
    refine ⟨?_, fun hz => absurd hz hc, h.shape, fun _ => hcontent.overwrite hi value hv, h.load⟩
    rw [keys_insert, Finset.insert_eq_of_mem hmem]
    exact h.count
  · refine ⟨⟨Function.update map.slots i (some (key, value)), map.count + 1, map.capacity⟩,
      by rw [putRoom, hp]; simp only [Option.map_some, hnone], ?_⟩
    have hmem : key ∉ a.keys := by
      rw [Finmap.mem_keys]
      exact Finmap.lookup_eq_none.mp hlook
    refine ⟨?_, fun hz => absurd hz hc, h.shape, fun _ => hcontent.store hi key value hnone hlook hpath, hroom⟩
    rw [keys_insert, Finset.card_insert_of_notMem hmem]
    exact congrArg (· + 1) h.count

/-- Growing either changes nothing and reports failure, or doubles the table
and leaves room for one more key. -/
theorem grow_spec (h : Represents map a) (allocOk : Bool) (hneeds : hashmapNeedsGrow map = true) :
    (hashmapGrow allocOk map (map.capacity + 1) = some (map, false) ∧
        (allocOk = false ∨ 2 ^ 62 ≤ a.keys.card)) ∨
      ∃ map', hashmapGrow allocOk map (map.capacity + 1) = some (map', true) ∧ Represents map' a ∧
        map'.capacity ≠ 0 ∧ map'.count + 1 ≤ maxCount map'.capacity := by
  obtain hzero | ⟨k, hk, hcap⟩ := h.shape
  · -- the first insertion: no entries to copy
    have ha := h.fresh hzero
    subst ha
    have hcount : map.count = 0 := by simpa using h.count
    cases allocOk with
    | false => exact .inl ⟨by simp [hashmapGrow, hzero, nextCapacity_zero], .inl rfl⟩
    | true =>
        right
        refine ⟨⟨fun _ => none, map.count, 16⟩, by simp [hashmapGrow, hzero, nextCapacity_zero], ?_, by simp, ?_⟩
        · exact of_content (k := 4) le_rfl (Content.empty _) h.count (by rw [hcount]; exact Nat.zero_le _)
        · simp only [hcount]
          decide
  · have h16 := two_pow_ge hk
    rw [← hcap] at h16
    by_cases hsmall : map.capacity ≤ sizeMax / 2
    · have hnext := nextCapacity_double h16 hsmall
      cases allocOk with
      | false =>
          refine .inl ⟨?_, .inl rfl⟩
          simp only [hashmapGrow, hnext, Option.bind_some]
          rw [if_neg (by omega)]
          rfl
      | true =>
          right
          have hcontent := h.content (by omega)
          have hdouble : map.capacity * 2 = 2 ^ (k + 1) := by rw [hcap, Nat.pow_succ]
          have hcard : a.keys.card < 2 ^ (k + 1) := by
            have := h.card_lt (by omega)
            omega
          obtain ⟨st, hst, hst'⟩ := rehash_spec hcontent hcard
          have hload := h.load
          have hmore := maxCount_double h16
          refine ⟨⟨st, map.count, 2 ^ (k + 1)⟩, ?_, of_content (by omega) hst' h.count ?_, by simp, ?_⟩
          · simp only [hashmapGrow, hnext, Option.bind_some]
            rw [if_neg (by omega), hdouble, hst]
            rfl
          · rw [← hdouble]
            omega
          · simp only
            rw [← hdouble]
            omega
    · left
      refine ⟨?_, .inr ?_⟩
      · have hzero : nextCapacity map.capacity (map.capacity + 1) = some 0 := by
          rw [nextCapacity, if_pos (by omega)]
        simp [hashmapGrow, hzero]
      · have hcount := h.count
        simp only [hashmapNeedsGrow, Bool.or_eq_true, decide_eq_true_eq] at hneeds
        simp only [sizeMax] at hsmall hneeds
        simp only [maxCount, maxLoadDenominator, maxLoadNumerator] at hneeds
        omega

theorem put_spec (h : Represents map a) (allocOk : Bool) (key : UInt64) (value : V) :
    ∃ map' ok, hashmapPut allocOk map key value = some (map', ok) ∧
      ((ok = true ∧ Represents map' (a.insert key value)) ∨
        (ok = false ∧ Represents map' a ∧ (allocOk = false ∨ 2 ^ 62 ≤ a.keys.card))) := by
  by_cases hneeds : hashmapNeedsGrow map = true
  · have hmax : map.capacity ≠ sizeMax := by
      obtain hzero | ⟨k, hk, hcap⟩ := h.shape
      · rw [hzero, sizeMax]
        omega
      · intro heq
        obtain ⟨j, rfl⟩ : ∃ j, k = j + 1 := ⟨k - 1, by omega⟩
        rw [hcap, sizeMax, Nat.pow_succ] at heq
        omega
    rcases h.grow_spec allocOk hneeds with ⟨hg, hwhy⟩ | ⟨map', hg, hrep, hc, hroom⟩
    · exact ⟨map, false, by simp [hashmapPut, hneeds, hmax, hg], .inr ⟨rfl, h, hwhy⟩⟩
    · obtain ⟨map'', hput, hrep'⟩ := hrep.putRoom_spec hc hroom key value
      exact ⟨map'', true, by simp [hashmapPut, hneeds, hmax, hg, hput], .inl ⟨rfl, hrep'⟩⟩
  · have hroom : map.capacity ≠ 0 ∧ map.count + 1 ≤ maxCount map.capacity := by
      simp only [hashmapNeedsGrow, Bool.or_eq_true, decide_eq_true_eq] at hneeds
      omega
    obtain ⟨map', hput, hrep⟩ := h.putRoom_spec hroom.1 hroom.2 key value
    exact ⟨map', true, by simp [hashmapPut, hneeds, hput], .inl ⟨rfl, hrep⟩⟩

theorem get_spec (h : Represents map a) (null : V) (key : UInt64) :
    hashmapGet null map key = some ((a.lookup key).getD null) := by
  by_cases hc : map.capacity = 0
  · rw [h.fresh hc]
    simp [hashmapGet, hc]
  · obtain ⟨i, hp, _, ⟨v, hv, hlook⟩ | ⟨hnone, hlook, _⟩⟩ := h.probe_cases hc key
    · simp [hashmapGet, hc, hp, hv, hlook]
    · simp [hashmapGet, hc, hp, hnone, hlook]

theorem contains_spec (h : Represents map a) (key : UInt64) :
    hashmapContains map key = some (decide (key ∈ a)) := by
  by_cases hc : map.capacity = 0
  · rw [h.fresh hc]
    simp [hashmapContains, hc, Finmap.notMem_empty]
  · obtain ⟨i, hp, _, ⟨v, hv, hlook⟩ | ⟨hnone, hlook, _⟩⟩ := h.probe_cases hc key
    · simp [hashmapContains, hc, hp, hv, Finmap.mem_of_lookup_eq_some hlook]
    · simp [hashmapContains, hc, hp, hnone, Finmap.lookup_eq_none.mp hlook]

theorem clear_spec (h : Represents map a) : Represents (hashmapClear map) ∅ := by
  by_cases hc : map.capacity = 0
  · rw [hashmapClear, if_pos hc, ← h.fresh hc]
    exact h
  · rw [hashmapClear, if_neg hc]
    exact ⟨by simp, fun hz => absurd hz hc, h.shape, fun _ => Content.empty _, Nat.zero_le _⟩

theorem remove_spec (h : Represents map a) (key : UInt64) :
    ∃ map', hashmapRemove map key = some (map', decide (key ∈ a)) ∧ Represents map' (a.erase key) := by
  by_cases hc : map.capacity = 0
  · have ha := h.fresh hc
    subst ha
    refine ⟨map, by simp [hashmapRemove, hc, Finmap.notMem_empty], ?_⟩
    have herase : (∅ : Spec V).erase key = ∅ := Finmap.ext_lookup fun k => by
      by_cases hk : k = key
      · rw [hk, Finmap.lookup_erase, Finmap.lookup_empty]
      · rw [Finmap.lookup_erase_ne hk]
    rw [herase]
    exact h
  · obtain ⟨i, hp, hi, ⟨v, hv, hlook⟩ | ⟨hnone, hlook, _⟩⟩ := h.probe_cases hc key
    · have hmem := Finmap.mem_of_lookup_eq_some hlook
      have hcontent := h.content hc
      obtain ⟨e, he, hempty⟩ := h.exists_empty hc
      obtain hzero | ⟨k, hk, hcap⟩ := h.shape
      · exact absurd hzero hc
      · have hhome (key : UInt64) : index map.capacity key < map.capacity := by
          rw [hcap]
          exact index_lt k key
        obtain ⟨slots, hs, hpacked, hholds⟩ := hcontent.packed.shift_spec hhome hi hv he hempty
        have hmask : maskNext map.capacity = next map.capacity := by rw [hcap, maskNext_eq]
        refine ⟨⟨slots, map.count - 1, map.capacity⟩, ?_, ?_, fun hz => absurd hz hc, h.shape, fun _ => ⟨hpacked, ?_⟩,
          ?_⟩
        · rw [hmask] at hp
          simp [hashmapRemove, hc, hp, hv, hmem, hs, hmask]
        · rw [Finmap.keys_erase, Finset.card_erase_of_mem (Finmap.mem_keys.mpr hmem)]
          exact congrArg (· - 1) h.count
        · intro k' v'
          rw [hholds, hcontent.holds]
          by_cases hk' : k' = key
          · subst hk'
            simp
          · simp [hk']
        · have := h.load
          simp only
          omega
    · have hmem := Finmap.lookup_eq_none.mp hlook
      refine ⟨map, by simp [hashmapRemove, hc, hp, hnone, hmem], ?_⟩
      have herase : a.erase key = a := Finmap.ext_lookup fun k => by
        by_cases hk : k = key
        · rw [hk, Finmap.lookup_erase, hlook]
        · rw [Finmap.lookup_erase_ne hk]
      rw [herase]
      exact h

theorem step_spec (h : Represents map a) (null : V) (op : Op V) :
    ∃ map' answer b, step null map op = some (map', answer) ∧ SpecStep null a op answer b ∧ Represents map' b := by
  cases op with
  | put key value allocOk =>
      obtain ⟨map', ok, hput, ⟨rfl, hrep⟩ | ⟨rfl, hrep, hwhy⟩⟩ := h.put_spec allocOk key value
      · exact ⟨map', _, _, by simp [step, hput], .put a key value allocOk, hrep⟩
      · exact ⟨map', _, _, by simp [step, hput], .refused a key value allocOk hwhy, hrep⟩
  | get key => exact ⟨map, _, _, by simp [step, h.get_spec], .get a key, h⟩
  | contains key => exact ⟨map, _, _, by simp [step, h.contains_spec], .contains a key, h⟩
  | remove key =>
      obtain ⟨map', hremove, hrep⟩ := h.remove_spec key
      exact ⟨map', _, _, by simp [step, hremove], .remove a key, hrep⟩
  | clear => exact ⟨hashmapClear map, _, _, rfl, .clear a, h.clear_spec⟩

theorem run_spec (h : Represents map a) (null : V) (ops : List (Op V)) :
    ∃ map' answers b, run null map ops = some (map', answers) ∧ SpecRun null a ops answers b ∧ Represents map' b := by
  induction ops generalizing map a with
  | nil => exact ⟨map, [], a, rfl, .nil a, h⟩
  | cons op ops ih =>
      obtain ⟨map', answer, b, hstep, hspec, hrep⟩ := h.step_spec null op
      obtain ⟨map'', answers, c, hrun, hspecs, hrep'⟩ := ih hrep
      exact ⟨map'', answer :: answers, c, by simp [run, hstep, hrun], .cons hspec hspecs, hrep'⟩

end Represents

/-- Every sequence of operations on an initialised map runs to the end with
the answers of the finite map built by the same operations; the count is the
number of its keys, and a table that exists has an empty slot. -/
theorem hashmap_refines (null : V) (ops : List (Op V)) :
    ∃ map answers a, run null hashmapInit ops = some (map, answers) ∧ SpecRun null ∅ ops answers a ∧
      map.count = a.keys.card ∧ (map.capacity = 0 ∨ ∃ e < map.capacity, map.slots e = none) := by
  obtain ⟨map, answers, a, hrun, hspec, hrep⟩ := Represents.init.run_spec null ops
  refine ⟨map, answers, a, hrun, hspec, hrep.count, ?_⟩
  by_cases hc : map.capacity = 0
  · exact .inl hc
  · exact .inr (hrep.exists_empty hc)

end Ore.HashMapRefinement
