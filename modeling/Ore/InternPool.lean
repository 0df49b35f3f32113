import Ore.HashMapRefinement
import Ore.InternKeys

namespace Ore.InternPool

open Probing InternKeys
open HashMapModel (maskNext)
open HashMapRefinement (maskNext_eq two_pow_ge)

structure Item where
  tag : Tag
  data : UInt32
  deriving DecidableEq, Repr

/-- The arena is its words in order of allocation. A bucket is empty or holds a
word: the high half of the hash over the index plus one. -/
structure Pool where
  items : List Item
  arena : List UInt32
  buckets : Table UInt64 Unit
  bucketCount : Nat
  bucketUsed : Nat

def ipKey (p : Pool) (i : IpIndex) : Option Key :=
  match p.items[i.toNat]? with
  | none => some errorKey
  | some item => decodeItem i item.tag item.data p.arena

def isRemoved (p : Pool) (i : IpIndex) : Bool := p.items[i.toNat]?.map (·.tag) = some .removed

def bucketWord (h : UInt64) (i : IpIndex) : UInt64 := joinWords (i + 1) (hiWord h)
def bucketIndex (w : UInt64) : IpIndex := loWord w - 1
def bucketHome (count : Nat) (h : UInt64) : Nat := h.toNat &&& (count - 1)
def bucketOf (w : UInt64) : Option (UInt64 × Unit) := if w = 0 then none else some (w, ())

/-- Store an index in the first empty bucket on its way. -/
def putBucket (count : Nat) (t : Table UInt64 Unit) (h : UInt64) (i : IpIndex) : Option (Table UInt64 Unit) :=
  (probe count (maskNext count) (fun _ => false) t (bucketHome count h)).map
    fun b => Function.update t b (bucketOf (bucketWord h i))

/-- One bucket of the old table; tombstones are left behind. -/
def regrow (p : Pool) (count : Nat) (st : Table UInt64 Unit × Nat) (b : Nat) : Option (Table UInt64 Unit × Nat) :=
  match p.buckets b with
  | none => some st
  | some (w, _) =>
      if isRemoved p (bucketIndex w) then some st
      else (ipKey p (bucketIndex w)).bind fun k =>
        (putBucket count st.1 (hashKey k) (bucketIndex w)).map fun t => (t, st.2 + 1)

def bucketsGrow (p : Pool) : Option Pool :=
  ((List.range p.bucketCount).foldlM (regrow p (p.bucketCount * 2)) (fun _ => none, 0)).map
    fun st => { p with buckets := st.1, bucketCount := p.bucketCount * 2, bucketUsed := st.2 }

/-- The load stays below three quarters. -/
def growIfFull (p : Pool) : Option Pool :=
  if (p.bucketUsed + 1) * 4 > p.bucketCount * 3 then bucketsGrow p else some p

/-- Where the probe for a key stops: at an equal key, or at a payload that fails
its assertion. -/
def stopsAt (p : Pool) (key : Key) (w : UInt64) : Bool :=
  hiWord w = hiWord (hashKey key) && !isRemoved p (bucketIndex w) && (ipKey p (bucketIndex w)).all (keyEql · key)

def encodeItemsData (p : Pool) (key : Key) : Pool × UInt32 :=
  match encodePayload key with
  | none => (p, encodeInline key)
  | some words => ({ p with arena := p.arena ++ words }, UInt32.ofNat (4 * p.arena.length))

def appendItem (p : Pool) (key : Key) (b : Nat) : Pool × IpIndex :=
  let (p, data) := encodeItemsData p key
  let i := UInt32.ofNat p.items.length
  ({ p with
      items := p.items ++ [⟨tagForKey key, data⟩]
      buckets := Function.update p.buckets b (bucketOf (bucketWord (hashKey key) i))
      bucketUsed := p.bucketUsed + 1 }, i)

def ipGetCompound (p : Pool) (key : Key) : Option (Pool × IpIndex) :=
  (growIfFull p).bind fun p =>
    (probe p.bucketCount (maskNext p.bucketCount) (stopsAt p key) p.buckets
      (bucketHome p.bucketCount (hashKey key))).bind fun b =>
      match p.buckets b with
      | some (w, _) => (ipKey p (bucketIndex w)).map fun _ => (p, bucketIndex w)
      | none => some (appendItem p key b)

def ipGet (p : Pool) (key : Key) : Option (Pool × IpIndex) :=
  match key with
  | .primitiveType v => some (p, v.index)
  | .reservedValue v => some (p, v.index)
  | _ => ipGetCompound p key

def ipRemove (p : Pool) (i : IpIndex) : Pool :=
  { p with items := p.items.modify i.toNat fun item => { item with tag := .removed } }

/-- The keys at the reserved indices. The sentinel at index zero reads as the
error type. -/
def reservedKeys : List Key :=
  [errorKey,
    .primitiveType .bool, .primitiveType .u8, .primitiveType .i8, .primitiveType .u16, .primitiveType .i16,
    .primitiveType .u32, .primitiveType .i32, .primitiveType .u64, .primitiveType .i64, .primitiveType .f32,
    .primitiveType .f64, .primitiveType .usize, .primitiveType .isize, .primitiveType .void, .primitiveType .type,
    .primitiveType .anytype, .primitiveType .comptimeInt, .primitiveType .comptimeFloat, .primitiveType .nil,
    .primitiveType .error, .primitiveType .noreturn,
    .reservedValue .boolTrue, .reservedValue .boolFalse, .reservedValue .voidValue, .reservedValue .undefValue,
    .reservedValue .zeroUsize, .reservedValue .oneUsize,
    .ptrType Primitive.u8.index true, .ptrType Primitive.void.index false, .ptrType Primitive.void.index true,
    .sliceType Primitive.u8.index true, .effectRow [] ipEmptyEffectRow]

def populateReserved : List Item :=
  [⟨.none, 0⟩] ++ List.replicate 21 ⟨.primitiveType, 0⟩ ++ List.replicate 6 ⟨.reservedValue, 0⟩ ++
    [⟨.ptrConstType, Primitive.u8.index⟩, ⟨.ptrType, Primitive.void.index⟩, ⟨.ptrConstType, Primitive.void.index⟩,
      ⟨.sliceConstType, Primitive.u8.index⟩, ⟨.effectRow, 0⟩]

def registerBucket (p : Pool) (i : IpIndex) : Option Pool :=
  (ipKey p i).bind fun k => (growIfFull p).bind fun p =>
    (putBucket p.bucketCount p.buckets (hashKey k) i).map
      fun t => { p with buckets := t, bucketUsed := p.bucketUsed + 1 }

def reservedPool (initialBuckets : Nat) : Pool :=
  ⟨populateReserved, [0, ipEmptyEffectRow], fun _ => none, initialBuckets, 0⟩

/-- A fresh pool; the reserved compounds are found through the buckets. -/
def ipInitWith (initialBuckets : Nat) : Option Pool :=
  [28, 29, 30, 31, 32].foldlM registerBucket (reservedPool initialBuckets)

inductive Op
  | get (key : Key)
  | remove (i : IpIndex)
  deriving DecidableEq

def step (p : Pool) : Op → Option Pool
  | .get key => (ipGet p key).map (·.1)
  | .remove i => some (ipRemove p i)

def run (ops : List Op) (p : Pool) : Option Pool := ops.foldlM step p

/-- The word of the bucket of an index that was given out for `orig i`. -/
def entryWord (orig : Nat → Key) (i : Nat) : UInt64 := bucketWord (hashKey (orig i)) (UInt32.ofNat i)

def homeOf (orig : Nat → Key) (n : Nat) (w : UInt64) : Nat := bucketHome n (hashKey (orig (bucketIndex w).toNat))

/-- The buckets hold the entries of the indices in `indexed`. -/
structure Indexed (n : Nat) (t : Table UInt64 Unit) (orig : Nat → Key) (indexed : Finset Nat) : Prop where
  packed : Packed (homeOf orig n) n t
  small : ∀ i ∈ indexed, i + 1 < 2 ^ 32
  holds : ∀ w, Holds n t w () ↔ ∃ i ∈ indexed, w = entryWord orig i

def Live (p : Pool) (i : Nat) : Prop := ∃ item, p.items[i]? = some item ∧ item.tag ≠ .removed

/-- What the items say: an index that was given out for `orig i` and not removed
decodes to it, and no two compounds have the same normal form. -/
structure Decoded (p : Pool) (orig : Nat → Key) : Prop where
  length : ipReservedCount ≤ p.items.length
  small : p.items.length < 2 ^ 32
  decoded : ∀ i, Live p i → ipKey p (UInt32.ofNat i) = some (orig i)
  reserved : ∀ i, 1 ≤ i → i < ipReservedCount → Live p i ∧ reservedKeys[i]? = some (orig i)
  normal : ∀ i < p.items.length, (orig i).normal = orig i
  compound : ∀ i, 28 ≤ i → i < p.items.length → isReservedKind (orig i) = false
  distinct : ∀ i j, 28 ≤ i → 28 ≤ j → Live p i → Live p j → orig i = orig j → i = j

/-- What the buckets say. -/
structure Bucketed (p : Pool) (orig : Nat → Key) (indexed : Finset Nat) : Prop where
  shape : ∃ k, 4 ≤ k ∧ p.bucketCount = 2 ^ k
  table : Indexed p.bucketCount p.buckets orig indexed
  count : indexed.card = p.bucketUsed
  range : ∀ i ∈ indexed, 28 ≤ i ∧ i < p.items.length
  load : p.bucketUsed * 4 ≤ p.bucketCount * 3

/-- The invariant of the pool between two calls: every compound that was not
removed is found through the buckets. -/
structure Interned (p : Pool) (orig : Nat → Key) (indexed : Finset Nat) : Prop extends
    Decoded p orig, Bucketed p orig indexed where
  found : ∀ i, 28 ≤ i → Live p i → i ∈ indexed

variable {p p' : Pool} {orig orig' : Nat → Key} {indexed : Finset Nat} {n k i j : Nat} {t : Table UInt64 Unit}
    {key : Key}

theorem bucketIndex_word (h : UInt64) (i : IpIndex) : bucketIndex (bucketWord h i) = i := by
  simp [bucketIndex, bucketWord]

theorem bucketWord_ne_zero {h : UInt64} (hi : i + 1 < 2 ^ 32) : bucketWord h (UInt32.ofNat i) ≠ 0 := by
  intro hzero
  have hlo := congrArg loWord hzero
  rw [bucketWord, loWord_join] at hlo
  have hnat : (UInt32.ofNat i + 1).toNat = i + 1 := by
    rw [UInt32.toNat_add, ofNat_toNat (by omega)]
    exact Nat.mod_eq_of_lt hi
  rw [hlo] at hnat
  simp [loWord] at hnat

theorem bucketOf_word {h : UInt64} (hi : i + 1 < 2 ^ 32) :
    bucketOf (bucketWord h (UInt32.ofNat i)) = some (bucketWord h (UInt32.ofNat i), ()) :=
  if_neg (bucketWord_ne_zero hi)

theorem homeOf_entry (hi : i + 1 < 2 ^ 32) : homeOf orig n (entryWord orig i) = bucketHome n (hashKey (orig i)) := by
  rw [homeOf, entryWord, bucketIndex_word, ofNat_toNat (by omega)]

theorem entryWord_inj (hi : i + 1 < 2 ^ 32) (hj : j + 1 < 2 ^ 32) (h : entryWord orig i = entryWord orig j) :
    i = j := by
  have hidx := congrArg bucketIndex h
  rw [entryWord, entryWord, bucketIndex_word, bucketIndex_word] at hidx
  have := congrArg UInt32.toNat hidx
  rwa [ofNat_toNat (by omega), ofNat_toNat (by omega)] at this

theorem bucketHome_lt (h : UInt64) : bucketHome (2 ^ k) h < 2 ^ k := by
  rw [bucketHome, Nat.and_two_pow_sub_one_eq_mod]
  exact Nat.mod_lt _ (Nat.two_pow_pos k)

namespace Indexed

theorem congr (h : Indexed n t orig indexed) (heq : ∀ i ∈ indexed, orig' i = orig i) : Indexed n t orig' indexed := by
  have hword : ∀ i ∈ indexed, entryWord orig' i = entryWord orig i := by
    intro i hi
    rw [entryWord, entryWord, heq i hi]
  refine ⟨h.packed.congr ?_, h.small, ?_⟩
  · intro x w v hx htx
    obtain ⟨i, hi, rfl⟩ := (h.holds w).mp ⟨x, hx, htx⟩
    rw [homeOf_entry (h.small i hi), ← hword i hi, homeOf_entry (h.small i hi), heq i hi]
  · intro w
    rw [h.holds w]
    constructor
    · rintro ⟨i, hi, rfl⟩
      exact ⟨i, hi, (hword i hi).symm⟩
    · rintro ⟨i, hi, rfl⟩
      exact ⟨i, hi, hword i hi⟩

theorem empty (n : Nat) (orig : Nat → Key) : Indexed n (fun _ => none) orig ∅ :=
  ⟨packed_empty _ _, by simp, by simp [Holds]⟩

theorem exists_empty (h : Indexed n t orig indexed) (hcard : indexed.card < n) : ∃ e < n, t e = none := by
  refine h.packed.exists_empty (indexed.image (entryWord orig)) ?_ (lt_of_le_of_lt Finset.card_image_le hcard)
  intro w v hw
  obtain ⟨i, hi, rfl⟩ := (h.holds w).mp hw
  exact Finset.mem_image_of_mem _ hi

theorem store (h : Indexed n t orig indexed) (hi : i ∉ indexed) (hsmall : i + 1 < 2 ^ 32) {b : Nat} (hb : b < n)
    (hnone : t b = none)
    (hpath : ∀ y < n, gap n (bucketHome n (hashKey (orig i))) y < gap n (bucketHome n (hashKey (orig i))) b →
      Occupied t y) :
    Indexed n (Function.update t b (bucketOf (entryWord orig i))) orig (insert i indexed) := by
  have hfree : ∀ x v, x < n → t x ≠ some (entryWord orig i, v) := by
    intro x v hx htx
    obtain ⟨j, hj, heq⟩ := (h.holds _).mp ⟨x, hx, htx⟩
    exact hi (entryWord_inj hsmall (h.small j hj) heq ▸ hj)
  rw [entryWord, bucketOf_word hsmall, ← entryWord]
  refine ⟨h.packed.store _ () b hnone ?_ ?_, ?_, ?_⟩
  · rintro v ⟨x, hx, htx⟩
    exact hfree x v hx htx
  · rwa [homeOf_entry hsmall]
  · intro j hj
    rcases Finset.mem_insert.mp hj with rfl | hj
    · exact hsmall
    · exact h.small j hj
  · intro w
    rw [holds_update_iff hb _ _ fun x v hx _ => hfree x v hx]
    by_cases hw : w = entryWord orig i
    · simp [hw]
    · rw [if_neg hw]
      constructor
      · rintro ⟨x, hx, -, htx⟩
        obtain ⟨j, hj, heq⟩ := (h.holds w).mp ⟨x, hx, htx⟩
        exact ⟨j, Finset.mem_insert_of_mem hj, heq⟩
      · rintro ⟨j, hj, rfl⟩
        have hj := Finset.mem_of_mem_insert_of_ne hj fun hji => hw (hji ▸ rfl)
        obtain ⟨x, hx, htx⟩ := (h.holds _).mpr ⟨j, hj, rfl⟩
        refine ⟨x, hx, ?_, htx⟩
        rintro rfl
        rw [hnone] at htx
        simp at htx

theorem putBucket_spec (h : Indexed (2 ^ k) t orig indexed) (hcard : indexed.card < 2 ^ k) (hi : i ∉ indexed)
    (hsmall : i + 1 < 2 ^ 32) :
    ∃ t', putBucket (2 ^ k) t (hashKey (orig i)) (UInt32.ofNat i) = some t' ∧
      Indexed (2 ^ k) t' orig (insert i indexed) := by
  obtain ⟨e, he, hempty⟩ := h.exists_empty hcard
  obtain ⟨b, hp, hb, hpast, hstop⟩ := probe_spec (2 ^ k) (fun _ => false) t _ e (bucketHome_lt (hashKey (orig i))) he
    hempty
  have hnone : t b = none := by
    rcases hstop with hnone | ⟨_, _, _, hfalse⟩
    · exact hnone
    · simp at hfalse
  refine ⟨_, ?_, h.store hi hsmall hb hnone ?_⟩
  · rw [putBucket, maskNext_eq, hp]
    rfl
  · intro y hy hlt
    obtain ⟨_, _, hy', _⟩ := hpast y hy hlt
    simp [Occupied, hy']

end Indexed

theorem Live.lt (h : Live p i) : i < p.items.length := by
  obtain ⟨item, hitem, -⟩ := h
  exact (List.getElem?_eq_some_iff.mp hitem).1

/-- The tombstone test of the source. -/
theorem isRemoved_iff (hi : i < p.items.length) (hsmall : i < 2 ^ 32) :
    isRemoved p (UInt32.ofNat i) = false ↔ Live p i := by
  obtain ⟨item, hitem⟩ : ∃ item, p.items[i]? = some item := ⟨_, List.getElem?_eq_getElem hi⟩
  simp [isRemoved, Live, ofNat_toNat hsmall, hitem]

theorem Bucketed.card_lt (h : Bucketed p orig indexed) : indexed.card < p.bucketCount := by
  obtain ⟨k, hk, hcount⟩ := h.shape
  have := two_pow_ge hk
  have := h.count
  have := h.load
  omega

section Growth

variable (hdec : Decoded p orig) (hb : Bucketed p orig indexed)

include hdec hb

/-- What growing has copied after `x` buckets. -/
theorem regrow_prefix (hk : p.bucketCount * 2 = 2 ^ k) (x : Nat) (hx : x ≤ p.bucketCount) :
    ∃ t copied, (List.range x).foldlM (regrow p (p.bucketCount * 2)) (fun _ => none, 0) = some (t, copied.card) ∧
      Indexed (2 ^ k) t orig copied ∧
      ∀ i, i ∈ copied ↔ i ∈ indexed ∧ Live p i ∧ ∃ y < x, p.buckets y = some (entryWord orig i, ()) := by
  induction x with
  | zero => exact ⟨fun _ => none, ∅, rfl, .empty _ orig, by simp⟩
  | succ x ih =>
      obtain ⟨t, copied, hfold, hind, hmem⟩ := ih (by omega)
      rw [List.range_succ, List.foldlM_append, hfold]
      have hkeep (hskip : ∀ i ∈ indexed, Live p i → p.buckets x ≠ some (entryWord orig i, ())) (i : Nat) :
          i ∈ copied ↔ i ∈ indexed ∧ Live p i ∧ ∃ y < x + 1, p.buckets y = some (entryWord orig i, ()) := by
        rw [hmem]
        constructor
        · rintro ⟨hi, hlive, y, hy, hty⟩
          exact ⟨hi, hlive, y, by omega, hty⟩
        · rintro ⟨hi, hlive, y, hy, hty⟩
          have hyx : y ≠ x := by
            rintro rfl
            exact hskip i hi hlive hty
          exact ⟨hi, hlive, y, by omega, hty⟩
      cases hslot : p.buckets x with
      | none =>
          refine ⟨t, copied, by simp [regrow, hslot], hind, hkeep ?_⟩
          simp [hslot]
      | some entry =>
          obtain ⟨w, ⟨⟩⟩ := entry
          obtain ⟨i, hi, rfl⟩ := (hb.table.holds w).mp ⟨x, by omega, hslot⟩
          have hsmall := hb.table.small i hi
          have hidx : bucketIndex (entryWord orig i) = UInt32.ofNat i := bucketIndex_word _ _
          by_cases hlive : Live p i
          · have hnew : i ∉ copied := by
              intro hin
              obtain ⟨-, -, y, hy, hty⟩ := (hmem i).mp hin
              have := hb.table.packed.unique y x _ _ _ (by omega) (by omega) hty hslot
              omega
            have hsub : copied ⊆ indexed := fun j hj => ((hmem j).mp hj).1
            have hcard : copied.card < 2 ^ k := by
              have := Finset.card_le_card hsub
              have := hb.card_lt
              omega
            obtain ⟨t', hput, hind'⟩ := hind.putBucket_spec hcard hnew hsmall
            have hlive' : isRemoved p (UInt32.ofNat i) = false :=
              (isRemoved_iff (hb.range i hi).2 (by omega)).mpr hlive
            refine ⟨t', insert i copied, ?_, hind', ?_⟩
            · simp [regrow, hslot, hidx, hlive', hdec.decoded i hlive, hk, hput, Finset.card_insert_of_notMem hnew]
            · intro j
              rw [Finset.mem_insert, hmem]
              constructor
              · rintro (rfl | ⟨hj, hjlive, y, hy, hty⟩)
                · exact ⟨hi, hlive, x, by omega, hslot⟩
                · exact ⟨hj, hjlive, y, by omega, hty⟩
              · rintro ⟨hj, hjlive, y, hy, hty⟩
                rcases Nat.lt_or_ge y x with hlt | hge
                · exact .inr ⟨hj, hjlive, y, hlt, hty⟩
                · obtain rfl : y = x := by omega
                  rw [hslot] at hty
                  simp only [Option.some.injEq, Prod.mk.injEq, and_true] at hty
                  exact .inl (entryWord_inj (hb.table.small j hj) hsmall hty.symm)
          · have hdead : isRemoved p (UInt32.ofNat i) = true := by
              by_contra hremoved
              exact hlive ((isRemoved_iff (hb.range i hi).2 (by omega)).mp (by simpa using hremoved))
            refine ⟨t, copied, by simp [regrow, hslot, hidx, hdead], hind, hkeep ?_⟩
            intro j hj hjlive hslot'
            rw [hslot] at hslot'
            simp only [Option.some.injEq, Prod.mk.injEq, and_true] at hslot'
            rw [entryWord_inj hsmall (hb.table.small j hj) hslot'] at hlive
            exact hlive hjlive

/-- Growing drops the tombstones and leaves room for one more entry. -/
theorem growIfFull_spec :
    ∃ p' indexed', growIfFull p = some p' ∧ p'.items = p.items ∧ p'.arena = p.arena ∧ Bucketed p' orig indexed' ∧
      indexed' ⊆ indexed ∧ (∀ i ∈ indexed, Live p i → i ∈ indexed') ∧ (p'.bucketUsed + 1) * 4 ≤ p'.bucketCount * 3 := by
  unfold growIfFull
  split
  · obtain ⟨k, hk, hcount⟩ := hb.shape
    have hdouble : p.bucketCount * 2 = 2 ^ (k + 1) := by rw [hcount, Nat.pow_succ]
    obtain ⟨t, copied, hfold, hind, hmem⟩ := regrow_prefix hdec hb hdouble p.bucketCount (Nat.le_refl _)
    have hsub : copied ⊆ indexed := fun j hj => ((hmem j).mp hj).1
    have hcard := Finset.card_le_card hsub
    have hload := hb.load
    have hused := hb.count
    have hbig := two_pow_ge hk
    refine ⟨⟨p.items, p.arena, t, p.bucketCount * 2, copied.card⟩, copied, by rw [bucketsGrow, hfold]; rfl, rfl, rfl,
      ⟨⟨k + 1, by omega, hdouble⟩, ?_, rfl, ?_, ?_⟩, hsub, ?_, ?_⟩
    · show Indexed (p.bucketCount * 2) t orig copied
      rw [hdouble]
      exact hind
    · intro i hi
      exact hb.range i (hsub hi)
    · show copied.card * 4 ≤ p.bucketCount * 2 * 3
      omega
    · intro i hi hlive
      obtain ⟨y, hy, hty⟩ := (hb.table.holds _).mpr ⟨i, hi, rfl⟩
      exact (hmem i).mpr ⟨hi, hlive, y, hy, hty⟩
    · show (copied.card + 1) * 4 ≤ p.bucketCount * 2 * 3
      omega
  · exact ⟨p, indexed, rfl, rfl, rfl, hb, fun _ h => h, fun _ h _ => h, by omega⟩

end Growth

theorem ipKey_congr (hitems : p'.items = p.items) (harena : p'.arena = p.arena) (i : IpIndex) :
    ipKey p' i = ipKey p i := by
  rw [ipKey, ipKey, hitems, harena]

theorem ipKey_append {item : Item} {words : List UInt32} (hitems : p'.items = p.items ++ [item])
    (harena : p'.arena = p.arena ++ words) {i : IpIndex} (h : ipKey p i = some key) (hi : i.toNat < p.items.length) :
    ipKey p' i = some key := by
  rw [ipKey, hitems, List.getElem?_append_left hi, harena]
  rw [ipKey, List.getElem?_eq_getElem hi] at h
  rw [List.getElem?_eq_getElem hi]
  exact decodeItem_append h

theorem Decoded.congr (h : Decoded p orig) (hitems : p'.items = p.items) (harena : p'.arena = p.arena) :
    Decoded p' orig := by
  have hlive {i : Nat} : Live p' i ↔ Live p i := by rw [Live, Live, hitems]
  refine ⟨hitems ▸ h.length, hitems ▸ h.small, ?_, ?_, hitems ▸ h.normal, hitems ▸ h.compound, ?_⟩
  · intro i hi
    rw [ipKey_congr hitems harena]
    exact h.decoded i (hlive.mp hi)
  · intro i hpos hi
    obtain ⟨hi', hkey⟩ := h.reserved i hpos hi
    exact ⟨hlive.mpr hi', hkey⟩
  · intro i j hi hj hi' hj'
    exact h.distinct i j hi hj (hlive.mp hi') (hlive.mp hj')

theorem stopsAt_iff (hdec : Decoded p orig) (hi : i < p.items.length) :
    stopsAt p key (entryWord orig i) = true ↔ Live p i ∧ orig i = key.normal := by
  have hsmall : i < 2 ^ 32 := Nat.lt_trans hi hdec.small
  have hidx : bucketIndex (entryWord orig i) = UInt32.ofNat i := bucketIndex_word _ _
  have hhigh : hiWord (entryWord orig i) = hiWord (hashKey (orig i)) := hiWord_join _ _
  rw [stopsAt, hidx, hhigh]
  constructor
  · intro h
    simp only [Bool.and_eq_true, decide_eq_true_eq, Bool.not_eq_true'] at h
    obtain ⟨⟨-, hremoved⟩, heql⟩ := h
    have hlive := (isRemoved_iff hi hsmall).mp hremoved
    rw [hdec.decoded i hlive, Option.all_some, keyEql_iff, hdec.normal i hi] at heql
    exact ⟨hlive, heql⟩
  · rintro ⟨hlive, heq⟩
    simp [(isRemoved_iff hi hsmall).mpr hlive, hdec.decoded i hlive, keyEql_iff, heq]

/-- The probe for a key finds the index given out for its normal form, or ends at
an empty bucket when there is none. -/
theorem lookup_spec (h : Interned p orig indexed) (key : Key) :
    ∃ b, probe p.bucketCount (maskNext p.bucketCount) (stopsAt p key) p.buckets
        (bucketHome p.bucketCount (hashKey key)) = some b ∧ b < p.bucketCount ∧
      ((∃ i ∈ indexed, Live p i ∧ orig i = key.normal ∧ p.buckets b = some (entryWord orig i, ())) ∨
        (p.buckets b = none ∧ (∀ i, 28 ≤ i → Live p i → orig i ≠ key.normal) ∧
          ∀ y < p.bucketCount, gap p.bucketCount (bucketHome p.bucketCount (hashKey key)) y <
            gap p.bucketCount (bucketHome p.bucketCount (hashKey key)) b → Occupied p.buckets y)) := by
  obtain ⟨k, -, hcount⟩ := h.shape
  obtain ⟨e, he, hempty⟩ := h.table.exists_empty h.card_lt
  have hhome : bucketHome p.bucketCount (hashKey key) < p.bucketCount := by
    rw [hcount]
    exact bucketHome_lt _
  obtain ⟨b, hp, hb, hpast, hstop⟩ := probe_spec p.bucketCount (stopsAt p key) p.buckets _ e hhome he hempty
  refine ⟨b, by rw [hcount, maskNext_eq, ← hcount]; exact hp, hb, ?_⟩
  rcases hstop with hnone | ⟨w, ⟨⟩, hw, hfound⟩
  · refine .inr ⟨hnone, ?_, ?_⟩
    · intro i hi hlive heq
      have hmem := h.found i hi hlive
      have hsmall := h.table.small i hmem
      obtain ⟨x, hx, htx⟩ := (h.table.holds _).mpr ⟨i, hmem, rfl⟩
      have hhomei : homeOf orig p.bucketCount (entryWord orig i) = bucketHome p.bucketCount (hashKey key) := by
        rw [homeOf_entry hsmall, heq, hashKey_normal]
      rcases Nat.lt_trichotomy (gap p.bucketCount (bucketHome p.bucketCount (hashKey key)) x)
        (gap p.bucketCount (bucketHome p.bucketCount (hashKey key)) b) with hlt | hsame | hgt
      · obtain ⟨w, v, hw, hmiss⟩ := hpast x hx hlt
        rw [htx] at hw
        simp only [Option.some.injEq, Prod.mk.injEq] at hw
        rw [← hw.1, (stopsAt_iff h.toDecoded hlive.lt).mpr ⟨hlive, heq⟩] at hmiss
        simp at hmiss
      · rw [gap_inj hhome hx hb hsame, hnone] at htx
        simp at htx
      · have hocc := h.table.packed.path x _ _ hx htx b hb (by rw [hhomei]; exact hgt)
        simp [Occupied, hnone] at hocc
    · intro y hy hlt
      obtain ⟨w, v, hw, -⟩ := hpast y hy hlt
      simp [Occupied, hw]
  · obtain ⟨i, hi, rfl⟩ := (h.table.holds w).mp ⟨b, hb, hw⟩
    obtain ⟨hlive, heq⟩ := (stopsAt_iff h.toDecoded (h.range i hi).2).mp hfound
    exact .inl ⟨i, hi, hlive, heq, hw⟩

def Room (p : Pool) (key : Key) : Prop :=
  p.items.length + 1 < 2 ^ 32 ∧ (encodePayload key ≠ none → 4 * p.arena.length < 2 ^ 32 ∧ arrayLength key < 2 ^ 32)

def Present (p : Pool) (key : Key) : Prop :=
  isReservedKind key = true ∨ ∃ i, Live p i ∧ 28 ≤ i ∧ ipKey p (UInt32.ofNat i) = some key.normal

theorem encodeItemsData_spec (hroom : Room p key) (hkind : isReservedKind key = false) (i : IpIndex) :
    ∃ words data, encodeItemsData p key = ({ p with arena := p.arena ++ words }, data) ∧
      decodeItem i (tagForKey key) data (p.arena ++ words) = some key.normal := by
  unfold encodeItemsData
  cases hpayload : encodePayload key with
  | none =>
      exact ⟨[], encodeInline key, by simp, decodeItem_inline hpayload hkind i _⟩
  | some words =>
      obtain ⟨hoffset, harray⟩ := hroom.2 (by simp [hpayload])
      refine ⟨words, _, rfl, ?_⟩
      rw [decodeItem_payload hpayload, ofNat_toNat hoffset, Nat.mul_div_cancel_left _ (by decide), List.drop_left]
      rw [← List.append_nil words]
      exact decodePayload_encode hpayload harray

/-- A new item keeps what there is and decodes to the normal form of its key. -/
theorem appendItem_spec (h : Interned p orig indexed) (hroom : Room p key) (hkind : isReservedKind key = false)
    (habsent : ∀ i, 28 ≤ i → Live p i → orig i ≠ key.normal) {b : Nat} (hb : b < p.bucketCount)
    (hnone : p.buckets b = none) (hfull : (p.bucketUsed + 1) * 4 ≤ p.bucketCount * 3)
    (hpath : ∀ y < p.bucketCount, gap p.bucketCount (bucketHome p.bucketCount (hashKey key)) y <
      gap p.bucketCount (bucketHome p.bucketCount (hashKey key)) b → Occupied p.buckets y) :
    ∃ p' item, appendItem p key b = (p', UInt32.ofNat p.items.length) ∧ p'.items = p.items ++ [item] ∧
      item.tag ≠ .removed ∧
      Interned p' (Function.update orig p.items.length key.normal) (insert p.items.length indexed) := by
  obtain ⟨words, data, hencode, hdecode⟩ := encodeItemsData_spec hroom hkind (UInt32.ofNat p.items.length)
  have htag : tagForKey key ≠ .removed := by
    cases key with
    | ptrType elem isConst | manyPtrType elem isConst | sliceType elem isConst => cases isConst <;> simp [tagForKey]
    | _ => simp [tagForKey]
  have hlen := h.length
  have hroomy := hroom.1
  refine ⟨⟨p.items ++ [⟨tagForKey key, data⟩], p.arena ++ words,
    Function.update p.buckets b (bucketOf (bucketWord (hashKey key) (UInt32.ofNat p.items.length))), p.bucketCount,
    p.bucketUsed + 1⟩, ⟨tagForKey key, data⟩, by simp [appendItem, hencode], rfl, htag, ?_⟩
  generalize hp' : Pool.mk (p.items ++ [⟨tagForKey key, data⟩]) _ _ _ _ = p'
  have hitems : p'.items = p.items ++ [⟨tagForKey key, data⟩] := hp' ▸ rfl
  have harena : p'.arena = p.arena ++ words := hp' ▸ rfl
  have hlength : p'.items.length = p.items.length + 1 := by simp [hitems]
  have hbefore {i : Nat} (hi : i < p.items.length) : Live p' i ↔ Live p i := by
    rw [Live, Live, hitems, List.getElem?_append_left hi]
  have hlast : p'.items[p.items.length]? = some ⟨tagForKey key, data⟩ := by simp [hitems]
  have hlive {i : Nat} (hi : Live p' i) : Live p i ∧ i < p.items.length ∨ i = p.items.length := by
    rcases Nat.lt_or_ge i p.items.length with hlt | hge
    · exact .inl ⟨(hbefore hlt).mp hi, hlt⟩
    · have := hi.lt
      exact .inr (by omega)
  have horig {i : Nat} (hi : i < p.items.length) : Function.update orig p.items.length key.normal i = orig i :=
    Function.update_of_ne (by omega) _ _
  have hlastKey : Function.update orig p.items.length key.normal p.items.length = key.normal := by simp
  have hnew : p.items.length ∉ indexed := fun hin => by
    have := (h.range _ hin).2
    omega
  have hdec : Decoded p' (Function.update orig p.items.length key.normal) := by
    refine ⟨by omega, by omega, ?_, ?_, ?_, ?_, ?_⟩
    · intro i hi
      rcases hlive hi with ⟨hold, hlt⟩ | rfl
      · rw [horig hlt]
        exact ipKey_append hitems harena (h.decoded i hold)
          (by rwa [ofNat_toNat (by omega)])
      · rw [hlastKey, ipKey, ofNat_toNat (by omega), hlast, harena]
        exact hdecode
    · intro i hpos hi
      obtain ⟨hold, hkey⟩ := h.reserved i hpos hi
      exact ⟨(hbefore hold.lt).mpr hold, by rw [horig hold.lt]; exact hkey⟩
    · intro i hi
      rcases Nat.lt_or_eq_of_le (Nat.le_of_lt_succ (hlength ▸ hi)) with hlt | rfl
      · rw [horig hlt]
        exact h.normal i hlt
      · rw [hlastKey, normal_normal]
    · intro i hi28 hi
      rcases Nat.lt_or_eq_of_le (Nat.le_of_lt_succ (hlength ▸ hi)) with hlt | rfl
      · rw [horig hlt]
        exact h.compound i hi28 hlt
      · rw [hlastKey, isReservedKind_normal, hkind]
    · intro i j hi28 hj28 hi hj heq
      rcases hlive hi with ⟨hiold, hilt⟩ | rfl <;> rcases hlive hj with ⟨hjold, hjlt⟩ | rfl
      · rw [horig hilt, horig hjlt] at heq
        exact h.distinct i j hi28 hj28 hiold hjold heq
      · rw [horig hilt, hlastKey] at heq
        exact absurd heq (habsent i hi28 hiold)
      · rw [horig hjlt, hlastKey] at heq
        exact absurd heq.symm (habsent j hj28 hjold)
      · rfl
  have hentry : entryWord (Function.update orig p.items.length key.normal) p.items.length =
      bucketWord (hashKey key) (UInt32.ofNat p.items.length) := by
    rw [entryWord, hlastKey, hashKey_normal]
  have htable := (h.table.congr fun i hi => horig (h.range i hi).2).store hnew (by omega) hb hnone
    (by rwa [hlastKey, hashKey_normal])
  rw [hentry] at htable
  refine ⟨hdec, ?_, ?_⟩
  · subst hp'
    refine ⟨h.shape, htable, ?_, ?_, hfull⟩
    · rw [Finset.card_insert_of_notMem hnew, h.count]
    · intro i hi
      rcases Finset.mem_insert.mp hi with rfl | hi
      · rw [hlength]
        exact ⟨by simp [ipReservedCount] at hlen; omega, by omega⟩
      · have := h.range i hi
        rw [hlength]
        omega
  · intro i hi28 hi
    rcases hlive hi with ⟨hold, -⟩ | rfl
    · exact Finset.mem_insert_of_mem (h.found i hi28 hold)
    · exact Finset.mem_insert_self _ _

theorem Decoded.unique (h : Decoded p orig) (hi : 1 ≤ i) (hj : 1 ≤ j) (hilive : Live p i) (hjlive : Live p j)
    (heq : orig i = orig j) : i = j := by
  have hsmallKind : ∀ x, 1 ≤ x → x < 28 → isReservedKind (orig x) = true := by
    intro x hpos hx
    have hkey := (h.reserved x hpos (by simp only [ipReservedCount]; omega)).2
    have hkinds : ∀ y < 28, 1 ≤ y → (reservedKeys[y]?).all isReservedKind = true := by decide
    have := hkinds x hx hpos
    rwa [hkey, Option.all_some] at this
  rcases Nat.lt_or_ge i 28 with hi28 | hi28 <;> rcases Nat.lt_or_ge j 28 with hj28 | hj28
  · have hikey := (h.reserved i hi (by simp only [ipReservedCount]; omega)).2
    have hjkey := (h.reserved j hj (by simp only [ipReservedCount]; omega)).2
    have hnodup : ∀ x < 28, ∀ y < 28, 1 ≤ x → 1 ≤ y → reservedKeys[x]? = reservedKeys[y]? → x = y := by decide
    exact hnodup i hi28 j hj28 hi hj (by rw [hikey, hjkey, heq])
  · have hkind := hsmallKind i hi hi28
    rw [heq, h.compound j hj28 hjlive.lt] at hkind
    simp at hkind
  · have hkind := hsmallKind j hj hj28
    rw [← heq, h.compound i hi28 hilive.lt] at hkind
    simp at hkind
  · exact h.distinct i j hi28 hj28 hilive hjlive heq

/-- What the indices stand for is kept, but for the indices that are removed. -/
def Kept (p : Pool) (orig : Nat → Key) (ops : List Op) (p' : Pool) (orig' : Nat → Key) : Prop :=
  ∀ i, Live p i → .remove (UInt32.ofNat i) ∉ ops → Live p' i ∧ orig' i = orig i

theorem Kept.trans {p'' : Pool} {orig'' : Nat → Key} {ops ops' : List Op} (h : Kept p orig ops p' orig')
    (h' : Kept p' orig' ops' p'' orig'') : Kept p orig (ops ++ ops') p'' orig'' := by
  intro i hi hops
  simp only [List.mem_append, not_or] at hops
  obtain ⟨hi', horig⟩ := h i hi hops.1
  obtain ⟨hi'', horig'⟩ := h' i hi' hops.2
  exact ⟨hi'', horig'.trans horig⟩

/-- An interned key comes back under an index that stands for its normal form. -/
structure Got (p' : Pool) (orig' : Nat → Key) (key : Key) (i : IpIndex) : Prop where
  pos : 1 ≤ i.toNat
  live : Live p' i.toNat
  orig : orig' i.toNat = key.normal

theorem Got.decoded {x : IpIndex} (h : Got p orig key x) (hdec : Decoded p orig) : ipKey p x = some key.normal := by
  have := hdec.decoded _ h.live
  rwa [UInt32.ofNat_toNat, h.orig] at this

theorem ipGetCompound_spec (h : Interned p orig indexed) (hkind : isReservedKind key = false)
    (hok : Present p key ∨ Room p key) :
    ∃ p' x orig' indexed', ipGetCompound p key = some (p', x) ∧ Interned p' orig' indexed' ∧ Got p' orig' key x ∧
      Kept p orig [] p' orig' := by
  obtain ⟨q, indexed', hgrow, hitems, harena, hbuckets, hsub, hkeep, hfull⟩ := growIfFull_spec h.toDecoded h.toBucketed
  have hsame {i : Nat} : Live q i ↔ Live p i := by rw [Live, Live, hitems]
  have hq : Interned q orig indexed' :=
    ⟨h.toDecoded.congr hitems harena, hbuckets, fun i hi hlive =>
      hkeep i (h.found i hi (hsame.mp hlive)) (hsame.mp hlive)⟩
  obtain ⟨b, hprobe, hb, hstop⟩ := lookup_spec hq key
  rcases hstop with ⟨i, hi, hlive, heq, hslot⟩ | ⟨hnone, habsent, hpath⟩
  · have hsmall := hq.table.small i hi
    have hidx : bucketIndex (entryWord orig i) = UInt32.ofNat i := bucketIndex_word _ _
    refine ⟨q, UInt32.ofNat i, orig, indexed', ?_, hq, ⟨?_, ?_, ?_⟩, fun j hj _ => ⟨hsame.mpr hj, rfl⟩⟩
    · rw [ipGetCompound, hgrow, Option.bind_some, hprobe, Option.bind_some, hslot]
      simp only [hidx, hq.decoded i hlive, Option.map_some]
    · have := (hq.range i hi).1
      rw [ofNat_toNat (by omega)]
      omega
    · rwa [ofNat_toNat (by omega)]
    · rwa [ofNat_toNat (by omega)]
  · have hroom : Room q key := by
      rcases hok with hpresent | hroom
      · rcases hpresent with hres | ⟨i, hlive, hi, hdecode⟩
        · rw [hkind] at hres
          simp at hres
        · rw [h.decoded i hlive, Option.some.injEq] at hdecode
          exact absurd hdecode (habsent i hi (hsame.mpr hlive))
      · rwa [Room, hitems, harena]
    obtain ⟨p', item, happend, hitems', htag, hp'⟩ := appendItem_spec hq hroom hkind habsent hb hnone hfull hpath
    have hlen := hq.length
    have hsmall := hq.small
    refine ⟨p', UInt32.ofNat q.items.length, _, _, ?_, hp', ⟨?_, ?_, ?_⟩, ?_⟩
    · rw [ipGetCompound, hgrow, Option.bind_some, hprobe, Option.bind_some, hnone, happend]
    · simp only [ipReservedCount] at hlen
      rw [ofNat_toNat hsmall]
      omega
    · rw [ofNat_toNat hsmall]
      exact ⟨item, by simp [hitems'], htag⟩
    · rw [ofNat_toNat hsmall]
      simp
    · intro j hj _
      obtain ⟨jitem, hjitem, hjtag⟩ := hsame.mpr hj
      have hlt := (hsame.mpr hj).lt
      exact ⟨⟨jitem, by rwa [hitems', List.getElem?_append_left hlt], hjtag⟩, Function.update_of_ne (by omega) _ _⟩

theorem ipGet_spec (h : Interned p orig indexed) (hok : Present p key ∨ Room p key) :
    ∃ p' x orig' indexed', ipGet p key = some (p', x) ∧ Interned p' orig' indexed' ∧ Got p' orig' key x ∧
      Kept p orig [] p' orig' := by
  have hfast {x : Nat} (hpos : 1 ≤ x) (hx : x < 28) (hkey : reservedKeys[x]? = some key.normal) :
    Got p orig key (UInt32.ofNat x) := by
    obtain ⟨hlive, horig⟩ := h.reserved x hpos (by simp only [ipReservedCount]; omega)
    have hnat : (UInt32.ofNat x).toNat = x := ofNat_toNat (by omega)
    rw [hkey, Option.some.injEq] at horig
    exact ⟨by omega, by rwa [hnat], by rw [hnat, horig]⟩
  cases key with
  | primitiveType v =>
      exact ⟨p, _, orig, indexed, rfl, h, hfast (by omega) (by cases v <;> decide) (by cases v <;> rfl), fun _ hi _ =>
        ⟨hi, rfl⟩⟩
  | reservedValue v =>
      exact ⟨p, _, orig, indexed, rfl, h, hfast (by omega) (by cases v <;> decide) (by cases v <;> rfl), fun _ hi _ =>
        ⟨hi, rfl⟩⟩
  | _ => exact ipGetCompound_spec h rfl hok

theorem live_remove {x : IpIndex} : Live (ipRemove p x) i ↔ Live p i ∧ i ≠ x.toNat := by
  rw [Live, Live, ipRemove]
  by_cases hi : i = x.toNat
  · subst hi
    rw [List.getElem?_modify_eq]
    cases hitem : p.items[x.toNat]? <;> simp
  · rw [List.getElem?_modify_ne _ _ (Ne.symm hi)]
    simp [hi]

theorem ipRemove_spec {x : IpIndex} (h : Interned p orig indexed) (hx : x = 0 ∨ ipReservedCount ≤ x.toNat) :
    Interned (ipRemove p x) orig indexed ∧ Kept p orig [.remove x] (ipRemove p x) orig := by
  have hlength : (ipRemove p x).items.length = p.items.length := List.length_modify ..
  have hlive {i : Nat} (hi : Live (ipRemove p x) i) : Live p i := (live_remove.mp hi).1
  refine ⟨⟨⟨hlength ▸ h.length, hlength ▸ h.small, ?_, ?_, hlength ▸ h.normal, hlength ▸ h.compound, ?_⟩,
    ⟨h.shape, h.table, h.count, hlength ▸ h.range, h.load⟩, ?_⟩, ?_⟩
  · intro i hi
    obtain ⟨hold, hne⟩ := live_remove.mp hi
    have hsmall := Nat.lt_trans hold.lt h.small
    have hitem : (ipRemove p x).items[(UInt32.ofNat i).toNat]? = p.items[(UInt32.ofNat i).toNat]? := by
      rw [ofNat_toNat hsmall]
      exact List.getElem?_modify_ne _ _ (Ne.symm hne)
    rw [← h.decoded i hold, ipKey, ipKey, hitem]
    rfl
  · intro i hpos hi
    obtain ⟨hold, hkey⟩ := h.reserved i hpos hi
    refine ⟨live_remove.mpr ⟨hold, ?_⟩, hkey⟩
    rcases hx with rfl | hx
    · exact Nat.pos_iff_ne_zero.mp hpos
    · omega
  · intro i j hi hj hilive hjlive
    exact h.distinct i j hi hj (hlive hilive) (hlive hjlive)
  · intro i hi hilive
    exact h.found i hi (hlive hilive)
  · intro i hi hops
    refine ⟨live_remove.mpr ⟨hi, ?_⟩, rfl⟩
    rintro rfl
    simp at hops

/-- What each call asks for: a reserved index is not removed, and a key that is
not in the pool finds room. -/
def StepOk (p : Pool) : Op → Prop
  | .get key => Present p key ∨ Room p key
  | .remove x => x = 0 ∨ ipReservedCount ≤ x.toNat

def RunOk : Pool → List Op → Prop
  | _, [] => True
  | p, op :: ops => StepOk p op ∧ ∀ p', step p op = some p' → RunOk p' ops

theorem RunOk.left {ops ops' : List Op} (h : RunOk p (ops ++ ops')) : RunOk p ops := by
  induction ops generalizing p with
  | nil => exact trivial
  | cons op ops ih => exact ⟨h.1, fun p' hstep => ih (h.2 p' hstep)⟩

theorem RunOk.right {ops ops' : List Op} (h : RunOk p (ops ++ ops')) (hrun : run ops p = some p') : RunOk p' ops' := by
  induction ops generalizing p with
  | nil =>
      obtain rfl := Option.some.inj hrun
      exact h
  | cons op ops ih =>
      rw [run, List.foldlM_cons, Option.bind_eq_bind, Option.bind_eq_some_iff] at hrun
      obtain ⟨q, hstep, hrun⟩ := hrun
      exact ih (h.2 q hstep) hrun

theorem step_spec {op : Op} (h : Interned p orig indexed) (hok : StepOk p op) :
    ∃ p' orig' indexed', step p op = some p' ∧ Interned p' orig' indexed' ∧ Kept p orig [op] p' orig' := by
  cases op with
  | get key =>
      obtain ⟨p', x, orig', indexed', hget, hp', -, hkept⟩ := ipGet_spec h hok
      exact ⟨p', orig', indexed', by rw [step, hget]; rfl, hp', fun i hi _ => hkept i hi (by simp)⟩
  | remove x =>
      obtain ⟨hp', hkept⟩ := ipRemove_spec h hok
      exact ⟨_, orig, indexed, rfl, hp', hkept⟩

theorem run_spec {ops : List Op} (h : Interned p orig indexed) (hok : RunOk p ops) :
    ∃ p' orig' indexed', run ops p = some p' ∧ Interned p' orig' indexed' ∧ Kept p orig ops p' orig' := by
  induction ops generalizing p orig indexed with
  | nil => exact ⟨p, orig, indexed, rfl, h, fun _ hi _ => ⟨hi, rfl⟩⟩
  | cons op ops ih =>
      obtain ⟨p', orig', indexed', hstep, hp', hkept⟩ := step_spec h hok.1
      obtain ⟨q, origq, indexedq, hrun, hq, hkept'⟩ := ih hp' (hok.2 p' hstep)
      exact ⟨q, origq, indexedq, by rw [run, List.foldlM_cons, hstep]; exact hrun, hq, hkept.trans hkept'⟩

theorem registerBucket_spec (hdec : Decoded p orig) (hb : Bucketed p orig indexed) (hnew : i ∉ indexed) (hi : 28 ≤ i)
    (hlive : Live p i) :
    ∃ p' indexed', registerBucket p (UInt32.ofNat i) = some p' ∧ p'.items = p.items ∧ p'.arena = p.arena ∧
      Bucketed p' orig indexed' ∧ i ∈ indexed' ∧ indexed' ⊆ insert i indexed ∧ ∀ j ∈ indexed, Live p j →
        j ∈ indexed' := by
  obtain ⟨q, indexed', hgrow, hitems, harena, hq, hsub, hkeep, hfull⟩ := growIfFull_spec hdec hb
  have hnew' : i ∉ indexed' := fun hin => hnew (hsub hin)
  have hsmall := hdec.small
  have hlt := hlive.lt
  obtain ⟨k, hk, hcount⟩ := hq.shape
  have hcard := hq.card_lt
  have htable := hq.table
  rw [hcount] at hcard htable
  obtain ⟨t, hput, ht⟩ := htable.putBucket_spec hcard hnew' (by omega)
  refine ⟨⟨q.items, q.arena, t, q.bucketCount, q.bucketUsed + 1⟩, insert i indexed', ?_, hitems, harena,
    ⟨⟨k, hk, hcount⟩, ?_, ?_, ?_, hfull⟩, Finset.mem_insert_self _ _, Finset.insert_subset_insert _ hsub, ?_⟩
  · rw [registerBucket, hdec.decoded i hlive, Option.bind_some, hgrow, Option.bind_some, hcount, hput]
    rfl
  · show Indexed q.bucketCount t orig (insert i indexed')
    rwa [hcount]
  · rw [Finset.card_insert_of_notMem hnew', hq.count]
  · intro j hj
    rcases Finset.mem_insert.mp hj with rfl | hj
    · exact ⟨hi, hitems ▸ hlt⟩
    · exact hq.range j hj
  · intro j hj hjlive
    exact Finset.mem_insert_of_mem (hkeep j hj hjlive)

theorem registerBuckets_spec {l : List Nat} (hdec : Decoded p orig) (hb : Bucketed p orig indexed) (hnodup : l.Nodup)
    (hl : ∀ i ∈ l, i ∉ indexed ∧ 28 ≤ i ∧ Live p i) (hlive : ∀ j ∈ indexed, Live p j) :
    ∃ p' indexed', (l.map UInt32.ofNat).foldlM registerBucket p = some p' ∧ p'.items = p.items ∧ p'.arena = p.arena ∧
      Bucketed p' orig indexed' ∧ ∀ i, i ∈ l ∨ i ∈ indexed → i ∈ indexed' := by
  induction l generalizing p indexed with
  | nil => exact ⟨p, indexed, rfl, rfl, rfl, hb, by simp⟩
  | cons i l ih =>
      obtain ⟨hnew, hi, hilive⟩ := hl i (by simp)
      obtain ⟨q, indexed', hreg, hitems, harena, hq, hin, hsub, hkeep⟩ := registerBucket_spec hdec hb hnew hi hilive
      have hsame {j : Nat} : Live q j ↔ Live p j := by rw [Live, Live, hitems]
      have hcons := List.nodup_cons.mp hnodup
      obtain ⟨p', indexed'', hfold, hitems', harena', hp', hall⟩ := ih (hdec.congr hitems harena) hq hcons.2
        (fun j hj => by
          obtain ⟨hjnew, hj28, hjlive⟩ := hl j (List.mem_cons_of_mem _ hj)
          refine ⟨fun hjin => ?_, hj28, hsame.mpr hjlive⟩
          rcases Finset.mem_insert.mp (hsub hjin) with rfl | hjin
          · exact hcons.1 hj
          · exact hjnew hjin)
        (fun j hj => by
          rcases Finset.mem_insert.mp (hsub hj) with rfl | hj
          · exact hsame.mpr hilive
          · exact hsame.mpr (hlive j hj))
      refine ⟨p', indexed'', by rw [List.map_cons, List.foldlM_cons, hreg]; exact hfold, hitems'.trans hitems,
        harena'.trans harena, hp', ?_⟩
      rintro j (hj | hj)
      · rcases List.mem_cons.mp hj with rfl | hj
        · exact hall j (.inr hin)
        · exact hall j (.inl hj)
      · exact hall j (.inr (hkeep j hj (hlive j hj)))

theorem live_reservedPool : Live (reservedPool n) i ↔ i < ipReservedCount := by
  constructor
  · intro h
    have hlt := h.lt
    rwa [show (reservedPool n).items.length = ipReservedCount from rfl] at hlt
  · intro hi
    have htags : ∀ i < ipReservedCount, ∃ item ∈ populateReserved[i]?, item.tag ≠ .removed := by decide
    exact htags i hi

theorem decoded_reservedPool : Decoded (reservedPool n) fun i => (reservedKeys[i]?).getD errorKey := by
  have hlength : (reservedPool n).items.length = ipReservedCount := rfl
  refine ⟨hlength.ge, by rw [hlength]; decide, ?_, ?_, ?_, ?_, ?_⟩
  · intro i hi
    have hkeys : ∀ i < ipReservedCount, (match populateReserved[(UInt32.ofNat i).toNat]? with
        | none => some errorKey
        | some item => decodeItem (UInt32.ofNat i) item.tag item.data [0, ipEmptyEffectRow]) =
          some ((reservedKeys[i]?).getD errorKey) := by
      decide
    exact hkeys i (live_reservedPool.mp hi)
  · intro i _ hi
    have hkeys : ∀ i < ipReservedCount, reservedKeys[i]? = some ((reservedKeys[i]?).getD errorKey) := by decide
    exact ⟨live_reservedPool.mpr hi, hkeys i hi⟩
  · have hkeys : ∀ i < ipReservedCount, ((reservedKeys[i]?).getD errorKey).normal = (reservedKeys[i]?).getD
      errorKey := by
      decide
    exact hkeys
  · have hkeys : ∀ i < ipReservedCount, 28 ≤ i → isReservedKind ((reservedKeys[i]?).getD errorKey) = false := by decide
    exact fun i h28 hi => hkeys i hi h28
  · have hkeys : ∀ i < ipReservedCount, ∀ j < ipReservedCount, 28 ≤ i → 28 ≤ j →
        (reservedKeys[i]?).getD errorKey = (reservedKeys[j]?).getD errorKey → i = j := by
      decide
    exact fun i j hi hj hilive hjlive => hkeys i (live_reservedPool.mp hilive) j (live_reservedPool.mp hjlive) hi hj

theorem ipInitWith_spec (hk : 4 ≤ k) :
    ∃ p orig indexed, ipInitWith (2 ^ k) = some p ∧ Interned p orig indexed ∧ p.items = populateReserved ∧
      p.arena = [0, ipEmptyEffectRow] := by
  have hb : Bucketed (reservedPool (2 ^ k)) (fun i => (reservedKeys[i]?).getD errorKey) ∅ :=
    ⟨⟨k, hk, rfl⟩, .empty _ _, rfl, by simp, by simp [reservedPool]⟩
  obtain ⟨p, indexed, hinit, hitems, harena, hp, hall⟩ := registerBuckets_spec (l := [28, 29, 30, 31, 32])
    decoded_reservedPool hb (by decide)
    (fun i hi => by
      have hrange : ∀ i ∈ [28, 29, 30, 31, 32], 28 ≤ i ∧ i < ipReservedCount := by decide
      obtain ⟨h28, hlt⟩ := hrange i hi
      exact ⟨by simp, h28, live_reservedPool.mpr hlt⟩)
    (by simp)
  refine ⟨p, _, indexed, hinit, ⟨decoded_reservedPool.congr hitems harena, hp, ?_⟩, hitems, harena⟩
  intro i h28 hlive
  have hlt : i < ipReservedCount := live_reservedPool.mp (by rwa [Live, hitems] at hlive)
  have hrange : ∀ i < ipReservedCount, 28 ≤ i → i ∈ [28, 29, 30, 31, 32] := by decide
  exact hall i (.inl (hrange i hlt h28))

theorem Interned.present (h : Interned p orig indexed) (hi : 1 ≤ i) (hlive : Live p i) (heq : orig i = key.normal) :
    Present p key := by
  rcases Nat.lt_or_ge i 28 with hlt | hge
  · have hkinds : ∀ y < 28, 1 ≤ y → (reservedKeys[y]?).all isReservedKind = true := by decide
    have hkind := hkinds i hlt hi
    rw [(h.reserved i hi (by simp only [ipReservedCount]; omega)).2, Option.all_some, heq,
      isReservedKind_normal] at hkind
    exact .inl hkind
  · exact .inr ⟨i, hlive, hge, by rw [h.decoded i hlive, heq]⟩

theorem ipGet_live (h : Interned p orig indexed) (hok : Present p key ∨ Room p key) {x : IpIndex} (hx : 1 ≤ x.toNat)
    (hlive : Live p x.toNat) :
    ∃ p' y, ipGet p key = some (p', y) ∧ (x = y ↔ orig x.toNat = key.normal) := by
  obtain ⟨p', y, orig', indexed', hget, hp', hgot, hkept⟩ := ipGet_spec h hok
  obtain ⟨hlive', horig⟩ := hkept x.toNat hlive (by simp)
  refine ⟨p', y, hget, ?_⟩
  constructor
  · rintro rfl
    rw [← horig, hgot.orig]
  · intro heq
    exact UInt32.toNat_inj.mp (hp'.unique hx hgot.pos hlive' hgot.live (by rw [horig, heq, hgot.orig]))

/-- Type identity is index identity: in every run on a fresh pool the index of a
key decodes to its normal form for as long as it is not removed, another key gets
the same index exactly when it has the same normal form, and the reserved keys
keep their reserved indices. -/
theorem intern_canonical (hk : 4 ≤ k) :
    ∃ fresh, ipInitWith (2 ^ k) = some fresh ∧ ∀ ops key after, RunOk fresh (ops ++ .get key :: after) →
      ∃ p p' x q, run ops fresh = some p ∧ ipGet p key = some (p', x) ∧ run after p' = some q ∧
        ipKey p' x = some key.normal ∧
        (.remove x ∉ after → ipKey q x = some key.normal ∧
          ∀ key', Present q key' ∨ Room q key' → ∃ q' y, ipGet q key' = some (q', y) ∧
            (x = y ↔ key.normal = key'.normal)) ∧
        ∀ i key', 1 ≤ i → i < ipReservedCount → reservedKeys[i]? = some key'.normal →
          ∃ q', ipGet q key' = some (q', UInt32.ofNat i) := by
  obtain ⟨fresh, orig₀, indexed₀, hinit, hfresh, -⟩ := ipInitWith_spec hk
  refine ⟨fresh, hinit, ?_⟩
  intro ops key after hok
  obtain ⟨p, orig, indexed, hrun, hp, -⟩ := run_spec hfresh (hok.left)
  have hok' := hok.right hrun
  obtain ⟨p', x, orig', indexed', hget, hp', hgot, -⟩ := ipGet_spec hp hok'.1
  obtain ⟨q, origq, indexedq, hafter, hq, hkept⟩ := run_spec hp' (hok'.2 p' (by rw [step, hget]; rfl))
  refine ⟨p, p', x, q, hrun, hget, hafter, hgot.decoded hp'.toDecoded, ?_, ?_⟩
  · intro hnot
    obtain ⟨hlive, horig⟩ := hkept x.toNat hgot.live (by rwa [UInt32.ofNat_toNat])
    have hkey : origq x.toNat = key.normal := horig.trans hgot.orig
    refine ⟨Got.decoded ⟨hgot.pos, hlive, hkey⟩ hq.toDecoded, ?_⟩
    intro key' hok
    obtain ⟨q', y, hget', hiff⟩ := ipGet_live hq hok hgot.pos hlive
    exact ⟨q', y, hget', by rw [hiff, hkey]⟩
  · intro i key' hpos hi hkey
    obtain ⟨hlive, horig⟩ := hq.reserved i hpos hi
    rw [hkey, Option.some.injEq] at horig
    have hnat : (UInt32.ofNat i).toNat = i := ofNat_toNat (by simp only [ipReservedCount] at hi; omega)
    obtain ⟨q', y, hget', hiff⟩ := ipGet_live hq (.inl (hq.present hpos hlive horig.symm)) (x := UInt32.ofNat i)
      (by rwa [hnat]) (by rwa [hnat])
    exact ⟨q', by rw [hget', ← hiff.mpr (by rw [hnat, horig])]⟩

theorem intern_canonical_signature :
    ∃ fresh p p' x q, ipInitWith (2 ^ 4) = some fresh ∧ run [] fresh = some p ∧
      ipGet p (.fnType Primitive.i32.index 0 0 0 [Primitive.u8.index] ipNone) = some (p', x) ∧
      run [.get errorKey] p' = some q ∧
      ipKey q x = some (.fnType Primitive.i32.index 0 0 0 [Primitive.u8.index] ipEmptyEffectRow) := by
  obtain ⟨fresh, _, _, hinit, -, hitems, harena⟩ := ipInitWith_spec (k := 4) (by decide)
  obtain ⟨fresh', hinit', h⟩ := intern_canonical (k := 4) (by decide)
  obtain rfl : fresh = fresh' := Option.some.inj (hinit.symm.trans hinit')
  have hroom : Room fresh (.fnType Primitive.i32.index 0 0 0 [Primitive.u8.index] ipNone) := by
    rw [Room, hitems, harena]
    exact ⟨by decide, fun _ => ⟨by decide, by decide⟩⟩
  obtain ⟨p, p', x, q, hrun, hget, hafter, -, hkept, -⟩ :=
    h [] _ [.get errorKey] ⟨.inr hroom, fun _ _ => ⟨.inl (.inl rfl), fun _ _ => trivial⟩⟩
  exact ⟨fresh, p, p', x, q, hinit, hrun, hget, hafter, (hkept (by simp)).1⟩

theorem removed_reserved_stale :
    ((ipInitWith 256).bind fun fresh => (ipGet (ipRemove fresh Primitive.u8.index) (.primitiveType .u8)).bind
      fun got => ipKey got.1 got.2) = some errorKey := by
  decide +kernel

end Ore.InternPool
