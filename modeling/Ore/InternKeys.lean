import Ore.WorkspaceModel

namespace Ore.InternKeys

open WorkspaceModel

abbrev IpIndex := UInt32

inductive Primitive
  | bool | u8 | i8 | u16 | i16 | u32 | i32 | u64 | i64 | f32 | f64 | usize | isize | void | type | anytype
  | comptimeInt | comptimeFloat | nil | error | noreturn
  deriving DecidableEq, Repr

inductive ReservedValue
  | boolTrue | boolFalse | voidValue | undefValue | zeroUsize | oneUsize
  deriving DecidableEq, Repr

def Primitive.index (p : Primitive) : IpIndex := UInt32.ofNat (p.ctorIdx + 1)
def ReservedValue.index (v : ReservedValue) : IpIndex := UInt32.ofNat (v.ctorIdx + 22)

def ipNone : IpIndex := 0
def ipEmptyEffectRow : IpIndex := 32
def ipReservedCount : Nat := 33

/-- What is interned. Borrowed arrays are lists, a float is its bits, and the
enumerators of the first two kinds are the reserved variants. -/
inductive Key
  | primitiveType (p : Primitive)
  | reservedValue (v : ReservedValue)
  | ptrType (elem : IpIndex) (isConst : Bool)
  | manyPtrType (elem : IpIndex) (isConst : Bool)
  | sliceType (elem : IpIndex) (isConst : Bool)
  | optionalType (elem : IpIndex)
  | arrayType (elem : IpIndex) (size : UInt64)
  | fnType (ret : IpIndex) (modifiers comptimeBits typevaluedBits : UInt32) (params : List IpIndex)
        (effectRow : IpIndex)
  | structType (zirNodeId : UInt32)
  | enumType (zirNodeId : UInt32)
  | effectRow (labels : List UInt32) (tail : IpIndex)
  | rowVar (id : UInt32)
  | typeVar (id : UInt32)
  | effectType (zirNodeId : UInt32)
  | distinctType (zirNodeId : UInt32) (backing : IpIndex)
  | intValue (type : IpIndex) (value : UInt64)
  | floatValue (type : IpIndex) (value : UInt64)
  | namespaceValue (nsid : UInt32)
  | enumVariantValue (enumDef variantIdx : UInt32)
  | fnValue (defIdx : UInt32)
  | namespaceType (nsid : UInt32)
  | fnInstance (defIdx : UInt32) (args : List IpIndex)
  deriving DecidableEq, Repr

def normalRow (row : IpIndex) : IpIndex := if row = ipNone then ipEmptyEffectRow else row

def Key.normal : Key → Key
  | .fnType ret modifiers comptimeBits typevaluedBits params row =>
      .fnType ret modifiers comptimeBits typevaluedBits params (normalRow row)
  | .effectRow labels tail => .effectRow labels (normalRow tail)
  | k => k

def errorKey : Key := .primitiveType .error

def fnvU32 (h : UInt64) (v : UInt32) : UInt64 := foldBytes h ((wordBytes v.toUInt64).take 4)
def fnvU64 (h : UInt64) (v : UInt64) : UInt64 := foldBytes h (wordBytes v)
def fnvAll (h : UInt64) (vs : List UInt32) : UInt64 := vs.foldl fnvU32 h
def fnvConst (h : UInt64) (isConst : Bool) : UInt64 := fnvU32 h (if isConst then 1 else 0)

def hashKey (key : Key) : UInt64 :=
  let h := fnvU32 fnvOffset (UInt32.ofNat key.ctorIdx)
  match key with
  | .primitiveType p => fnvU32 h p.index
  | .reservedValue v => fnvU32 h v.index
  | .ptrType elem isConst | .manyPtrType elem isConst | .sliceType elem isConst => fnvConst (fnvU32 h elem) isConst
  | .optionalType elem => fnvU32 h elem
  | .arrayType elem size => fnvU64 (fnvU32 h elem) size
  | .fnType ret modifiers comptimeBits typevaluedBits params row =>
      let h := fnvAll h [ret, modifiers, comptimeBits, typevaluedBits, UInt32.ofNat params.length]
      fnvU32 (fnvAll h params) (normalRow row)
  | .fnInstance defIdx args => fnvAll (fnvAll h [defIdx, UInt32.ofNat args.length]) args
  | .structType zirNodeId | .enumType zirNodeId | .effectType zirNodeId => fnvU32 h zirNodeId
  | .effectRow labels tail => fnvU32 (fnvAll (fnvU32 h (UInt32.ofNat labels.length)) labels) (normalRow tail)
  | .rowVar id | .typeVar id => fnvU32 h id
  | .distinctType zirNodeId backing => fnvU32 (fnvU32 h zirNodeId) backing
  | .intValue type value | .floatValue type value => fnvU64 (fnvU32 h type) value
  | .namespaceValue nsid | .namespaceType nsid => fnvU32 h nsid
  | .fnValue defIdx => fnvU32 h defIdx
  | .enumVariantValue enumDef variantIdx => fnvU32 (fnvU32 h enumDef) variantIdx

def keyEql : Key → Key → Bool
  | .primitiveType p, .primitiveType p' => p = p'
  | .reservedValue v, .reservedValue v' => v = v'
  | .ptrType elem isConst, .ptrType elem' isConst' => elem = elem' && isConst = isConst'
  | .manyPtrType elem isConst, .manyPtrType elem' isConst' => elem = elem' && isConst = isConst'
  | .sliceType elem isConst, .sliceType elem' isConst' => elem = elem' && isConst = isConst'
  | .optionalType elem, .optionalType elem' => elem = elem'
  | .arrayType elem size, .arrayType elem' size' => elem = elem' && size = size'
  | .fnType ret modifiers comptimeBits typevaluedBits params row,
      .fnType ret' modifiers' comptimeBits' typevaluedBits' params' row' =>
      ret = ret' && modifiers = modifiers' && comptimeBits = comptimeBits' && typevaluedBits = typevaluedBits' &&
        params = params' && normalRow row = normalRow row'
  | .fnInstance defIdx args, .fnInstance defIdx' args' => defIdx = defIdx' && args = args'
  | .structType zirNodeId, .structType zirNodeId' => zirNodeId = zirNodeId'
  | .enumType zirNodeId, .enumType zirNodeId' => zirNodeId = zirNodeId'
  | .effectRow labels tail, .effectRow labels' tail' => labels = labels' && normalRow tail = normalRow tail'
  | .rowVar id, .rowVar id' => id = id'
  | .typeVar id, .typeVar id' => id = id'
  | .effectType zirNodeId, .effectType zirNodeId' => zirNodeId = zirNodeId'
  | .distinctType zirNodeId backing, .distinctType zirNodeId' backing' => zirNodeId = zirNodeId' && backing = backing'
  | .intValue type value, .intValue type' value' => type = type' && value = value'
  | .floatValue type value, .floatValue type' value' => type = type' && value = value'
  | .namespaceValue nsid, .namespaceValue nsid' => nsid = nsid'
  | .fnValue defIdx, .fnValue defIdx' => defIdx = defIdx'
  | .enumVariantValue enumDef variantIdx, .enumVariantValue enumDef' variantIdx' =>
      enumDef = enumDef' && variantIdx = variantIdx'
  | .namespaceType nsid, .namespaceType nsid' => nsid = nsid'
  | _, _ => false

/-- The storage tag. The pointer families split by constness. -/
inductive Tag
  | primitiveType | reservedValue
  | ptrType | ptrConstType | manyPtrType | manyPtrConstType | sliceType | sliceConstType | optionalType
  | arrayType | fnType | structType | enumType | effectRow | rowVar | typeVar | effectType | distinctType
  | intValue | floatValue | namespaceValue | enumVariantValue | fnValue | namespaceType | fnInstance
  | none | removed
  deriving DecidableEq, Repr

def tagForKey : Key → Tag
  | .primitiveType _ => .primitiveType
  | .reservedValue _ => .reservedValue
  | .ptrType _ isConst => if isConst then .ptrConstType else .ptrType
  | .manyPtrType _ isConst => if isConst then .manyPtrConstType else .manyPtrType
  | .sliceType _ isConst => if isConst then .sliceConstType else .sliceType
  | .optionalType _ => .optionalType
  | .arrayType .. => .arrayType
  | .fnType .. => .fnType
  | .structType _ => .structType
  | .enumType _ => .enumType
  | .effectRow .. => .effectRow
  | .rowVar _ => .rowVar
  | .typeVar _ => .typeVar
  | .effectType _ => .effectType
  | .distinctType .. => .distinctType
  | .intValue .. => .intValue
  | .floatValue .. => .floatValue
  | .namespaceValue _ => .namespaceValue
  | .fnValue _ => .fnValue
  | .enumVariantValue .. => .enumVariantValue
  | .namespaceType _ => .namespaceType
  | .fnInstance .. => .fnInstance

def loWord (x : UInt64) : UInt32 := x.toUInt32
def hiWord (x : UInt64) : UInt32 := (x >>> 32).toUInt32
def joinWords (lo hi : UInt32) : UInt64 := lo.toUInt64 ||| hi.toUInt64 <<< 32

/-- The arena hands out multiples of eight bytes. -/
def alignWords (words : List UInt32) : List UInt32 := if words.length % 2 = 0 then words else words ++ [0]

/-- The words written to the arena for a key; the other kinds are encoded
inline. -/
def encodePayload : Key → Option (List UInt32)
  | .arrayType elem size => some [elem, 0, loWord size, hiWord size]
  | .fnType ret modifiers comptimeBits typevaluedBits params row =>
      some (alignWords ([ret, modifiers, comptimeBits, typevaluedBits, UInt32.ofNat params.length, normalRow row] ++
        params))
  | .fnInstance defIdx args => some (alignWords ([defIdx, UInt32.ofNat args.length] ++ args))
  | .effectRow labels tail => some (alignWords ([UInt32.ofNat labels.length, normalRow tail] ++ labels))
  | .distinctType zirNodeId backing => some [zirNodeId, backing]
  | .intValue type value | .floatValue type value => some [type, 0, loWord value, hiWord value]
  | .enumVariantValue enumDef variantIdx => some [enumDef, variantIdx]
  | _ => none

def encodeInline : Key → UInt32
  | .ptrType elem _ | .manyPtrType elem _ | .sliceType elem _ | .optionalType elem => elem
  | .structType zirNodeId | .enumType zirNodeId | .effectType zirNodeId => zirNodeId
  | .namespaceType nsid | .namespaceValue nsid => nsid
  | .fnValue defIdx => defIdx
  | .rowVar id | .typeVar id => id
  | _ => 0

def primitiveAt (i : IpIndex) : Option Primitive :=
  [.bool, .u8, .i8, .u16, .i16, .u32, .i32, .u64, .i64, .f32, .f64, .usize, .isize, .void, .type, .anytype,
    .comptimeInt, .comptimeFloat, .nil, .error, .noreturn].find? (·.index = i)

def reservedAt (i : IpIndex) : Option ReservedValue :=
  [.boolTrue, .boolFalse, .voidValue, .undefValue, .zeroUsize, .oneUsize].find? (·.index = i)

/-- Reading a key back from the words at its offset. Words that are not there
fail the assertion of the source. -/
def decodePayload : Tag → List UInt32 → Option Key
  | .arrayType, elem :: _ :: lo :: hi :: _ => some (.arrayType elem (joinWords lo hi))
  | .fnType, ret :: modifiers :: comptimeBits :: typevaluedBits :: nParams :: row :: rest =>
      if nParams.toNat ≤ rest.length then
        some (.fnType ret modifiers comptimeBits typevaluedBits (rest.take nParams.toNat) row)
      else none
  | .fnInstance, defIdx :: nArgs :: rest =>
      if nArgs.toNat ≤ rest.length then some (.fnInstance defIdx (rest.take nArgs.toNat)) else none
  | .effectRow, nLabels :: tail :: rest =>
      if nLabels.toNat ≤ rest.length then some (.effectRow (rest.take nLabels.toNat) tail) else none
  | .distinctType, zirNodeId :: backing :: _ => some (.distinctType zirNodeId backing)
  | .intValue, type :: _ :: lo :: hi :: _ => some (.intValue type (joinWords lo hi))
  | .floatValue, type :: _ :: lo :: hi :: _ => some (.floatValue type (joinWords lo hi))
  | .enumVariantValue, enumDef :: variantIdx :: _ => some (.enumVariantValue enumDef variantIdx)
  | _, _ => none

/-- The key of the item at `i` with the given tag and data, over the words of
the arena. -/
def decodeItem (i : IpIndex) (tag : Tag) (data : UInt32) (arena : List UInt32) : Option Key :=
  match tag with
  | .primitiveType => (primitiveAt i).map .primitiveType
  | .reservedValue => (reservedAt i).map .reservedValue
  | .ptrType => some (.ptrType data false)
  | .ptrConstType => some (.ptrType data true)
  | .manyPtrType => some (.manyPtrType data false)
  | .manyPtrConstType => some (.manyPtrType data true)
  | .sliceType => some (.sliceType data false)
  | .sliceConstType => some (.sliceType data true)
  | .optionalType => some (.optionalType data)
  | .structType => some (.structType data)
  | .enumType => some (.enumType data)
  | .rowVar => some (.rowVar data)
  | .typeVar => some (.typeVar data)
  | .effectType => some (.effectType data)
  | .namespaceValue => some (.namespaceValue data)
  | .fnValue => some (.fnValue data)
  | .namespaceType => some (.namespaceType data)
  | .none | .removed => some errorKey
  | .arrayType | .fnType | .fnInstance | .effectRow | .distinctType | .intValue | .floatValue | .enumVariantValue =>
      decodePayload tag (arena.drop (data.toNat / 4))

def isReservedKind : Key → Bool
  | .primitiveType _ | .reservedValue _ => true
  | _ => false

/-- The number of array elements of a key, counted in 32 bits by its payload. -/
def arrayLength : Key → Nat
  | .fnType _ _ _ _ params _ => params.length
  | .fnInstance _ args => args.length
  | .effectRow labels _ => labels.length
  | _ => 0

variable {k : Key} {words rest : List UInt32}

theorem normalRow_normalRow (row : IpIndex) : normalRow (normalRow row) = normalRow row := by
  by_cases hrow : row = ipNone
  · simp [normalRow, hrow, ipNone, ipEmptyEffectRow]
  · simp [normalRow, hrow]

@[simp] theorem normal_normal (k : Key) : k.normal.normal = k.normal := by
  cases k <;> simp [Key.normal, normalRow_normalRow]

@[simp] theorem isReservedKind_normal (k : Key) : isReservedKind k.normal = isReservedKind k := by
  cases k <;> rfl

@[simp] theorem hashKey_normal (k : Key) : hashKey k.normal = hashKey k := by
  cases k <;> simp [Key.normal, hashKey, normalRow_normalRow, Key.ctorIdx]

theorem keyEql_self (k : Key) : keyEql k k = true := by
  cases k <;> simp [keyEql]

theorem eq_of_normal_eq {k k' : Key} (h : k.normal = k') :
    k = k' ∨ ∃ row, (∃ ret modifiers comptimeBits typevaluedBits params,
      k' = .fnType ret modifiers comptimeBits typevaluedBits params row) ∨ ∃ labels, k' = .effectRow labels row := by
  subst h
  cases k with
  | fnType ret modifiers comptimeBits typevaluedBits params row =>
      exact .inr ⟨normalRow row, .inl ⟨_, _, _, _, _, rfl⟩⟩
  | effectRow labels tail => exact .inr ⟨normalRow tail, .inr ⟨labels, rfl⟩⟩
  | _ => exact .inl rfl

theorem keyEql_iff (a b : Key) : keyEql a b = true ↔ a.normal = b.normal := by
  constructor
  · intro h
    fun_cases keyEql a b <;> simp_all [keyEql, Key.normal]
  · intro h
    cases a with
    | fnType => cases b <;> simp_all [keyEql, Key.normal]
    | effectRow => cases b <;> simp_all [keyEql, Key.normal]
    | _ =>
        rcases eq_of_normal_eq h.symm with rfl | ⟨row, ⟨ret, modifiers, comptimeBits, typevaluedBits, params, heq⟩ |
          ⟨labels, heq⟩⟩
        · exact keyEql_self _
        · cases heq
        · cases heq

theorem joinWords_toNat (lo hi : UInt32) : (joinWords lo hi).toNat = 2 ^ 32 * hi.toNat + lo.toNat := by
  have hlo := lo.toNat_lt
  have hhi := hi.toNat_lt
  have hshift : (hi.toUInt64 <<< 32).toNat = 2 ^ 32 * hi.toNat := by
    simp [UInt64.toNat_shiftLeft, Nat.shiftLeft_eq]
    omega
  rw [joinWords, UInt64.toNat_or, hshift, UInt32.toNat_toUInt64, Nat.two_pow_add_eq_or_of_lt hlo, Nat.or_comm]

theorem joinWords_split (x : UInt64) : joinWords (loWord x) (hiWord x) = x := by
  apply UInt64.toNat_inj.mp
  have := x.toNat_lt
  rw [joinWords_toNat]
  simp [loWord, hiWord, UInt64.toNat_shiftRight, Nat.shiftRight_eq_div_pow]
  omega

@[simp] theorem loWord_join (lo hi : UInt32) : loWord (joinWords lo hi) = lo := by
  apply UInt32.toNat_inj.mp
  have := lo.toNat_lt
  rw [loWord, UInt64.toNat_toUInt32, joinWords_toNat]
  omega

@[simp] theorem hiWord_join (lo hi : UInt32) : hiWord (joinWords lo hi) = hi := by
  apply UInt32.toNat_inj.mp
  have := lo.toNat_lt
  have := hi.toNat_lt
  rw [hiWord, UInt64.toNat_toUInt32, UInt64.toNat_shiftRight, joinWords_toNat]
  simp only [UInt64.reduceToNat, Nat.shiftRight_eq_div_pow, Nat.reduceMod, Nat.reducePow]
  omega

theorem ofNat_toNat {n : Nat} (h : n < 2 ^ 32) : (UInt32.ofNat n).toNat = n := by
  rw [UInt32.toNat_ofNat']
  exact Nat.mod_eq_of_lt h

theorem alignWords_append (words rest : List UInt32) : ∃ pad, alignWords words ++ rest = words ++ (pad ++ rest) := by
  unfold alignWords
  split
  · exact ⟨[], by simp⟩
  · exact ⟨[0], by simp⟩

/-- An array written behind its length is read back. -/
theorem take_counted {vs : List UInt32} (hsmall : vs.length < 2 ^ 32) (rest : List UInt32) :
    (UInt32.ofNat vs.length).toNat ≤ (vs ++ rest).length ∧
      (vs ++ rest).take (UInt32.ofNat vs.length).toNat = vs := by
  rw [ofNat_toNat hsmall, List.length_append]
  exact ⟨Nat.le_add_right _ _, List.take_left⟩

theorem decodePayload_encode (h : encodePayload k = some words) (hsmall : arrayLength k < 2 ^ 32) :
    decodePayload (tagForKey k) (words ++ rest) = some k.normal := by
  cases k with
  | arrayType elem size | intValue type value | floatValue type value =>
      obtain rfl := Option.some.inj h
      simp [tagForKey, decodePayload, joinWords_split, Key.normal]
  | distinctType zirNodeId backing | enumVariantValue enumDef variantIdx =>
      obtain rfl := Option.some.inj h
      rfl
  | fnType ret modifiers comptimeBits typevaluedBits params row =>
      obtain rfl := Option.some.inj h
      obtain ⟨pad, hpad⟩ := alignWords_append
        ([ret, modifiers, comptimeBits, typevaluedBits, UInt32.ofNat params.length, normalRow row] ++ params) rest
      obtain ⟨hcount, htake⟩ := take_counted hsmall (pad ++ rest)
      rw [hpad, List.append_assoc]
      simp only [tagForKey, List.cons_append, List.nil_append, decodePayload, hcount, htake, if_true, Key.normal]
  | fnInstance defIdx args =>
      obtain rfl := Option.some.inj h
      obtain ⟨pad, hpad⟩ := alignWords_append ([defIdx, UInt32.ofNat args.length] ++ args) rest
      obtain ⟨hcount, htake⟩ := take_counted hsmall (pad ++ rest)
      rw [hpad, List.append_assoc]
      simp only [tagForKey, List.cons_append, List.nil_append, decodePayload, hcount, htake, if_true, Key.normal]
  | effectRow labels tail =>
      obtain rfl := Option.some.inj h
      obtain ⟨pad, hpad⟩ := alignWords_append ([UInt32.ofNat labels.length, normalRow tail] ++ labels) rest
      obtain ⟨hcount, htake⟩ := take_counted hsmall (pad ++ rest)
      rw [hpad, List.append_assoc]
      simp only [tagForKey, List.cons_append, List.nil_append, decodePayload, hcount, htake, if_true, Key.normal]
  | _ => simp [encodePayload] at h

theorem decodePayload_append {tag : Tag} (h : decodePayload tag words = some k) :
    decodePayload tag (words ++ rest) = some k := by
  have hkeep {n : UInt32} {xs : List UInt32} (hn : n.toNat ≤ xs.length) :
      n.toNat ≤ (xs ++ rest).length ∧ (xs ++ rest).take n.toNat = xs.take n.toNat := by
    refine ⟨?_, List.take_append_of_le_length hn⟩
    rw [List.length_append]
    omega
  unfold decodePayload at h
  split at h
  case h_2 | h_3 | h_4 =>
    simp only [Option.ite_none_right_eq_some, Option.some.injEq] at h
    obtain ⟨hn, rfl⟩ := h
    obtain ⟨hn', htake⟩ := hkeep hn
    simp only [List.cons_append, decodePayload, hn', htake, if_true]
  case h_9 => simp at h
  all_goals exact h

theorem decodeItem_append {i : IpIndex} {tag : Tag} {data : UInt32} (h : decodeItem i tag data words = some k) :
    decodeItem i tag data (words ++ rest) = some k := by
  cases tag with
  | arrayType | fnType | fnInstance | effectRow | distinctType | intValue | floatValue | enumVariantValue =>
      simp only [decodeItem, List.drop_append] at h ⊢
      exact decodePayload_append h
  | _ => exact h

theorem decodeItem_payload (h : encodePayload k = some words) (i : IpIndex) (data : UInt32) (arena : List UInt32) :
    decodeItem i (tagForKey k) data arena = decodePayload (tagForKey k) (arena.drop (data.toNat / 4)) := by
  cases k with
  | arrayType | fnType | fnInstance | effectRow | distinctType | intValue | floatValue | enumVariantValue => rfl
  | _ => simp [encodePayload] at h

theorem decodeItem_inline (h : encodePayload k = none) (hkind : isReservedKind k = false) (i : IpIndex)
    (arena : List UInt32) : decodeItem i (tagForKey k) (encodeInline k) arena = some k.normal := by
  cases k with
  | ptrType elem isConst | manyPtrType elem isConst | sliceType elem isConst => cases isConst <;> rfl
  | primitiveType p | reservedValue v => simp [isReservedKind] at hkind
  | arrayType | fnType | fnInstance | effectRow | distinctType | intValue | floatValue | enumVariantValue =>
      simp [encodePayload] at h
  | _ => rfl

end Ore.InternKeys
