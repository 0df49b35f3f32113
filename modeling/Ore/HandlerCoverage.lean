import Mathlib.Data.List.Count
import Mathlib.Data.List.Nodup

namespace Ore.HandlerCoverage

/-- The sorts of operations; a later one has more control. -/
inductive OpSort where
  | val
  | direct
  | finalCtl
  | ctl
  deriving DecidableEq, Repr

def OpSort.rank : OpSort → Nat
  | .val => 0
  | .direct => 1
  | .finalCtl => 2
  | .ctl => 3

/-- A declared operation; names are interned. -/
structure EffectOp where
  name : Nat
  sort : OpSort
  deriving DecidableEq, Repr

/-- A clause may have lost its name to a syntax error. -/
structure OpClause where
  name : Option Nat
  sort : OpSort
  deriving DecidableEq, Repr

/-- The diagnostics at a clause carry its position. -/
inductive Diag where
  /-- operation is not part of the handled effect -/
  | notPart (clause name : Nat)
  /-- operation uses a more general control than declared -/
  | moreGeneral (clause name : Nat)
  /-- 'val' operation must be handled with a value clause -/
  | valueClause (clause name : Nat)
  /-- linear effect operation cannot use a control clause -/
  | linearControl (clause name : Nat)
  /-- operation is not handled -/
  | notHandled (name : Nat)
  deriving DecidableEq, Repr

def dbEffectOpIndex (ops : List EffectOp) (name : Nat) : Option Nat := ops.findIdx? (·.name = name)

def dbEffectOpSort (ops : List EffectOp) (idx : Nat) : OpSort := (ops[idx]?.map (·.sort)).getD .val

/-- What the validation of a clause does to `seen` and to the diagnostics. -/
def validateClause (ops : List EffectOp) (linear : Bool) (s : BitVec 64 × List Diag) (clause : OpClause × Nat) :
    BitVec 64 × List Diag :=
  match clause.1.name with
  | none => s
  | some name => match dbEffectOpIndex ops name with
    | none => (s.1, s.2 ++ [.notPart clause.2 name])
    | some idx =>
        let declSort := dbEffectOpSort ops idx
        (if idx < 64 then s.1 ||| 1#64 <<< idx else s.1,
          s.2 ++ ((if clause.1.sort.rank > declSort.rank then [.moreGeneral clause.2 name] else []) ++
            (if declSort = .val ∧ clause.1.sort ≠ .val then [.valueClause clause.2 name] else []) ++
            (if linear ∧ clause.1.sort.rank > OpSort.direct.rank then [.linearControl clause.2 name] else [])))

/-- Any declared operation with no clause is unhandled. -/
def coverageDiags (ops : List EffectOp) (seen : BitVec 64) : List Diag :=
  ((ops.take 64).zipIdx.filter fun p => !seen.getLsbD p.2).map fun p => .notHandled p.1.name

def handlerDiags (ops : List EffectOp) (linear : Bool) (clauses : List OpClause) : List Diag :=
  let s := clauses.zipIdx.foldl (validateClause ops linear) (0, [])
  s.2 ++ coverageDiags ops s.1

def Named (clauses : List OpClause) (name : Nat) : Prop := ∃ c ∈ clauses, c.name = some name

def Declared (ops : List EffectOp) (name : Nat) : Prop := ∃ op ∈ ops, op.name = name

instance (clauses : List OpClause) (name : Nat) : Decidable (Named clauses name) := by
  unfold Named
  infer_instance

instance (ops : List EffectOp) (name : Nat) : Decidable (Declared ops name) := by
  unfold Declared
  infer_instance

variable {ops : List EffectOp} {linear : Bool}

theorem opIndex_none {name : Nat} : dbEffectOpIndex ops name = none ↔ ¬ Declared ops name := by
  simp [dbEffectOpIndex, Declared]

theorem getLsbD_bit {idx i : Nat} (hi : i < 64) : (1#64 <<< idx).getLsbD i = decide (idx = i) := by
  rw [BitVec.getLsbD_shiftLeft, BitVec.getLsbD_one]
  by_cases h : i < idx
  · have hne : idx ≠ i := by omega
    simp [h, hne]
  · have hsame : i - idx = 0 ↔ idx = i := by omega
    simp [h, hi, hsame]

theorem validateClause_seen (s : BitVec 64 × List Diag) (clause : OpClause × Nat) {i : Nat} (hi : i < 64) :
    (validateClause ops linear s clause).1.getLsbD i = true ↔
      s.1.getLsbD i = true ∨ ∃ name, clause.1.name = some name ∧ dbEffectOpIndex ops name = some i := by
  unfold validateClause
  cases hname : clause.1.name with
  | none => simp
  | some name =>
      cases hidx : dbEffectOpIndex ops name with
      | none => simp [hidx]
      | some idx =>
          by_cases h : idx < 64
          · simp [h, hidx, getLsbD_bit hi]
          · have hne : idx ≠ i := by omega
            simp [h, hidx, hne]

theorem validateClause_declared (s : BitVec 64 × List Diag) {clause : OpClause × Nat} {name idx : Nat}
    (hname : clause.1.name = some name) (hidx : dbEffectOpIndex ops name = some idx) :
    ∃ diags, (validateClause ops linear s clause).2 = s.2 ++ diags ∧ (∀ j name', .notPart j name' ∉ diags) ∧
      ∀ name', .notHandled name' ∉ diags := by
  unfold validateClause
  simp only [hname, hidx]
  refine ⟨_, rfl, fun j name' => ?_, fun name' => ?_⟩ <;> split <;> split <;> split <;> simp

theorem validateClause_diags (s : BitVec 64 × List Diag) (clause : OpClause × Nat) :
    (∀ j name, .notPart j name ∈ (validateClause ops linear s clause).2 ↔
      .notPart j name ∈ s.2 ∨ clause.2 = j ∧ clause.1.name = some name ∧ ¬ Declared ops name) ∧
    ∀ name, (validateClause ops linear s clause).2.count (.notHandled name) = s.2.count (.notHandled name) := by
  cases hname : clause.1.name with
  | none => simp [validateClause, hname]
  | some name =>
      cases hidx : dbEffectOpIndex ops name with
      | none =>
          have hundeclared := opIndex_none.mp hidx
          have hdiags : (validateClause ops linear s clause).2 = s.2 ++ [.notPart clause.2 name] := by
            simp only [validateClause, hname, hidx]
          rw [hdiags]
          refine ⟨fun j name' => ?_, fun name' => by simp⟩
          simp only [List.mem_append, List.mem_singleton, Diag.notPart.injEq, Option.some.injEq]
          refine or_congr_right ⟨?_, ?_⟩
          · rintro ⟨rfl, rfl⟩
            exact ⟨rfl, rfl, hundeclared⟩
          · rintro ⟨rfl, rfl, -⟩
            exact ⟨rfl, rfl⟩
      | some idx =>
          have hdeclared : Declared ops name := by
            by_contra h
            rw [opIndex_none.mpr h] at hidx
            cases hidx
          obtain ⟨diags, hdiags, hpart, hhandled⟩ := @validateClause_declared ops linear s clause name idx hname hidx
          rw [hdiags]
          refine ⟨fun j name' => ?_, fun name' => ?_⟩
          · have hno : ¬ (clause.2 = j ∧ some name = some name' ∧ ¬ Declared ops name') := by
              rintro ⟨-, hsame, h⟩
              exact h (Option.some.inj hsame ▸ hdeclared)
            simp only [List.mem_append, hno, hpart, or_false]
          · rw [List.count_append, List.count_eq_zero.mpr (hhandled name'), Nat.add_zero]

theorem validate_spec (clauses : List (OpClause × Nat)) (s : BitVec 64 × List Diag) :
    (∀ i < 64, ((clauses.foldl (validateClause ops linear) s).1.getLsbD i = true ↔
      s.1.getLsbD i = true ∨ ∃ c ∈ clauses, ∃ name, c.1.name = some name ∧ dbEffectOpIndex ops name = some i)) ∧
    (∀ j name, .notPart j name ∈ (clauses.foldl (validateClause ops linear) s).2 ↔
      .notPart j name ∈ s.2 ∨ ∃ c ∈ clauses, c.2 = j ∧ c.1.name = some name ∧ ¬ Declared ops name) ∧
    ∀ name, (clauses.foldl (validateClause ops linear) s).2.count (.notHandled name) =
      s.2.count (.notHandled name) := by
  induction clauses generalizing s with
  | nil => simp
  | cons c clauses ih =>
      obtain ⟨hseen, hpart, hcount⟩ := ih (validateClause ops linear s c)
      obtain ⟨hpart', hcount'⟩ := @validateClause_diags ops linear s c
      rw [List.foldl_cons]
      refine ⟨fun i hi => ?_, fun j name => ?_, fun name => ?_⟩
      · rw [hseen i hi, validateClause_seen s c hi]
        simp only [List.mem_cons, exists_eq_or_imp, or_assoc]
      · rw [hpart, hpart']
        simp only [List.mem_cons, exists_eq_or_imp, or_assoc]
      · rw [hcount, hcount']

/-- How often a name is declared among the operations that `seen` has a bit for. -/
def places (ops : List EffectOp) (name : Nat) : Nat := ((ops.take 64).map (·.name)).count name

/-- `seen` holds the first operation of each name that has a clause. -/
def SeenRight (ops : List EffectOp) (clauses : List OpClause) (seen : BitVec 64) : Prop :=
  ∀ i < 64, (seen.getLsbD i = true ↔ ∃ name, Named clauses name ∧ dbEffectOpIndex ops name = some i)

theorem coverage_count (seen : BitVec 64) (name : Nat) :
    (coverageDiags ops seen).count (.notHandled name) =
      (ops.take 64).zipIdx.countP fun p => p.1.name = name && !seen.getLsbD p.2 := by
  rw [coverageDiags, List.count, List.countP_map, List.countP_filter]
  refine List.countP_congr fun p _ => ?_
  simp

theorem places_eq (name : Nat) : places ops name = (ops.take 64).zipIdx.countP fun p => p.1.name = name := by
  have hfst : (ops.take 64).zipIdx.map (·.1) = ops.take 64 := List.zipIdx_map_fst 0 _
  rw [places, List.count, List.countP_map]
  conv => lhs; rw [← hfst, List.countP_map]
  refine List.countP_congr fun p _ => ?_
  simp

theorem count_first (ops : List EffectOp) (name : Nat) :
    ((ops.take 64).zipIdx.countP fun p => p.1.name = name && decide (dbEffectOpIndex ops name = some p.2)) =
      min 1 (places ops name) := by
  have hle : ((ops.take 64).zipIdx.countP fun p => p.1.name = name && decide (dbEffectOpIndex ops name = some p.2)) ≤
      places ops name := by
    rw [places_eq]
    exact List.countP_mono_left fun p _ h => by
      simp only [Bool.and_eq_true] at h
      exact h.1
  by_cases hpos : 0 < places ops name
  · rw [places_eq, List.countP_pos_iff] at hpos
    obtain ⟨p, hp, hname⟩ := hpos
    have hget := List.mem_zipIdx_iff_getElem?.mp hp
    have hbound := (List.getElem?_eq_some_iff.mp hget).1
    rw [List.length_take] at hbound
    rw [List.getElem?_take_of_lt (by omega)] at hget
    obtain ⟨first, hfirst⟩ : ∃ first, dbEffectOpIndex ops name = some first := by
      refine Option.ne_none_iff_exists'.mp fun hnone => ?_
      exact opIndex_none.mp hnone ⟨p.1, List.mem_of_getElem? hget, by simpa using hname⟩
    obtain ⟨hlt, hsame, hbefore⟩ := List.findIdx?_eq_some_iff_getElem.mp hfirst
    have hfirstle : first ≤ p.2 := by
      by_contra hgt
      have hother := hbefore p.2 (by omega)
      rw [List.getElem?_eq_getElem (by omega), Option.some.injEq] at hget
      exact hother (by rw [hget]; exact hname)
    have hmem : (ops[first], first) ∈ (ops.take 64).zipIdx := by
      rw [List.mem_zipIdx_iff_getElem?, List.getElem?_take_of_lt (by omega), List.getElem?_eq_getElem hlt]
    have hone : ((ops.take 64).zipIdx.countP fun p => p.1.name = name &&
        decide (dbEffectOpIndex ops name = some p.2)) ≤ 1 := by
      have hnodup : ((ops.take 64).zipIdx.map (·.2)).Nodup := by
        rw [List.zipIdx_map_snd]
        exact List.nodup_range'
      refine Nat.le_trans ?_ (List.nodup_iff_count.mp hnodup first)
      rw [List.count, List.countP_map]
      refine List.countP_mono_left fun q _ h => ?_
      simp only [hfirst, Bool.and_eq_true, decide_eq_true_eq, Option.some.injEq] at h
      simp [h.2]
    have hsome : 0 < (ops.take 64).zipIdx.countP fun p => p.1.name = name &&
        decide (dbEffectOpIndex ops name = some p.2) :=
      List.countP_pos_iff.mpr ⟨_, hmem, by simpa [hfirst] using hsame⟩
    omega
  · omega

variable {clauses : List OpClause} {seen : BitVec 64} (hseen : SeenRight ops clauses seen)

include hseen

theorem seen_bit {p : EffectOp × Nat} (hp : p ∈ (ops.take 64).zipIdx) :
    seen.getLsbD p.2 = true ↔ Named clauses p.1.name ∧ dbEffectOpIndex ops p.1.name = some p.2 := by
  have hget := List.mem_zipIdx_iff_getElem?.mp hp
  have hlt : p.2 < 64 := by
    have hbound := (List.getElem?_eq_some_iff.mp hget).1
    rw [List.length_take] at hbound
    omega
  have hget' : ops[p.2]? = some p.1 := by rwa [List.getElem?_take_of_lt hlt] at hget
  rw [hseen _ hlt]
  constructor
  · rintro ⟨name, hnamed, hidx⟩
    obtain ⟨hbound, hname, -⟩ := List.findIdx?_eq_some_iff_getElem.mp hidx
    rw [List.getElem?_eq_getElem hbound, Option.some.injEq] at hget'
    have hsame : name = p.1.name := by simpa [hget', eq_comm] using hname
    exact hsame ▸ ⟨hnamed, hidx⟩
  · exact fun h => ⟨_, h⟩

theorem count_unnamed {name : Nat} (h : ¬ Named clauses name) :
    (coverageDiags ops seen).count (.notHandled name) = places ops name := by
  rw [coverage_count, places_eq]
  refine List.countP_congr fun p hp => ?_
  simp only [Bool.and_eq_true, decide_eq_true_eq, Bool.not_eq_true', Bool.eq_false_iff, ne_eq, seen_bit hseen hp,
    and_iff_left_iff_imp]
  rintro rfl hnamed
  exact h hnamed.1

theorem count_named {name : Nat} (h : Named clauses name) :
    (coverageDiags ops seen).count (.notHandled name) = places ops name - 1 := by
  have hcount : (coverageDiags ops seen).count (.notHandled name) =
      (ops.take 64).zipIdx.countP fun p => p.1.name = name && !decide (dbEffectOpIndex ops name = some p.2) := by
    rw [coverage_count]
    refine List.countP_congr fun p hp => ?_
    simp only [Bool.and_eq_true, decide_eq_true_eq, Bool.not_eq_true', Bool.eq_false_iff, ne_eq, seen_bit hseen hp]
    refine and_congr_right ?_
    rintro rfl
    simp [h]
  have hsplit := List.countP_eq_countP_filter_add (ops.take 64).zipIdx (fun p => decide (p.1.name = name))
    (fun p => decide (dbEffectOpIndex ops name = some p.2))
  rw [List.countP_filter, List.countP_filter, ← places_eq, ← hcount] at hsplit
  have hfirst := count_first ops name
  omega

omit hseen

theorem handlerDiags_spec (ops : List EffectOp) (linear : Bool) (clauses : List OpClause) :
    ∃ seen, SeenRight ops clauses seen ∧
      (∀ name, (handlerDiags ops linear clauses).count (.notHandled name) =
        (coverageDiags ops seen).count (.notHandled name)) ∧
      ∀ j name, .notPart j name ∈ handlerDiags ops linear clauses ↔
        (∃ c, clauses[j]? = some c ∧ c.name = some name) ∧ ¬ Declared ops name := by
  obtain ⟨hseen, hpart, hcount⟩ := @validate_spec ops linear clauses.zipIdx (0, [])
  refine ⟨(clauses.zipIdx.foldl (validateClause ops linear) (0, [])).1,
    fun i hi => ?_, fun name => ?_, fun j name => ?_⟩
  · rw [hseen i hi]
    have hzero : ((0 : BitVec 64).getLsbD i = true) = False := by simp
    rw [hzero, false_or]
    constructor
    · rintro ⟨c, hc, name, hname, hidx⟩
      exact ⟨name, ⟨c.1, List.fst_mem_of_mem_zipIdx hc, hname⟩, hidx⟩
    · rintro ⟨name, ⟨c, hc, hname⟩, hidx⟩
      obtain ⟨k, hk⟩ := List.mem_iff_getElem?.mp hc
      exact ⟨(c, k), List.mem_zipIdx_iff_getElem?.mpr hk, name, hname, hidx⟩
  · rw [handlerDiags, List.count_append, hcount, List.count_nil, Nat.zero_add]
  · have hcoverage (seen : BitVec 64) : Diag.notPart j name ∉ coverageDiags ops seen := by simp [coverageDiags]
    rw [handlerDiags, List.mem_append, hpart, or_iff_left (hcoverage _)]
    simp only [List.not_mem_nil, false_or]
    constructor
    · rintro ⟨c, hc, rfl, hname, hundeclared⟩
      exact ⟨⟨c.1, List.mem_zipIdx_iff_getElem?.mp hc, hname⟩, hundeclared⟩
    · rintro ⟨⟨c, hc, hname⟩, hundeclared⟩
      exact ⟨(c, j), List.mem_zipIdx_iff_getElem?.mpr hc, rfl, hname, hundeclared⟩

/-- Each operation without a clause is reported once, and no other. -/
def CoverageRight (ops : List EffectOp) (linear : Bool) (clauses : List OpClause) : Prop :=
  ∀ name, Declared ops name →
    (handlerDiags ops linear clauses).count (.notHandled name) = if Named clauses name then 0 else 1

/-- Among the first 64 operations no name is declared twice, and the others have clauses. -/
def Covered (ops : List EffectOp) (clauses : List OpClause) : Prop :=
  ((ops.take 64).map (·.name)).Nodup ∧
    ∀ name, Declared ops name → ¬ Named clauses name → name ∈ (ops.take 64).map (·.name)

theorem coverage_iff (ops : List EffectOp) (linear : Bool) (clauses : List OpClause) :
    CoverageRight ops linear clauses ↔ Covered ops clauses := by
  obtain ⟨seen, hseen, hcount, -⟩ := handlerDiags_spec ops linear clauses
  have hdeclared {name : Nat} (h : name ∈ (ops.take 64).map (·.name)) : Declared ops name := by
    obtain ⟨op, hop, hname⟩ := List.mem_map.mp h
    exact ⟨op, List.mem_of_mem_take hop, hname⟩
  constructor
  · intro h
    refine ⟨List.nodup_iff_count.mpr fun name => ?_, fun name hname hunnamed => ?_⟩
    · by_cases hmem : name ∈ (ops.take 64).map (·.name)
      · have hone := h name (hdeclared hmem)
        rw [hcount] at hone
        by_cases hnamed : Named clauses name
        · rw [if_pos hnamed, count_named hseen hnamed, places] at hone
          omega
        · rw [if_neg hnamed, count_unnamed hseen hnamed, places] at hone
          omega
      · rw [List.count_eq_zero.mpr hmem]
        exact Nat.zero_le _
    · have hone := h name hname
      rw [hcount, if_neg hunnamed, count_unnamed hseen hunnamed, places] at hone
      exact List.count_pos_iff.mp (by omega)
  · rintro ⟨hnodup, hcovered⟩ name hname
    have hle := List.nodup_iff_count.mp hnodup name
    rw [hcount]
    by_cases hnamed : Named clauses name
    · rw [if_pos hnamed, count_named hseen hnamed, places]
      omega
    · have hpos := List.count_pos_iff.mpr (hcovered name hname hnamed)
      rw [if_neg hnamed, count_unnamed hseen hnamed, places]
      omega

end Ore.HandlerCoverage
