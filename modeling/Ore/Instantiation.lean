import Ore.TypeHoles

namespace Ore.Instantiation

open EffectRows InternKeys TypeHoles

/-- The counters of the pool: the variables made so far are those up to them. -/
structure Pool where
  nextRow : Nat
  nextType : Nat

/-- A key of the renaming map: whether its high word is set, and its low word. -/
abbrev Key := Bool × Nat

/-- Rows use the raw id, holes set the high word. -/
def rowKey (id : Nat) : Key := (false, id)
def typeKey (id : Nat) : Key := (true, id)

structure Renamer where
  pool : Pool
  map : List (Key × Nat)

def Renamer.find (s : Renamer) (key : Key) : Option Nat := s.map.lookup key

def ipFreshRowVar (p : Pool) : Nat × Pool := (p.nextRow + 1, { p with nextRow := p.nextRow + 1 })
def ipFreshTypeVar (p : Pool) : Nat × Pool := (p.nextType + 1, { p with nextType := p.nextType + 1 })

/-- The variable a key is renamed to, made at its first occurrence. -/
def Renamer.rename (s : Renamer) (key : Key) (fresh : Pool → Nat × Pool) : Nat × Renamer :=
  match s.find key with
  | some v => (v, s)
  | none => ((fresh s.pool).1, ⟨(fresh s.pool).2, (key, (fresh s.pool).1) :: s.map⟩)

def instantiateRow : Row → Renamer → Row × Renamer
  | .var id, s =>
    let (v, s) := s.rename (rowKey id) ipFreshRowVar
    (.var v, s)
  | .row labels tail, s =>
    let (newTail, s) := instantiateRow tail s
    (if newTail = tail then .row labels tail else rowIntern labels newTail, s)
  | r, s => (r, s)

mutual

/-- Unchanged types are returned as they are. -/
def instantiateType : Ty → Renamer → Ty × Renamer
  | .var id, s =>
    let (v, s) := s.rename (typeKey id) ipFreshTypeVar
    (.var v, s)
  | .optional elem, s =>
    let (e, s) := instantiateType elem s
    (if e = elem then .optional elem else .optional e, s)
  | .ptr elem isConst, s =>
    let (e, s) := instantiateType elem s
    (if e = elem then .ptr elem isConst else .ptr e isConst, s)
  | .slice elem isConst, s =>
    let (e, s) := instantiateType elem s
    (if e = elem then .slice elem isConst else .slice e isConst, s)
  | .manyPtr elem isConst, s =>
    let (e, s) := instantiateType elem s
    (if e = elem then .manyPtr elem isConst else .manyPtr e isConst, s)
  | .array elem size, s =>
    let (e, s) := instantiateType elem s
    (if e = elem then .array elem size else .array e size, s)
  | .fn ret params modifiers comptimeBits typevaluedBits row, s =>
    let (newRet, s) := instantiateType ret s
    let (newRow, s) := instantiateRow row s
    let (newParams, s) := instantiateParams params s
    (if newParams = params ∧ newRet = ret ∧ newRow = row then
        .fn ret params modifiers comptimeBits typevaluedBits row
      else .fn newRet newParams modifiers comptimeBits typevaluedBits newRow, s)
  | t, s => (t, s)

def instantiateParams : List Ty → Renamer → List Ty × Renamer
  | [], s => ([], s)
  | p :: ps, s =>
    let (sub, s) := instantiateType p s
    let (subs, s) := instantiateParams ps s
    (sub :: subs, s)

end

def instantiateFnForCallSite (p : Pool) (fnTy : Ty) : Ty × Pool :=
  match fnTy with
  | .fn .. =>
    let (t, s) := instantiateType fnTy ⟨p, []⟩
    (t, s.pool)
  | t => (t, p)

section Renamings

def renameRow (g : Nat → Nat) : Row → Row
  | .var i => .var (g i)
  | .row labels tail => .row labels (renameRow g tail)
  | r => r

def varsOfRow : Row → List Nat
  | .var i => [i]
  | .row _ tail => varsOfRow tail
  | _ => []

mutual

/-- The type with its holes renamed by `f` and its row variables by `g`. -/
def renameType (f g : Nat → Nat) : Ty → Ty
  | .var i => .var (f i)
  | .optional e => .optional (renameType f g e)
  | .ptr e isConst => .ptr (renameType f g e) isConst
  | .slice e isConst => .slice (renameType f g e) isConst
  | .manyPtr e isConst => .manyPtr (renameType f g e) isConst
  | .array e size => .array (renameType f g e) size
  | .fn ret params modifiers comptimeBits typevaluedBits row =>
      .fn (renameType f g ret) (renameParams f g params) modifiers comptimeBits typevaluedBits (renameRow g row)
  | t => t

def renameParams (f g : Nat → Nat) : List Ty → List Ty
  | [] => []
  | t :: ts => renameType f g t :: renameParams f g ts

end

mutual

/-- The row variables of a type, with repetition. -/
def rowVars : Ty → List Nat
  | .optional e | .ptr e _ | .slice e _ | .manyPtr e _ | .array e _ => rowVars e
  | .fn ret params _ _ _ row => rowVars ret ++ varsOfRow row ++ rowVarsAll params
  | _ => []

def rowVarsAll : List Ty → List Nat
  | [] => []
  | t :: ts => rowVars t ++ rowVarsAll ts

end

end Renamings

section Runs

variable {α β : Type} {p : Pool} {s s' s'' : Renamer} {run : Renamer → α × Renamer} {run' : Renamer → β × Renamer}
  {keys keys' : List Key} {renamed : (Nat → Nat) → (Nat → Nat) → α} {renamed' : (Nat → Nat) → (Nat → Nat) → β}

/-- The last variable made of each kind. -/
def Pool.next (p : Pool) : Bool → Nat
  | false => p.nextRow
  | true => p.nextType

def Renamer.typeName (s : Renamer) (i : Nat) : Nat := (s.find (typeKey i)).getD 0
def Renamer.rowName (s : Renamer) (i : Nat) : Nat := (s.find (rowKey i)).getD 0

/-- The names given out since `p` are new, and no two variables of a kind share
one. -/
structure Fresh (p : Pool) (s : Renamer) : Prop where
  up : ∀ kind, p.next kind ≤ s.pool.next kind
  name : ∀ key v, s.find key = some v → p.next key.1 < v ∧ v ≤ s.pool.next key.1
  inj : ∀ key key' v, key.1 = key'.1 → s.find key = some v → s.find key' = some v → key = key'

def Extends (s s' : Renamer) : Prop := ∀ key v, s.find key = some v → s'.find key = some v

theorem Extends.trans (h : Extends s s') (h' : Extends s' s'') : Extends s s'' :=
  fun key v hv => h' key v (h key v hv)

/-- The run names the variables listed, and whatever is named after it, its
result is the renamed one. -/
structure Renames (run : Renamer → α × Renamer) (keys : List Key) (renamed : (Nat → Nat) → (Nat → Nat) → α) :
    Prop where
  fresh : ∀ {p s}, Fresh p s → Fresh p (run s).2
  grows : ∀ s, Extends s (run s).2
  named : ∀ s, ∀ key ∈ keys, ∃ v, (run s).2.find key = some v
  result : ∀ {s s'}, Extends (run s).2 s' → (run s).1 = renamed s'.typeName s'.rowName

theorem renames_pure (a : α) : Renames (fun s => (a, s)) [] fun _ _ => a where
  fresh h := h
  grows _ _ _ h := h
  named _ _ h := absurd h List.not_mem_nil
  result _ := rfl

theorem Renames.map (h : Renames run keys renamed) (F : α → β) :
    Renames (fun s => (F (run s).1, (run s).2)) keys fun f g => F (renamed f g) where
  fresh := h.fresh
  grows := h.grows
  named := h.named
  result hs := congrArg F (h.result hs)

/-- An unchanged component leaves the whole unchanged. -/
theorem Renames.share [DecidableEq α] (h : Renames run keys renamed) (F : α → β) {a : α} :
    Renames (fun s => (if (run s).1 = a then F a else F (run s).1, (run s).2)) keys fun f g => F (renamed f g) where
  fresh := h.fresh
  grows := h.grows
  named := h.named
  result {s s'} hs := by
    rw [← h.result hs]
    split_ifs with hsame
    · rw [hsame]
    · rfl

theorem Renames.pair (h : Renames run keys renamed) (h' : Renames run' keys' renamed') :
    Renames (fun s => (((run s).1, (run' (run s).2).1), (run' (run s).2).2)) (keys ++ keys')
      fun f g => (renamed f g, renamed' f g) where
  fresh hs := h'.fresh (h.fresh hs)
  grows s := (h.grows s).trans (h'.grows _)
  named s key hkey := by
    rcases List.mem_append.mp hkey with hkey | hkey
    · obtain ⟨v, hv⟩ := h.named s key hkey
      exact ⟨v, h'.grows _ _ v hv⟩
    · exact h'.named _ key hkey
  result hs := Prod.ext (h.result ((h'.grows _).trans hs)) (h'.result hs)

theorem Renames.congr {run₂ : Renamer → α × Renamer} {keys₂ : List Key} (h : Renames run keys renamed)
    (hrun : ∀ s, run₂ s = run s) (hkeys : ∀ key ∈ keys₂, key ∈ keys) : Renames run₂ keys₂ renamed where
  fresh hs := by
    rw [hrun]
    exact h.fresh hs
  grows s := by
    rw [hrun]
    exact h.grows s
  named s key hkey := by
    rw [hrun]
    exact h.named s key (hkeys key hkey)
  result {s s'} hs := by
    rw [hrun] at hs ⊢
    exact h.result hs

theorem find_cons (key key' : Key) (v : Nat) (p : Pool) (map : List (Key × Nat)) :
    Renamer.find ⟨p, (key, v) :: map⟩ key' = if key' = key then some v else Renamer.find ⟨p, map⟩ key' := by
  by_cases h : key' = key
  · simp [Renamer.find, h]
  · have hne : (key' == key) = false := by simpa using h
    simp [Renamer.find, List.lookup_cons, hne, h]

theorem rename_extends (s : Renamer) (key : Key) (fresh : Pool → Nat × Pool) :
    Extends s (s.rename key fresh).2 ∧ (s.rename key fresh).2.find key = some (s.rename key fresh).1 := by
  unfold Renamer.rename
  cases hfind : s.find key with
  | some v => exact ⟨fun _ _ h => h, hfind⟩
  | none =>
      refine ⟨fun key' v h => ?_, by rw [find_cons, if_pos rfl]⟩
      rw [find_cons, if_neg]
      · exact h
      · rintro rfl
        rw [hfind] at h
        cases h

/-- The function makes the next variable of a kind. -/
structure Mints (fresh : Pool → Nat × Pool) (kind : Bool) : Prop where
  id : ∀ p : Pool, (fresh p).1 = p.next kind + 1
  next : ∀ (p : Pool) (kind' : Bool), (fresh p).2.next kind' = if kind' = kind then p.next kind + 1 else p.next kind'

theorem mints_row : Mints ipFreshRowVar false := ⟨fun _ => rfl, fun _ kind => by cases kind <;> rfl⟩

theorem mints_type : Mints ipFreshTypeVar true := ⟨fun _ => rfl, fun _ kind => by cases kind <;> rfl⟩

variable {fresh : Pool → Nat × Pool} {key : Key}

theorem Mints.next_le (h : Mints fresh key.1) (p : Pool) (kind : Bool) : p.next kind ≤ (fresh p).2.next kind := by
  rw [h.next]
  split_ifs with hk
  · rw [hk]
    exact Nat.le_succ _
  · exact le_rfl

theorem Fresh.rename (h : Fresh p s) (hmints : Mints fresh key.1) : Fresh p (s.rename key fresh).2 := by
  unfold Renamer.rename
  cases hfind : s.find key with
  | some v => exact h
  | none =>
      have hcases : ∀ key' v, Renamer.find ⟨(fresh s.pool).2, (key, (fresh s.pool).1) :: s.map⟩ key' = some v →
          key' = key ∧ v = s.pool.next key.1 + 1 ∨ s.find key' = some v := by
        intro key' v hv
        rw [find_cons] at hv
        split_ifs at hv with hkey
        · rw [← hmints.id]
          exact .inl ⟨hkey, (Option.some.inj hv).symm⟩
        · exact .inr hv
      refine ⟨fun kind => (h.up kind).trans (hmints.next_le _ kind), fun key' v hv => ?_,
        fun key₁ key₂ v hkind h₁ h₂ => ?_⟩
      · have hup := h.up key.1
        rcases hcases key' v hv with ⟨rfl, rfl⟩ | hold
        · rw [hmints.next, if_pos rfl]
          exact ⟨by omega, le_rfl⟩
        · obtain ⟨hlt, hle⟩ := h.name key' v hold
          exact ⟨hlt, hle.trans (hmints.next_le _ _)⟩
      · rcases hcases key₁ v h₁ with ⟨heq₁, hv⟩ | hold₁ <;> rcases hcases key₂ v h₂ with ⟨heq₂, hv'⟩ | hold₂
        · rw [heq₁, heq₂]
        · have hle := (h.name key₂ v hold₂).2
          rw [← hkind, heq₁] at hle
          omega
        · have hle := (h.name key₁ v hold₁).2
          rw [hkind, heq₂] at hle
          omega
        · exact h.inj key₁ key₂ v hkind hold₁ hold₂

theorem renames_rowVar (id : Nat) :
    Renames (fun s => s.rename (rowKey id) ipFreshRowVar) [rowKey id] fun _ g => g id where
  fresh h := h.rename mints_row
  grows s := (rename_extends s _ _).1
  named s key hkey := by
    obtain rfl := List.mem_singleton.mp hkey
    exact ⟨_, (rename_extends s _ _).2⟩
  result {s s'} hs := by
    have hfind := hs _ _ (rename_extends s (rowKey id) ipFreshRowVar).2
    simp [Renamer.rowName, hfind]

theorem renames_typeVar (id : Nat) :
    Renames (fun s => s.rename (typeKey id) ipFreshTypeVar) [typeKey id] fun f _ => f id where
  fresh h := h.rename mints_type
  grows s := (rename_extends s _ _).1
  named s key hkey := by
    obtain rfl := List.mem_singleton.mp hkey
    exact ⟨_, (rename_extends s _ _).2⟩
  result {s s'} hs := by
    have hfind := hs _ _ (rename_extends s (typeKey id) ipFreshTypeVar).2
    simp [Renamer.typeName, hfind]

theorem rename_changed {r r' : Row} {g : Nat → Nat} (h : r' = renameRow g r) (hne : r' ≠ r) (labels : List Nat) :
    rowIntern labels r' = .row labels r' := by
  subst h
  cases r with
  | none | error | type | empty => exact absurd rfl hne
  | var | row => rfl

theorem instantiateRow_renames (r : Row) :
    Renames (instantiateRow r) ((varsOfRow r).map rowKey) fun _ g => renameRow g r := by
  induction r with
  | var id => exact ((renames_rowVar id).map Row.var).congr (fun s => rfl) (by simp [varsOfRow])
  | row labels tail ih =>
      refine (ih.map (Row.row labels)).congr (fun s => Prod.ext ?_ rfl) (by simp [varsOfRow])
      have hresult := ih.result (s := s) fun _ _ h => h
      simp only [instantiateRow]
      split_ifs with hsame
      · rw [hsame]
      · exact rename_changed hresult hsame labels
  | none | error | type | empty => exact (renames_pure _).congr (fun s => rfl) (by simp [varsOfRow])

def keysOf (t : Ty) : List Key := t.holes.map typeKey ++ (rowVars t).map rowKey

theorem mem_rowVarsAll {i : Nat} {ts : List Ty} : i ∈ rowVarsAll ts ↔ ∃ t ∈ ts, i ∈ rowVars t := by
  induction ts with
  | nil => simp [rowVarsAll]
  | cons t ts ih => simp [rowVarsAll, ih]

theorem instantiateParams_renames {ps : List Ty}
    (h : ∀ q ∈ ps, Renames (instantiateType q) (keysOf q) fun f g => renameType f g q) :
    Renames (instantiateParams ps) (ps.flatMap keysOf) fun f g => renameParams f g ps := by
  induction ps with
  | nil => exact (renames_pure _).congr (fun s => rfl) (by simp)
  | cons q ps ih =>
      have hq := h q List.mem_cons_self
      have hps := ih fun r hr => h r (List.mem_cons_of_mem _ hr)
      exact ((hq.pair hps).map fun r => r.1 :: r.2).congr (fun s => rfl) (by simp)

theorem instantiateType_renames (t : Ty) :
    Renames (instantiateType t) (keysOf t) fun f g => renameType f g t := by
  induction t using Ty.inductOn with
  | step t ih =>
      cases t with
      | var id => exact ((renames_typeVar id).map Ty.var).congr (fun s => rfl) (by simp [keysOf, Ty.holes, rowVars])
      | optional e => exact ((ih e (by simp [Ty.children])).share Ty.optional).congr (fun s => rfl) fun _ h => h
      | ptr e isConst =>
          exact ((ih e (by simp [Ty.children])).share (Ty.ptr · isConst)).congr (fun s => rfl) fun _ h => h
      | slice e isConst =>
          exact ((ih e (by simp [Ty.children])).share (Ty.slice · isConst)).congr (fun s => rfl) fun _ h => h
      | manyPtr e isConst =>
          exact ((ih e (by simp [Ty.children])).share (Ty.manyPtr · isConst)).congr (fun s => rfl) fun _ h => h
      | array e size => exact ((ih e (by simp [Ty.children])).share (Ty.array · size)).congr (fun s => rfl) fun _ h => h
      | fn ret params modifiers comptimeBits typevaluedBits row =>
          have hret := ih ret (by simp [Ty.children])
          have hparams : Renames (instantiateParams params) _ _ :=
            instantiateParams_renames fun q hq => ih q (by simp [Ty.children, hq])
          refine (((hret.pair (instantiateRow_renames row)).pair hparams).map fun r =>
            Ty.fn r.1.1 r.2 modifiers comptimeBits typevaluedBits r.1.2).congr (fun s => Prod.ext ?_ rfl) ?_
          · simp only [instantiateType]
            split_ifs with hsame
            · rw [hsame.1, hsame.2.1, hsame.2.2]
            · rfl
          · intro key hkey
            simp only [keysOf, Ty.holes, rowVars, List.mem_append, List.mem_map, Ty.mem_holesAll, mem_rowVarsAll,
              List.mem_flatMap] at hkey ⊢
            grind
      | none | prim | other => exact (renames_pure _).congr (fun s => rfl) (by simp [keysOf, Ty.holes, rowVars])

end Runs

section CallSites

variable {p p' p₁ p₂ p₃ : Pool} {t t₁ t₂ u : Ty}

/-- All variables of the type have been made. -/
structure Issued (p : Pool) (t : Ty) : Prop where
  hole : ∀ i ∈ t.holes, i ≤ p.nextType
  row : ∀ i ∈ rowVars t, i ≤ p.nextRow

structure Disjoint (t u : Ty) : Prop where
  hole : ∀ i ∈ t.holes, i ∉ u.holes
  row : ∀ i ∈ rowVars t, i ∉ rowVars u

/-- `u` is `t` with its variables renamed, distinct ones differently, to
variables made between `p` and `p'`. -/
structure FreshCopy (p p' : Pool) (t u : Ty) (f g : Nat → Nat) : Prop where
  renamed : u = renameType f g t
  hole : ∀ i ∈ t.holes, p.nextType < f i ∧ f i ≤ p'.nextType
  row : ∀ i ∈ rowVars t, p.nextRow < g i ∧ g i ≤ p'.nextRow
  holeInj : ∀ i ∈ t.holes, ∀ j ∈ t.holes, f i = f j → i = j
  rowInj : ∀ i ∈ rowVars t, ∀ j ∈ rowVars t, g i = g j → i = j

theorem fresh_start (p : Pool) : Fresh p ⟨p, []⟩ where
  up _ := le_rfl
  name _ _ h := nomatch h
  inj _ _ _ _ h := nomatch h

theorem instantiateType_fresh (p : Pool) (t : Ty) :
    ∃ f g, FreshCopy p (instantiateType t ⟨p, []⟩).2.pool t (instantiateType t ⟨p, []⟩).1 f g := by
  have h := instantiateType_renames t
  have hfresh := h.fresh (fresh_start p)
  have hhole : ∀ i ∈ t.holes, ∃ v, (instantiateType t ⟨p, []⟩).2.find (typeKey i) = some v := fun i hi =>
    h.named _ _ (List.mem_append_left _ (List.mem_map_of_mem hi))
  have hrow : ∀ i ∈ rowVars t, ∃ v, (instantiateType t ⟨p, []⟩).2.find (rowKey i) = some v := fun i hi =>
    h.named _ _ (List.mem_append_right _ (List.mem_map_of_mem hi))
  refine ⟨_, _, h.result fun _ _ h => h, fun i hi => ?_, fun i hi => ?_, fun i hi j hj hij => ?_,
    fun i hi j hj hij => ?_⟩
  · obtain ⟨v, hv⟩ := hhole i hi
    rw [Renamer.typeName, hv]
    exact hfresh.name _ v hv
  · obtain ⟨v, hv⟩ := hrow i hi
    rw [Renamer.rowName, hv]
    exact hfresh.name _ v hv
  · obtain ⟨v, hv⟩ := hhole i hi
    obtain ⟨w, hw⟩ := hhole j hj
    rw [Renamer.typeName, Renamer.typeName, hv, hw] at hij
    obtain rfl : v = w := hij
    exact congrArg Prod.snd (hfresh.inj (typeKey i) (typeKey j) v rfl hv hw)
  · obtain ⟨v, hv⟩ := hrow i hi
    obtain ⟨w, hw⟩ := hrow j hj
    rw [Renamer.rowName, Renamer.rowName, hv, hw] at hij
    obtain rfl : v = w := hij
    exact congrArg Prod.snd (hfresh.inj (rowKey i) (rowKey j) v rfl hv hw)

theorem varsOfRow_rename (g : Nat → Nat) (r : Row) : varsOfRow (renameRow g r) = (varsOfRow r).map g := by
  induction r with
  | row labels tail ih => simpa [renameRow, varsOfRow] using ih
  | _ => rfl

theorem holes_rename (f g : Nat → Nat) (t : Ty) : (renameType f g t).holes = t.holes.map f := by
  induction t using Ty.inductOn with
  | step t ih =>
      cases t with
      | optional e | ptr e | slice e | manyPtr e | array e =>
          simpa [renameType, Ty.holes] using ih e (by simp [Ty.children])
      | fn ret params =>
          have hret := ih ret (by simp [Ty.children])
          have hparams : ∀ ps, (∀ q ∈ ps, (renameType f g q).holes = q.holes.map f) →
              Ty.holesAll (renameParams f g ps) = (Ty.holesAll ps).map f := by
            intro ps hps
            induction ps with
            | nil => rfl
            | cons q ps ihps =>
                have hq := hps q List.mem_cons_self
                have hrest := ihps fun r hr => hps r (List.mem_cons_of_mem _ hr)
                simp [renameParams, Ty.holesAll, hq, hrest]
          have hall := hparams params fun q hq => ih q (by simp [Ty.children, hq])
          simp [renameType, Ty.holes, hret, hall]
      | none | prim | var | other => rfl

theorem rowVars_rename (f g : Nat → Nat) (t : Ty) : rowVars (renameType f g t) = (rowVars t).map g := by
  induction t using Ty.inductOn with
  | step t ih =>
      cases t with
      | optional e | ptr e | slice e | manyPtr e | array e =>
          simpa [renameType, rowVars] using ih e (by simp [Ty.children])
      | fn ret params =>
          have hret := ih ret (by simp [Ty.children])
          have hparams : ∀ ps, (∀ q ∈ ps, rowVars (renameType f g q) = (rowVars q).map g) →
              rowVarsAll (renameParams f g ps) = (rowVarsAll ps).map g := by
            intro ps hps
            induction ps with
            | nil => rfl
            | cons q ps ihps =>
                have hq := hps q List.mem_cons_self
                have hrest := ihps fun r hr => hps r (List.mem_cons_of_mem _ hr)
                simp [renameParams, rowVarsAll, hq, hrest]
          have hall := hparams params fun q hq => ih q (by simp [Ty.children, hq])
          simp [renameType, rowVars, hret, hall, varsOfRow_rename]
      | none | prim | var | other => rfl

variable {f g : Nat → Nat}

theorem FreshCopy.made (h : FreshCopy p p' t u f g) :
    (∀ i ∈ u.holes, p.nextType < i ∧ i ≤ p'.nextType) ∧ ∀ i ∈ rowVars u, p.nextRow < i ∧ i ≤ p'.nextRow := by
  rw [h.renamed, holes_rename, rowVars_rename]
  constructor
  · intro i hi
    obtain ⟨j, hj, rfl⟩ := List.mem_map.mp hi
    exact h.hole j hj
  · intro i hi
    obtain ⟨j, hj, rfl⟩ := List.mem_map.mp hi
    exact h.row j hj

theorem FreshCopy.issued (h : FreshCopy p p' t u f g) : Issued p' u :=
  ⟨fun i hi => (h.made.1 i hi).2, fun i hi => (h.made.2 i hi).2⟩

/-- None of its variables was used before. -/
theorem FreshCopy.unused (h : FreshCopy p p' t u f g) {v : Ty} (hv : Issued p v) : Disjoint u v := by
  refine ⟨fun i hi hiv => ?_, fun i hi hiv => ?_⟩
  · have := h.made.1 i hi
    have := hv.hole i hiv
    omega
  · have := h.made.2 i hi
    have := hv.row i hiv
    omega

theorem Disjoint.symm (h : Disjoint t u) : Disjoint u t :=
  ⟨fun i hi hit => h.hole i hit hi, fun i hi hit => h.row i hit hi⟩

theorem Issued.mono (h : Issued p t) (hrow : p.nextRow ≤ p'.nextRow) (htype : p.nextType ≤ p'.nextType) :
    Issued p' t :=
  ⟨fun i hi => (h.hole i hi).trans htype, fun i hi => (h.row i hi).trans hrow⟩

/-- Every call site gets a copy of the function type in which all holes and all
row variables are renamed, one to one, to variables that no type made before
has; so two call sites of a function share none. -/
theorem instantiation_fresh (p : Pool) (ret : Ty) (params : List Ty) (modifiers comptimeBits typevaluedBits : Nat)
    (row : Row) :
    ∃ u p' f g,
      instantiateFnForCallSite p (.fn ret params modifiers comptimeBits typevaluedBits row) = (u, p') ∧
      FreshCopy p p' (.fn ret params modifiers comptimeBits typevaluedBits row) u f g ∧
      Issued p' u ∧ (∀ v, Issued p v → Issued p' v ∧ Disjoint u v) ∧
      ∀ p₂, p'.nextRow ≤ p₂.nextRow → p'.nextType ≤ p₂.nextType →
        Disjoint u
          (instantiateFnForCallSite p₂ (.fn ret params modifiers comptimeBits typevaluedBits row)).1 := by
  obtain ⟨f, g, hcopy⟩ := instantiateType_fresh p (.fn ret params modifiers comptimeBits typevaluedBits row)
  have hup := ((instantiateType_renames (.fn ret params modifiers comptimeBits typevaluedBits row)).fresh
    (fresh_start p)).up
  refine ⟨_, _, f, g, rfl, hcopy, hcopy.issued, fun v hv => ⟨hv.mono (hup false) (hup true), hcopy.unused hv⟩,
    fun p₂ hrow htype => ?_⟩
  obtain ⟨f₂, g₂, hcopy₂⟩ := instantiateType_fresh p₂ (.fn ret params modifiers comptimeBits typevaluedBits row)
  exact (hcopy₂.unused (hcopy.issued.mono hrow htype)).symm

theorem instantiation_fresh_apply : Disjoint
    (instantiateFnForCallSite ⟨1, 1⟩ (.fn (.optional (.var 1)) [.var 1] 0 1 0 (.row [4] (.var 1)))).1
    (instantiateFnForCallSite ⟨2, 2⟩ (.fn (.optional (.var 1)) [.var 1] 0 1 0 (.row [4] (.var 1)))).1 := by
  obtain ⟨u, p', f, g, heq, -, -, -, htwice⟩ :=
    instantiation_fresh ⟨1, 1⟩ (.optional (.var 1)) [.var 1] 0 1 0 (.row [4] (.var 1))
  have hpool : (⟨2, 2⟩ : Pool) = p' := congrArg Prod.snd heq
  rw [heq]
  exact htwice ⟨2, 2⟩ (by rw [← hpool]) (by rw [← hpool])

end CallSites

end Ore.Instantiation
