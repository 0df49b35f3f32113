import Mathlib.Logic.Relation
import Ore.DefIdentity

namespace Ore.DefIdentityRuns

open AstIds DefIdentity
open DefRowInvariant (Local)
open DefRowRetyping (defSetKind_cases lt_of_kind repoint vacated vacated_local)
open DefRows (Db SlotColumn dbIdsInit)
open EngineModel (QueryState orphanThreshold)
open NamespaceFingerprints (stableSort)
open NamespaceItems (DefKind Qsort)
open SlotRows (Table Cells Hot Rows fresh)

variable {q : Qsort} {w w' w₁ w₂ w₃ : World} {ns ns' name name' id id' : UInt32} {d d' e stored threshold : Nat}
  {db db' : Db} {t : Table Nat Unit Nat} {key key' : UInt64} {it : Item} {arr found : List Item} {g : Guard} {op : Op}
  {c : Cells Nat Unit Nat} {kind : DefKind} {seen : Option (List Item)}

section Keys

theorem identityKey_toNat (ns id : UInt32) : (identityKey ns id).toNat = ns.toNat * 2 ^ 32 + id.toNat := by
  have hshift : ns.toNat <<< 32 % 2 ^ 64 = ns.toNat <<< 32 := by
    apply Nat.mod_eq_of_lt
    rw [Nat.shiftLeft_eq]
    have hns := ns.toNat_lt
    omega
  have hor : (identityKey ns id).toNat = ns.toNat <<< 32 % 2 ^ 64 ||| id.toNat := by
    simp [identityKey, UInt64.toNat_or, UInt64.toNat_shiftLeft]
  rw [hor, hshift, ← Nat.shiftLeft_add_eq_or_of_lt id.toNat_lt, Nat.shiftLeft_eq]

theorem identityArgs_key (ns id : UInt32) : identityArgs (identityKey ns id) = (ns, id) := by
  have hid := id.toNat_lt
  have hns := ns.toNat_lt
  have hhigh : (identityKey ns id >>> 32).toUInt32 = ns := by
    apply UInt32.toNat_inj.mp
    rw [UInt64.toNat_toUInt32, UInt64.toNat_shiftRight, identityKey_toNat, show (32 : UInt64).toNat % 64 = 32 from rfl,
      Nat.shiftRight_eq_div_pow]
    omega
  have hlow : (identityKey ns id).toUInt32 = id := by
    apply UInt32.toNat_inj.mp
    rw [UInt64.toNat_toUInt32, identityKey_toNat]
    omega
  rw [identityArgs, hhigh, hlow]

theorem identityKey_inj (h : identityKey ns id = identityKey ns' id') : ns = ns' ∧ id = id' := by
  have hargs := congrArg identityArgs h
  rw [identityArgs_key, identityArgs_key] at hargs
  exact Prod.mk.inj hargs

end Keys

section Searching

theorem findItem_sound (h : findItem arr id = some it) : it ∈ arr ∧ it.id = id := by
  obtain ⟨r, hrun, rfl⟩ : ∃ r, Loop.run (findTurn arr id) (arr.length + 1) (0, arr.length) = some r ∧ r = some it := by
    rw [findItem, Option.join_eq_some_iff] at h
    exact ⟨_, h, rfl⟩
  refine Loop.run_ended (fun _ => True) (fun r => ∀ it, r = some it → it ∈ arr ∧ it.id = id) (fun _ _ _ _ => trivial) ?_
    trivial hrun it rfl
  intro s r _ hturn it hr
  subst hr
  simp only [findTurn] at hturn
  split_ifs at hturn
  · cases hmid : arr[s.1 + (s.2 - s.1) / 2]? with
    | none => simp [hmid] at hturn
    | some here =>
        simp only [hmid] at hturn
        split_ifs at hturn with hlt hgt
        simp only [Sum.inr.injEq, Option.some.injEq] at hturn
        subst hturn
        exact ⟨List.mem_of_getElem? hmid, UInt32.le_antisymm (UInt32.not_lt.mp hgt) (UInt32.not_lt.mp hlt)⟩
  · simp at hturn

/-- Among items in the order of their ids the search misses none. -/
theorem findItem_complete (hsorted : arr.Pairwise fun a b => a.id.toNat ≤ b.id.toNat) (hmem : it ∈ arr) :
    findItem arr it.id ≠ none := by
  obtain ⟨k, hk, hat⟩ := List.mem_iff_getElem.mp hmem
  have hle {i j : Nat} (hij : i ≤ j) (hj : j < arr.length) : arr[i].id.toNat ≤ arr[j].id.toNat := by
    rcases Nat.lt_or_eq_of_le hij with hlt | rfl
    · exact List.pairwise_iff_getElem.mp hsorted i j (by omega) hj hlt
    · exact Nat.le_refl _
  obtain ⟨r, hrun, hpost⟩ := Loop.run_spec (findTurn arr it.id) (fun s => s.1 ≤ k ∧ k < s.2 ∧ s.2 ≤ arr.length)
    (fun r => r ≠ none) (fun s => s.2 - s.1) (by
      rintro ⟨lo, hi⟩ s' ⟨hlo, hhi, hlen⟩ hturn
      simp only at hlo hhi hlen
      have hmid : lo + (hi - lo) / 2 < arr.length := by omega
      simp only [findTurn, if_pos (show lo < hi by omega), List.getElem?_eq_getElem hmid] at hturn
      split_ifs at hturn with hlt hgt
      · simp only [Sum.inl.injEq] at hturn
        subst hturn
        have hafter : lo + (hi - lo) / 2 < k := by
          by_contra hnot
          have hids := hle (Nat.not_lt.mp hnot) hmid
          rw [hat] at hids
          exact Nat.not_lt.mpr hids (UInt32.lt_iff_toNat_lt.mp hlt)
        exact ⟨⟨hafter, hhi, hlen⟩, by simp only; omega⟩
      · simp only [Sum.inl.injEq] at hturn
        subst hturn
        have hbefore : k < lo + (hi - lo) / 2 := by
          by_contra hnot
          have hids := hle (Nat.not_lt.mp hnot) hk
          rw [hat] at hids
          exact Nat.not_lt.mpr hids (UInt32.lt_iff_toNat_lt.mp hgt)
        exact ⟨⟨hlo, hbefore, Nat.le_of_lt hmid⟩, by simp only; omega⟩) (by
      rintro ⟨lo, hi⟩ r ⟨hlo, hhi, hlen⟩ hturn
      simp only at hlo hhi hlen
      have hmid : lo + (hi - lo) / 2 < arr.length := by omega
      simp only [findTurn, if_pos (show lo < hi by omega), List.getElem?_eq_getElem hmid] at hturn
      split_ifs at hturn
      rw [← Sum.inr.inj hturn]
      exact Option.some_ne_none _) (arr.length + 1) (0, arr.length) ⟨Nat.zero_le k, hk, Nat.le_refl _⟩ (by simp)
  rw [findItem, hrun]
  exact hpost

theorem findItem_namespaceItems (h : findItem (namespaceItems q found) id = some it) : it ∈ found ∧ it.id = id := by
  obtain ⟨hmem, hid⟩ := findItem_sound h
  exact ⟨(NamespaceFingerprints.Qsort.sort_perm q _ found).mem_iff.mp hmem, hid⟩

theorem findItem_declared (hmem : it ∈ found) : findItem (namespaceItems q found) it.id ≠ none :=
  findItem_complete (NamespaceFingerprints.Qsort.sort_sorted q _ found)
    ((NamespaceFingerprints.Qsort.sort_perm q _ found).mem_iff.mpr hmem)

end Searching

section Reading

theorem read_alloc (h : Rows t) (key key' : UInt64) :
    identityRead (t.slotAlloc key) key' = identityRead t key' := by
  rw [identityRead, (h.slotAlloc key).2]
  split
  · rename_i hnone
    by_cases heq : key' = key
    · subst heq
      rw [Function.update_self, identityRead, h.view_none.mpr hnone]
      rfl
    · rw [Function.update_of_ne heq, identityRead]
  · rfl

theorem view_alloc (h : Rows t) (key : UInt64) :
    ∃ c, (t.slotAlloc key).view key = some c ∧ c.result = identityRead t key := by
  have hread := read_alloc h key key
  have hview : (t.slotAlloc key).view key ≠ none := by
    rw [(h.slotAlloc key).2]
    split
    · rw [Function.update_self]
      exact Option.some_ne_none _
    · rename_i hsome
      exact mt h.view_none.mp hsome
  obtain ⟨c, hc⟩ := Option.ne_none_iff_exists'.mp hview
  rw [identityRead, hc] at hread
  exact ⟨c, hc, hread⟩

theorem read_compute (h : Rows t) (hview : t.view key ≠ none) (c : Cells Nat Unit Nat) (key' : UInt64) :
    identityRead (t.compute key c) key' = if key' = key then c.result else identityRead t key' := by
  rw [identityRead, (h.compute key c).2, if_neg (mt h.view_none.mpr hview)]
  by_cases heq : key' = key
  · rw [if_pos heq, heq, Function.update_self]
    rfl
  · rw [if_neg heq, Function.update_of_ne heq, identityRead]

theorem read_reclaim (h : Rows t) (free : Cells Nat Unit Nat → Cells Nat Unit Nat) (key : UInt64) :
    identityRead (t.reclaimHashmapKind free threshold) key =
      if (t.view key).any (Table.isOrphan threshold) then 0 else identityRead t key := by
  rw [identityRead, (h.reclaimed free threshold).view_eq h, identityRead]
  cases t.view key with
  | none => rfl
  | some c => cases horphan : Table.isOrphan threshold c <;> simp [Option.filter, horphan]

end Reading

section Definitions

/-- The columns of the definitions have one length. -/
structure Level (db : Db) : Prop where
  names : db.names.length = db.kinds.length
  parentModules : db.parentModules.length = db.kinds.length
  pos : 0 < db.kinds.length

/-- A definition is that of an item. -/
structure Recorded (db : Db) (d : Nat) (ns name : UInt32) : Prop where
  name : db.names[d]? = some name.toNat
  ns : db.parentModules[d]? = some ns.toNat

/-- No definition is forgotten or given to another item. -/
structure Kept (db db' : Db) : Prop where
  level : Level db'
  grown : db.kinds.length ≤ db'.kinds.length
  recorded : ∀ d ns name, Recorded db d ns name → Recorded db' d ns name

theorem Recorded.inj (h : Recorded db d ns name) (h' : Recorded db d ns' name') : ns = ns' ∧ name = name' := by
  have hns := h.ns.symm.trans h'.ns
  have hname := h.name.symm.trans h'.name
  exact ⟨UInt32.toNat_inj.mp (Option.some.inj hns), UInt32.toNat_inj.mp (Option.some.inj hname)⟩

theorem Kept.refl (h : Level db) : Kept db db := ⟨h, Nat.le_refl _, fun _ _ _ => id⟩

theorem Kept.trans {db'' : Db} (h : Kept db db') (h' : Kept db' db'') : Kept db db'' :=
  ⟨h'.level, Nat.le_trans h.grown h'.grown, fun d ns name hrec => h'.recorded d ns name (h.recorded d ns name hrec)⟩

theorem Kept.of_same (h : Level db) (hnames : db'.names = db.names) (hparents : db'.parentModules = db.parentModules)
    (hkinds : db'.kinds.length = db.kinds.length) : Kept db db' := by
  refine ⟨⟨?_, ?_, ?_⟩, Nat.le_of_eq hkinds.symm, fun d ns name hrec => ⟨?_, ?_⟩⟩
  · rw [hnames, hkinds, h.names]
  · rw [hparents, hkinds, h.parentModules]
  · rw [hkinds]
    exact h.pos
  · rw [hnames]
    exact hrec.name
  · rw [hparents]
    exact hrec.ns

theorem Kept.of_local {k : DefKind} {i : Nat} (h : Level db) (hlocal : Local k i d db db') : Kept db db' := by
  have hrest := hlocal.rest
  apply Kept.of_same h <;> rw [hrest]

theorem defSetKind_kept (h : Level db) (hset : db.defSetKind d kind = some db') : Kept db db' := by
  by_cases hsame : db.kind d = kind
  · rw [Db.defSetKind] at hset
    split_ifs at hset with hlen
    rw [← Option.some.inj hset]
    exact .refl h
  · obtain ⟨-, -, rfl⟩ := defSetKind_cases hset hsame
    have hrest := (vacated_local db d kind).rest
    apply Kept.of_same h
    · rw [repoint, hrest]
      rfl
    · rw [repoint, hrest]
      rfl
    · rw [repoint, hrest, List.length_set]
      rfl

theorem classify_some (kind : DefKind) (h : d < db.kinds.length) : ∃ db', classify db d kind = some db' := by
  rw [classify]
  split_ifs with hkind
  · rw [Db.defSetKind, if_neg (Nat.not_le.mpr h)]
    split_ifs
    · exact ⟨_, rfl⟩
    · exact absurd ‹_› hkind.2
    · exact ⟨_, rfl⟩
  · exact ⟨_, rfl⟩

theorem classify_kept (h : Level db) (hclassify : classify db d kind = some db') : Kept db db' := by
  rw [classify] at hclassify
  split_ifs at hclassify
  · exact defSetKind_kept h hclassify
  · rw [← Option.some.inj hclassify]
    exact .refl h

theorem reclaimTypeSlots_kept (h : Level db) : Kept db (db.reclaimTypeSlots threshold) := by
  rw [Db.reclaimTypeSlots]
  generalize List.range' 1 (db.kinds.length - 1) = ds
  induction ds generalizing db with
  | nil => exact .refl h
  | cons d ds ih =>
      rw [List.foldl_cons]
      have hfirst : Kept db (if db.kind d = .none then db else
          db.reclaimDefTypeSlots (db.kind d) (db.row d) d threshold) := by
        split
        · exact .refl h
        · exact .of_local h DefRowInvariant.reclaimDefTypeSlots_local
      exact hfirst.trans (ih hfirst.level)

theorem mint_kept (ns id : UInt32) (it : Item) (h : Level db) (hcount : stored = 0 → db.kinds.length < 2 ^ 32) :
    Kept db (mint db ns id it stored).2 ∧ (mint db ns id it stored).1 ≠ 0 ∧
      (stored ≠ 0 → (mint db ns id it stored).1 = stored) := by
  rw [mint]
  split_ifs with hzero
  · have hd : db.createDef.1 = db.names.length := Nat.mod_eq_of_lt (h.names ▸ hcount hzero)
    have hparents : db.parentModules.length = db.names.length := h.parentModules.trans h.names.symm
    have hpos := h.names ▸ h.pos
    refine ⟨⟨⟨?_, ?_, ?_⟩, ?_, ?_⟩, ?_, fun hne => absurd hzero hne⟩
    · simp [writeDefIdentity, Db.createDef, h.names]
    · simp [writeDefIdentity, Db.createDef, h.parentModules]
    · simp [writeDefIdentity, Db.createDef]
    · simp [writeDefIdentity, Db.createDef]
    · intro d ns' name' hrec
      have hold := (List.getElem?_eq_some_iff.mp hrec.name).1
      have hne : db.createDef.1 ≠ d := by omega
      constructor
      · rw [writeDefIdentity, List.getElem?_set_ne hne, Db.createDef, List.getElem?_append_left hold]
        exact hrec.name
      · rw [writeDefIdentity, List.getElem?_set_ne hne, Db.createDef, List.getElem?_append_left (hparents ▸ hold)]
        exact hrec.ns
    · rw [hd]
      exact Nat.ne_of_gt hpos
  · exact ⟨.refl h, hzero, fun _ => rfl⟩

theorem mint_lt (ns id : UInt32) (it : Item) (h : Level db) (hcount : stored = 0 → db.kinds.length < 2 ^ 32)
    (hstored : stored ≠ 0 → stored < db.kinds.length) :
    (mint db ns id it stored).1 < (mint db ns id it stored).2.kinds.length := by
  rw [mint]
  split_ifs with hzero
  · have hd : db.createDef.1 = db.kinds.length := h.names ▸ Nat.mod_eq_of_lt (h.names ▸ hcount hzero)
    rw [hd]
    simp [writeDefIdentity, Db.createDef]
  · exact hstored hzero

theorem mint_recorded (id : UInt32) (h : Level db) (hcount : stored = 0 → db.kinds.length < 2 ^ 32)
    (hstored : stored ≠ 0 → Recorded db stored ns it.name) :
    Recorded (mint db ns id it stored).2 (mint db ns id it stored).1 ns it.name := by
  rw [mint]
  split_ifs with hzero
  · have hd : db.createDef.1 = db.names.length := Nat.mod_eq_of_lt (h.names ▸ hcount hzero)
    have hparents : db.parentModules.length = db.names.length := h.parentModules.trans h.names.symm
    rw [hd]
    constructor
    · simp [writeDefIdentity, Db.createDef]
    · simp [writeDefIdentity, Db.createDef, hparents]
  · exact hstored hzero

end Definitions

section Asking

/-- What a query of DEF_IDENTITY does to the slots and the definitions. -/
structure Asked (q : Qsort) (w : World) (ns id : UInt32) (g : Guard) (d : Nat) (w' : World) : Prop where
  rows : Rows w'.table
  items : w'.items = w.items
  others : ∀ key, key ≠ identityKey ns id → identityRead w'.table key = identityRead w.table key
  answer : match g with
    | .refused => d = 0 ∧ w'.db = w.db ∧
        identityRead w'.table (identityKey ns id) = identityRead w.table (identityKey ns id)
    | .cached _ => d = identityRead w.table (identityKey ns id) ∧ w'.db = w.db ∧
        identityRead w'.table (identityKey ns id) = d
    | .compute seen => seen.all (·.isSublist (w.items ns)) ∧
        resolve w.db ns id (namespaceItems q (seen.getD (w.items ns))) (identityRead w.table (identityKey ns id)) =
          some (d, w'.db) ∧
        identityRead w'.table (identityKey ns id) = d

theorem read_written (h : Rows t) (key : UInt64) (c : Cells Nat Unit Nat) :
    Rows ((t.slotAlloc key).compute key c) ∧
      ∀ key', identityRead ((t.slotAlloc key).compute key c) key' =
        if key' = key then c.result else identityRead t key' := by
  have hrows := (h.slotAlloc key).1
  obtain ⟨old, hold, -⟩ := view_alloc h key
  refine ⟨(hrows.compute key c).1, fun key' => ?_⟩
  rw [read_compute hrows (by simp [hold]), read_alloc h]

theorem settled_result (c : Cells Nat Unit Nat) (canceled : Bool) (rev : Nat) :
    (settled c d canceled rev).result = d := by
  cases canceled <;> rfl

theorem queryDefIdentity_asked (hrows : Rows w.table) (h : queryDefIdentity q w ns id g = some (d, w')) :
    Asked q w ns id g d w' := by
  obtain ⟨c, hc, hresult⟩ := view_alloc hrows (identityKey ns id)
  cases g with
  | refused =>
      simp only [queryDefIdentity, Option.some.injEq, Prod.mk.injEq] at h
      obtain ⟨rfl, rfl⟩ := h
      exact ⟨(hrows.slotAlloc _).1, rfl, fun key _ => read_alloc hrows _ key, rfl, rfl, read_alloc hrows _ _⟩
  | cached eff =>
      simp only [queryDefIdentity, hc, Option.bind_some] at h
      split_ifs at h
      simp only [Option.some.injEq, Prod.mk.injEq] at h
      obtain ⟨rfl, rfl⟩ := h
      obtain ⟨hrows', hread⟩ := read_written hrows (identityKey ns id)
        { c with hot := { c.hot with verifiedRev := eff } }
      refine ⟨hrows', rfl, fun key hkey => ?_, hresult, rfl, ?_⟩
      · rw [hread, if_neg hkey]
      · rw [hread, if_pos rfl]
  | compute seen =>
      simp only [queryDefIdentity, hc, Option.bind_some] at h
      split_ifs at h with hseen
      simp only [Option.map_eq_some_iff, Prod.mk.injEq, Prod.exists] at h
      obtain ⟨d', db, hresolve, rfl, rfl⟩ := h
      obtain ⟨hrows', hread⟩ := read_written hrows (identityKey ns id) (settled c d' seen.isSome w.current)
      refine ⟨hrows', rfl, fun key hkey => ?_, hseen, hresult ▸ hresolve, ?_⟩
      · rw [hread, if_neg hkey]
      · rw [hread, if_pos rfl, settled_result]

/-- The body keeps the DefId of an item and mints one where there is none. -/
theorem resolve_kept (h : Level db) (hcount : stored = 0 → db.kinds.length < 2 ^ 32)
    (hstored : stored ≠ 0 → stored < db.kinds.length)
    (hresolve : resolve db ns id (namespaceItems q found) stored = some (d, db')) :
    Kept db db' ∧ (d ≠ 0 → d < db'.kinds.length) ∧
      ((∃ it ∈ found, it.id = id) → d ≠ 0 ∧ (stored ≠ 0 → d = stored)) := by
  rw [resolve] at hresolve
  cases hfind : findItem (namespaceItems q found) id with
  | none =>
      simp only [hfind, Option.some.injEq, Prod.mk.injEq] at hresolve
      obtain ⟨rfl, rfl⟩ := hresolve
      refine ⟨.refl h, fun hne => absurd rfl hne, ?_⟩
      rintro ⟨it, hmem, rfl⟩
      exact absurd hfind (findItem_declared hmem)
  | some it =>
      obtain ⟨hkept, hne, hsame⟩ := mint_kept ns id it h hcount
      have hlt := mint_lt ns id it h hcount hstored
      simp only [hfind, Option.map_eq_some_iff, Prod.mk.injEq] at hresolve
      obtain ⟨db'', hclassify, rfl, rfl⟩ := hresolve
      have hkept' := classify_kept hkept.level hclassify
      exact ⟨hkept.trans hkept', fun _ => Nat.lt_of_lt_of_le hlt hkept'.grown, fun _ => ⟨hne, hsame⟩⟩

theorem resolve_recorded (h : Level db) (hcount : stored = 0 → db.kinds.length < 2 ^ 32)
    (hname : ∀ it ∈ found, it.id = id → it.name = name) (hstored : stored ≠ 0 → Recorded db stored ns name)
    (hresolve : resolve db ns id (namespaceItems q found) stored = some (d, db')) (hne : d ≠ 0) :
    Recorded db' d ns name := by
  rw [resolve] at hresolve
  cases hfind : findItem (namespaceItems q found) id with
  | none =>
      simp only [hfind, Option.some.injEq, Prod.mk.injEq] at hresolve
      exact absurd hresolve.1.symm hne
  | some it =>
      obtain ⟨hmem, hid⟩ := findItem_namespaceItems hfind
      have hlevel := (mint_kept ns id it h hcount).1.level
      rw [← hname it hmem hid] at hstored ⊢
      have hrec := mint_recorded id h hcount hstored
      simp only [hfind, Option.map_eq_some_iff, Prod.mk.injEq] at hresolve
      obtain ⟨db'', hclassify, rfl, rfl⟩ := hresolve
      exact (classify_kept hlevel hclassify).recorded _ _ _ hrec

theorem resolve_some (ns id : UInt32) (arr : List Item) (h : Level db) (hcount : stored = 0 → db.kinds.length < 2 ^ 32)
    (hstored : stored ≠ 0 → stored < db.kinds.length) : ∃ d db', resolve db ns id arr stored = some (d, db') := by
  rw [resolve]
  cases findItem arr id with
  | none => exact ⟨_, _, rfl⟩
  | some it =>
      obtain ⟨db', hclassify⟩ := classify_some it.kind (mint_lt ns id it h hcount hstored)
      exact ⟨(mint db ns id it stored).1, db', by simp only [hclassify, Option.map_some]⟩

end Asking

def storedId (w : World) (ns name : UInt32) : Nat := identityRead w.table (identityKey ns (astIdCompute name))

def Declared (w : World) (ns name : UInt32) : Prop := ∃ it ∈ w.items ns, it.name = name

def Addressed (w : World) : Op → Prop
  | .identity ns name _ => storedId w ns name = 0 → w.db.kinds.length < 2 ^ 32
  | _ => True

/-- The names in use come from the first 4.5 MiB of the pool's text. -/
def Small (w : World) (op : Op) : Prop :=
  Addressed w op ∧
    match op with
    | .edit _ found => ∀ it ∈ found, it.name.toNat < firstShared
    | .identity _ name _ => name.toNat < firstShared
    | .requestEnd => True

/-- No item that is declared loses its slot at the end of a request, or is missing from what
a canceled computation sees. -/
def Steady (w : World) (op : Op) : Prop :=
  Addressed w op ∧
    match op with
    | .edit _ _ => True
    | .identity ns name g => ∀ seen, g = .compute (some seen) → storedId w ns name ≠ 0 →
        (∃ it ∈ w.items ns, it.id = astIdCompute name) → ∃ it ∈ seen, it.id = astIdCompute name
    | .requestEnd => ∀ ns name, Declared w ns name → storedId w ns name ≠ 0 →
        ¬ (w.table.view (identityKey ns (astIdCompute name))).any (Table.isOrphan (w.current - orphanThreshold))

def Moves (q : Qsort) (meets : World → Op → Prop) (w w' : World) : Prop :=
  ∃ op d, step q w op = some (d, w') ∧ meets w op

/-- Each stored DefId is that of a definition. -/
structure Valid (w : World) : Prop where
  rows : Rows w.table
  level : Level w.db
  stored : ∀ key, identityRead w.table key ≠ 0 → identityRead w.table key < w.db.kinds.length

/-- Each stored DefId is that of the item it is stored for. -/
structure Exact (w : World) : Prop extends Valid w where
  bounded : ∀ ns, ∀ it ∈ w.items ns, it.name.toNat < firstShared
  recorded : ∀ ns name, name.toNat < firstShared → storedId w ns name ≠ 0 →
    Recorded w.db (storedId w ns name) ns name

section Steps

theorem seen_mem {items : List Item} (hseen : seen.all (·.isSublist items)) (hmem : it ∈ seen.getD items) :
    it ∈ items := by
  cases seen with
  | none => exact hmem
  | some seen =>
      simp only [Option.all_some, List.isSublist_iff_sublist] at hseen
      exact hseen.subset hmem

theorem requestEnd_cases (h : step q w .requestEnd = some (d, w')) : w' = w ∨
    w' = { w with
      table := w.table.reclaimHashmapKind (fun c => c) (w.current - orphanThreshold)
      db := w.db.reclaimTypeSlots (w.current - orphanThreshold) } := by
  simp only [step, Option.some.injEq, Prod.mk.injEq] at h
  obtain ⟨-, rfl⟩ := h
  by_cases hlate : w.current > orphanThreshold
  · right
    rw [if_pos hlate, if_pos (Nat.sub_pos_of_lt hlate)]
    rfl
  · left
    rw [if_neg hlate, if_neg (Nat.lt_irrefl 0)]

/-- What a step does to the slots and the definitions: a key reads what it did before, or
nothing, or what the query for it has answered. -/
structure Stepped (w : World) (op : Op) (d : Nat) (w' : World) : Prop where
  rows : Rows w'.table
  kept : Kept w.db w'.db
  stored : ∀ key, identityRead w'.table key = identityRead w.table key ∨ identityRead w'.table key = 0 ∨
    identityRead w'.table key = d ∧ d < w'.db.kinds.length ∧
      ∃ ns name g, op = .identity ns name g ∧ key = identityKey ns (astIdCompute name)

theorem query_stepped (hv : Valid w) (h : step q w (.identity ns name g) = some (d, w'))
    (hcount : Addressed w (.identity ns name g)) : Stepped w (.identity ns name g) d w' := by
  have hasked := queryDefIdentity_asked hv.rows h
  have hanswer := hasked.answer
  cases g with
  | refused | cached =>
      obtain ⟨hd, hdb, hsame⟩ := hanswer
      refine ⟨hasked.rows, ?_, fun key => .inl ?_⟩
      · rw [hdb]
        exact .refl hv.level
      · by_cases hkey : key = identityKey ns (astIdCompute name)
        · simp only [hkey, hsame, hd]
        · exact hasked.others key hkey
  | compute seen =>
      obtain ⟨-, hresolve, hsame⟩ := hanswer
      obtain ⟨hkept, hlt, -⟩ := resolve_kept hv.level hcount (hv.stored _) hresolve
      refine ⟨hasked.rows, hkept, fun key => ?_⟩
      by_cases hkey : key = identityKey ns (astIdCompute name)
      · rw [hkey, hsame]
        by_cases hzero : d = 0
        · exact .inr (.inl hzero)
        · exact .inr (.inr ⟨rfl, hlt hzero, ns, name, _, rfl, rfl⟩)
      · exact .inl (hasked.others key hkey)

theorem step_stepped (hv : Valid w) (h : step q w op = some (d, w')) (hcount : Addressed w op) :
    Stepped w op d w' := by
  cases op with
  | edit ns found =>
      simp only [step, Option.some.injEq, Prod.mk.injEq] at h
      obtain ⟨-, rfl⟩ := h
      exact ⟨hv.rows, .refl hv.level, fun key => .inl rfl⟩
  | identity ns name g => exact query_stepped hv h hcount
  | requestEnd =>
      rcases requestEnd_cases h with rfl | rfl
      · exact ⟨hv.rows, .refl hv.level, fun key => .inl rfl⟩
      · refine ⟨(hv.rows.reclaimed _ _).rows hv.rows, reclaimTypeSlots_kept hv.level, fun key => ?_⟩
        rw [read_reclaim hv.rows]
        split
        · exact .inr (.inl rfl)
        · exact .inl rfl

theorem step_valid (hv : Valid w) (h : step q w op = some (d, w')) (hcount : Addressed w op) : Valid w' := by
  have hstepped := step_stepped hv h hcount
  refine ⟨hstepped.rows, hstepped.kept.level, fun key hne => ?_⟩
  rcases hstepped.stored key with hsame | hzero | ⟨hd, hlt, -⟩
  · rw [hsame] at hne ⊢
    exact Nat.lt_of_lt_of_le (hv.stored key hne) hstepped.kept.grown
  · exact absurd hzero hne
  · rw [hd]
    exact hlt

theorem answer_recorded (he : Exact w) (h : step q w (.identity ns name g) = some (d, w'))
    (hsmall : Small w (.identity ns name g)) (hne : d ≠ 0) : Recorded w'.db d ns name := by
  have hasked := queryDefIdentity_asked he.rows h
  have hanswer := hasked.answer
  obtain ⟨hcount, hname⟩ := hsmall
  cases g with
  | refused => exact absurd hanswer.1 hne
  | cached eff =>
      obtain ⟨rfl, hdb, -⟩ := hanswer
      rw [hdb]
      exact he.recorded ns name hname hne
  | compute seen =>
      obtain ⟨hseen, hresolve, -⟩ := hanswer
      apply resolve_recorded he.level hcount _ (he.recorded ns name hname) hresolve hne
      intro it hmem hid
      exact low_inj (he.bounded ns it (seen_mem hseen hmem)) hname hid

theorem step_exact (he : Exact w) (h : step q w op = some (d, w')) (hsmall : Small w op) : Exact w' := by
  have hstepped := step_stepped he.toValid h hsmall.1
  refine { step_valid he.toValid h hsmall.1 with bounded := ?_, recorded := ?_ }
  · cases op with
    | edit ns found =>
        simp only [step, Option.some.injEq, Prod.mk.injEq] at h
        obtain ⟨-, rfl⟩ := h
        intro ns'
        by_cases heq : ns' = ns
        · simp only [heq, Function.update_self]
          exact hsmall.2
        · simp only [Function.update_of_ne heq]
          exact he.bounded ns'
    | identity ns name g =>
        rw [(queryDefIdentity_asked he.rows h).items]
        exact he.bounded
    | requestEnd =>
        rcases requestEnd_cases h with rfl | rfl <;> exact he.bounded
  · intro ns name hname hne
    rcases hstepped.stored (identityKey ns (astIdCompute name)) with hsame | hzero | ⟨hd, -, ns', name', g, rfl, hkey⟩
    · rw [storedId, hsame] at hne ⊢
      exact hstepped.kept.recorded _ _ _ (he.recorded ns name hname hne)
    · exact absurd hzero hne
    · rw [storedId, hd] at hne ⊢
      obtain ⟨rfl, hids⟩ := identityKey_inj hkey
      rw [low_inj hname hsmall.2 hids]
      exact answer_recorded he h hsmall hne

theorem answer_kept (hv : Valid w) (h : step q w (.identity ns name g) = some (d, w'))
    (hsteady : Steady w (.identity ns name g)) (hg : g ≠ .refused)
    (hdeclared : ∃ it ∈ w.items ns, it.id = astIdCompute name) (hne : storedId w ns name ≠ 0) :
    d = storedId w ns name := by
  have hanswer := (queryDefIdentity_asked hv.rows h).answer
  cases g with
  | refused => exact absurd rfl hg
  | cached eff => exact hanswer.1
  | compute seen =>
      have hfound : ∃ it ∈ seen.getD (w.items ns), it.id = astIdCompute name := by
        cases seen with
        | none => exact hdeclared
        | some seen => exact hsteady.2 seen rfl hne hdeclared
      exact ((resolve_kept hv.level hsteady.1 (hv.stored _) hanswer.2.1).2.2 hfound).2 hne

theorem step_kept (hv : Valid w) (h : step q w op = some (d, w')) (hsteady : Steady w op)
    (hdeclared : Declared w ns name) (hne : storedId w ns name ≠ 0) : storedId w' ns name = storedId w ns name := by
  cases op with
  | edit ns' found =>
      simp only [step, Option.some.injEq, Prod.mk.injEq] at h
      obtain ⟨-, rfl⟩ := h
      rfl
  | identity ns' name' g =>
      have hasked := queryDefIdentity_asked hv.rows h
      have hanswer := hasked.answer
      by_cases hkey : identityKey ns (astIdCompute name) = identityKey ns' (astIdCompute name')
      · have hsame : storedId w ns name = storedId w ns' name' := by rw [storedId, storedId, hkey]
        rw [hsame] at hne ⊢
        rw [storedId, hkey]
        cases g with
        | refused => exact hanswer.2.2
        | cached eff => exact hanswer.2.2.trans hanswer.1
        | compute seen =>
            obtain ⟨rfl, hids⟩ := identityKey_inj hkey
            obtain ⟨it, hmem, rfl⟩ := hdeclared
            exact hanswer.2.2.trans (answer_kept hv h hsteady (by simp) ⟨it, hmem, hids⟩ hne)
      · exact hasked.others _ hkey
  | requestEnd =>
      rcases requestEnd_cases h with rfl | rfl
      · rfl
      · rw [storedId, read_reclaim hv.rows, if_neg (hsteady.2 ns name hdeclared hne), storedId]

end Steps

section Starting

theorem seedPrimitives_level (primitives : List UInt32) (h : Level db) : Level (seedPrimitives primitives db) := by
  induction primitives generalizing db with
  | nil => exact h
  | cons name primitives ih =>
      apply ih
      constructor
      · simp [Db.createDef, h.names]
      · simp [Db.createDef, h.parentModules]
      · simp [Db.createDef]

theorem start_exact (primitives : List UInt32) : Exact (start primitives) := by
  have hread (key : UInt64) : identityRead (start primitives).table key = 0 := rfl
  refine { rows := SlotRows.initial_rows, level := seedPrimitives_level primitives ⟨rfl, rfl, Nat.one_pos⟩,
           stored := ?_, bounded := ?_, recorded := ?_ }
  · exact fun key hne => absurd (hread key) hne
  · intro ns it hmem
    cases hmem
  · exact fun ns name _ hne => absurd (hread _) hne

end Starting

section Runs

open Relation (ReflTransGen)

theorem run_valid (hv : Valid w) {meets : World → Op → Prop} (hmeets : ∀ w op, meets w op → Addressed w op)
    (h : ReflTransGen (Moves q meets) w w') : Valid w' := by
  induction h with
  | refl => exact hv
  | tail _ hmove ih =>
      obtain ⟨op, d, hstep, hop⟩ := hmove
      exact step_valid ih hstep (hmeets _ _ hop)

theorem run_exact (he : Exact w) (h : ReflTransGen (Moves q Small) w w') : Exact w' ∧ Kept w.db w'.db := by
  induction h with
  | refl => exact ⟨he, .refl he.level⟩
  | tail _ hmove ih =>
      obtain ⟨op, d, hstep, hop⟩ := hmove
      obtain ⟨he', hkept⟩ := ih
      exact ⟨step_exact he' hstep hop, hkept.trans (step_stepped he'.toValid hstep hop.1).kept⟩

/-- While an item is declared its DefId stays. -/
theorem run_kept (hv : Valid w) (hdeclared : Declared w ns name) (hne : storedId w ns name ≠ 0)
    (h : ReflTransGen (fun w w' => Moves q Steady w w' ∧ Declared w' ns name) w w') :
    Valid w' ∧ Declared w' ns name ∧ storedId w' ns name = storedId w ns name := by
  induction h with
  | refl => exact ⟨hv, hdeclared, rfl⟩
  | tail _ hmove ih =>
      obtain ⟨hv', hdeclared', hsame⟩ := ih
      obtain ⟨⟨op, d, hstep, hop⟩, hdeclared''⟩ := hmove
      refine ⟨step_valid hv' hstep hop.1, hdeclared'', ?_⟩
      rw [step_kept hv' hstep hop hdeclared' (hsame ▸ hne), hsame]

end Runs

section Identity

open Relation (ReflTransGen)

/-- The declared items have AstIds and routing keys of their own. -/
structure Apart (w : World) : Prop where
  ids : ∀ ns name ns' name', Declared w ns name → Declared w ns' name' →
    astIdCompute name' = astIdCompute name → name' = name
  keys : ∀ ns name ns' name', Declared w ns name → Declared w ns' name' →
    identityKey ns' (astIdCompute name') = identityKey ns (astIdCompute name) → ns' = ns ∧ name' = name

/-- A DefId that an item is given is never given to another one. -/
def Own (q : Qsort) (w : World) : Prop :=
  ∀ ns name g d w₁, step q w (.identity ns name g) = some (d, w₁) → Small w (.identity ns name g) → d ≠ 0 →
    ∀ w₂, ReflTransGen (Moves q Small) w₁ w₂ →
      ∀ ns' name' g' w₃, step q w₂ (.identity ns' name' g') = some (d, w₃) → Small w₂ (.identity ns' name' g') →
        ns' = ns ∧ name' = name

/-- A declared item is given a DefId. -/
def Given (q : Qsort) (w : World) : Prop :=
  ∀ ns name, Declared w ns name → Addressed w (.identity ns name (.compute none)) →
    ∃ d w', step q w (.identity ns name (.compute none)) = some (d, w') ∧ d ≠ 0

/-- A DefId that an item is given is given to it again, as long as it stays declared. -/
def Stable (q : Qsort) (w : World) : Prop :=
  ∀ ns name g d w₁, step q w (.identity ns name g) = some (d, w₁) → Addressed w (.identity ns name g) → d ≠ 0 →
    Declared w ns name →
      ∀ w₂, ReflTransGen (fun w w' => Moves q Steady w w' ∧ Declared w' ns name) w₁ w₂ →
        ∀ g' d' w₃, step q w₂ (.identity ns name g') = some (d', w₃) → Steady w₂ (.identity ns name g') →
          g' ≠ .refused → d' = d

theorem Exact.apart (he : Exact w) : Apart w := by
  have hids (ns name ns' name' : UInt32) (h : Declared w ns name) (h' : Declared w ns' name')
      (heq : astIdCompute name' = astIdCompute name) : name' = name := by
    obtain ⟨it, hmem, rfl⟩ := h
    obtain ⟨it', hmem', rfl⟩ := h'
    exact low_inj (he.bounded ns' it' hmem') (he.bounded ns it hmem) heq
  refine ⟨hids, fun ns name ns' name' h h' heq => ?_⟩
  obtain ⟨hns, hid⟩ := identityKey_inj heq
  exact ⟨hns, hids ns name ns' name' h h' hid⟩

theorem Exact.own (he : Exact w) : Own q w := by
  intro ns name g d w₁ h hsmall hne w₂ hrun ns' name' g' w₃ h' hsmall'
  have hrec := answer_recorded he h hsmall hne
  obtain ⟨he₂, hkept⟩ := run_exact (step_exact he h hsmall) hrun
  have hkept' := (step_stepped he₂.toValid h' hsmall'.1).kept
  exact (answer_recorded he₂ h' hsmall' hne).inj (hkept'.recorded _ _ _ (hkept.recorded _ _ _ hrec))

theorem Valid.given (hv : Valid w) : Given q w := by
  intro ns name hdeclared hcount
  obtain ⟨c, hc, hresult⟩ := view_alloc hv.rows (identityKey ns (astIdCompute name))
  obtain ⟨d, db, hresolve⟩ := resolve_some ns (astIdCompute name) (namespaceItems q (w.items ns)) hv.level hcount
    (hv.stored _)
  obtain ⟨it, hmem, rfl⟩ := hdeclared
  have hne := ((resolve_kept hv.level hcount (hv.stored _) hresolve).2.2 ⟨it, hmem, rfl⟩).1
  have hstep : (step q w (.identity ns it.name (.compute none))).map Prod.fst = some d := by
    rw [storedId] at hresolve
    simp only [step, queryDefIdentity, hc, Option.bind_some, Option.all_none, if_true, Option.getD_none, hresult,
      hresolve, Option.map_some]
  obtain ⟨⟨d', w'⟩, hgiven, rfl⟩ := Option.map_eq_some_iff.mp hstep
  exact ⟨d', w', hgiven, hne⟩

theorem Valid.stable (hv : Valid w) : Stable q w := by
  intro ns name g d w₁ h hcount hne hdeclared w₂ hrun g' d' w₃ h' hsteady hg
  have hasked := queryDefIdentity_asked hv.rows h
  have hanswer := hasked.answer
  have hstored : storedId w₁ ns name = d := by
    cases g with
    | refused => exact absurd hanswer.1 hne
    | cached eff => exact hanswer.2.2
    | compute seen => exact hanswer.2.2
  have hdeclared₁ : Declared w₁ ns name := by
    rw [Declared, hasked.items]
    exact hdeclared
  obtain ⟨hv₂, ⟨it, hmem, hit⟩, hsame⟩ := run_kept (step_valid hv h hcount) hdeclared₁ (hstored ▸ hne) hrun
  have hne₂ : storedId w₂ ns name ≠ 0 := by
    rw [hsame, hstored]
    exact hne
  rw [answer_kept hv₂ h' hsteady hg ⟨it, hmem, congrArg astIdCompute hit⟩ hne₂, hsame, hstored]

/-- AstIds are injective as long as the pool stays small, and then so are the DefIds. While
no compaction takes its slot and no canceled computation misses it, an item keeps its
DefId. -/
theorem identity_kept (q : Qsort) (primitives : List UInt32) :
    (∀ bound, (∀ m n : UInt32, m.toNat < bound → n.toNat < bound → astIdCompute m = astIdCompute n → m = n) ↔
      bound ≤ firstShared) ∧
    (∀ w, ReflTransGen (Moves q Small) (start primitives) w → Apart w ∧ Own q w) ∧
    ∀ w, ReflTransGen (Moves q Addressed) (start primitives) w → Given q w ∧ Stable q w := by
  have hstart := start_exact primitives
  refine ⟨fun bound => injective_iff, fun w hrun => ?_, fun w hrun => ?_⟩
  · obtain ⟨he, -⟩ := run_exact hstart hrun
    exact ⟨he.apart, he.own⟩
  · have hv := run_valid hstart.toValid (fun _ _ => id) hrun
    exact ⟨hv.given, hv.stable⟩

/-- The DefIds that the queries of a run give. -/
def answers (q : Qsort) : List Op → World → Option (List Nat)
  | [], _ => some []
  | op :: ops, w => (step q w op).bind fun (d, w) =>
      (answers q ops w).map fun ds => match op with
        | .identity _ _ _ => d :: ds
        | _ => ds

example : answers stableSort
    [.edit 1 [⟨8, .function⟩], .identity 1 8 (.compute none), .edit 1 [⟨16, .struct⟩, ⟨8, .constant⟩],
      .identity 1 8 (.compute none), .identity 1 16 (.compute none)] (start [4]) = some [2, 2, 3] := by decide

/-- Two functions of a namespace whose names share an AstId. -/
def collided : List Op :=
  [.edit 1 [⟨3349391, .function⟩, ⟨4718592, .function⟩], .identity 1 3349391 (.compute none),
    .identity 1 4718592 (.compute none)]

/-- A function is not asked for during nine edits of another namespace. -/
def idle : List Op :=
  [.edit 1 [⟨8, .function⟩], .identity 1 8 (.compute none)] ++ List.replicate 9 (.edit 2 []) ++
    [.requestEnd, .identity 1 8 (.compute none)]

/-- A function gets a sibling, and the first computation after that is canceled. -/
def canceled : List Op :=
  [.edit 1 [⟨8, .function⟩], .identity 1 8 (.compute none), .edit 1 [⟨8, .function⟩, ⟨16, .struct⟩],
    .identity 1 8 (.compute (some [])), .identity 1 8 (.compute none)]

theorem identity_lost :
    (astIdCompute 3349391 = astIdCompute 4718592 ∧ answers stableSort collided (start []) = some [1, 1]) ∧
      answers stableSort idle (start []) = some [1, 2] ∧ answers stableSort canceled (start []) = some [1, 0, 2] := by
  refine ⟨⟨shared, ?_⟩, ?_, ?_⟩ <;> decide

end Identity

end Ore.DefIdentityRuns
