import Ore.EngineModel
import Ore.RangeCopy
import Mathlib.Data.List.Induction

namespace Ore.PoolCompaction

open EngineModel RangeCopy

structure AggregateFieldEntry where
  name : Nat
  type : Nat
  deriving DecidableEq

structure EnumVariantEntry where
  name : Nat
  value : Int
  deriving DecidableEq

structure DeclEntry where
  name : Nat
  defId : Nat
  deriving DecidableEq

structure ScopeRow where
  parent : Nat
  blockNodeRel : Nat
  deriving DecidableEq

structure ScopedBind where
  scopeId : Nat
  name : Nat
  bindSiteRel : Nat
  deriving DecidableEq

inductive OpSort
  | val
  | direct
  | finalCtl
  | ctl
  deriving DecidableEq

/-- A row that owns a range of a pool, with the state of the slot that filled it. -/
structure Cell where
  state : QueryState
  lo : Nat
  len : Nat
  deriving DecidableEq

structure FnBody where
  state : QueryState
  scopeOff : Nat
  scopeLen : Nat
  bindOff : Nat
  bindLen : Nat
  deriving DecidableEq

structure Scope where
  declLo : Nat
  declLen : Nat
  deriving DecidableEq

/-- The scope of a namespace, with the state of its NAMESPACE_SCOPES slot. -/
structure Export where
  state : QueryState
  internal : Nat
  deriving DecidableEq

def Cell.zero : Cell := ⟨.empty, 0, 0⟩

def FnBody.zero : FnBody := ⟨.empty, 0, 0, 0, 0⟩

def cellOwner : Owner Cell where
  live c := c.state = .done
  off := Cell.lo
  len := Cell.len
  setOff c n := { c with lo := n }
  live_setOff _ _ := rfl
  off_setOff _ _ := rfl
  len_setOff _ _ := rfl

def scopeOwner : Owner FnBody where
  live b := b.state = .done
  off := FnBody.scopeOff
  len := FnBody.scopeLen
  setOff b n := { b with scopeOff := n }
  live_setOff _ _ := rfl
  off_setOff _ _ := rfl
  len_setOff _ _ := rfl

def bindOwner : Owner FnBody where
  live b := b.state = .done
  off := FnBody.bindOff
  len := FnBody.bindLen
  setOff b n := { b with bindOff := n }
  live_setOff _ _ := rfl
  off_setOff _ _ := rfl
  len_setOff _ _ := rfl

def markOwner : Owner (Bool × Scope) where
  live s := s.1
  off s := s.2.declLo
  len s := s.2.declLen
  setOff s n := (s.1, { s.2 with declLo := n })
  live_setOff _ _ := rfl
  off_setOff _ _ := rfl
  len_setOff _ _ := rfl

/-- The shared pools with the tables that own their ranges, and the size of each
pool after its last compaction. -/
structure Db where
  aggregateFieldPool : List AggregateFieldEntry
  structs : List Cell
  unions : List Cell
  enumVariantPool : List EnumVariantEntry
  enums : List Cell
  effectOpNames : List Nat
  effectOpTypes : List Nat
  effectOpSorts : List OpSort
  effects : List Cell
  namespaceFieldPool : List DeclEntry
  namespaces : List Cell
  bodyScopeRows : List ScopeRow
  bodyScopeBinds : List ScopedBind
  bodies : List FnBody
  declPool : List DeclEntry
  scopes : List Scope
  exports : List Export
  primitivesScope : Nat
  compactMinThreshold : Nat
  lastAggregateFields : Nat
  lastEnumVariants : Nat
  lastEffectOps : Nat
  lastNamespaceFields : Nat
  lastBodyScopeRows : Nat
  lastDecls : Nat

/-- The primitives are declared in a scope of their own. -/
def initial (primitives : List DeclEntry) (compactMinThreshold : Nat) : Db where
  aggregateFieldPool := []
  structs := [.zero]
  unions := [.zero]
  enumVariantPool := []
  enums := [.zero]
  effectOpNames := []
  effectOpTypes := []
  effectOpSorts := []
  effects := [.zero]
  namespaceFieldPool := []
  namespaces := [.zero]
  bodyScopeRows := []
  bodyScopeBinds := []
  bodies := [.zero]
  declPool := primitives
  scopes := [⟨0, 0⟩, ⟨0, primitives.length⟩]
  exports := [⟨.empty, 0⟩]
  primitivesScope := 1
  compactMinThreshold := compactMinThreshold
  lastAggregateFields := 0
  lastEnumVariants := 0
  lastEffectOps := 0
  lastNamespaceFields := 0
  lastBodyScopeRows := 0
  lastDecls := 0

namespace Db

def compactAggregateFieldPool (db : Db) : Option Db :=
  (compact cellOwner db.aggregateFieldPool (db.structs ++ db.unions)).map fun (pool, cells) =>
    { db with
      aggregateFieldPool := pool, structs := cells.take db.structs.length, unions := cells.drop db.structs.length
      lastAggregateFields := pool.length }

/-- The three columns move by one plan, and the cells are rewritten once. -/
def compactEffectOpPools (db : Db) : Option Db :=
  let moves := ranges cellOwner db.effects
  match copy db.effectOpNames moves, copy db.effectOpTypes moves, copy db.effectOpSorts moves with
  | some names, some types, some sorts =>
      some { db with
        effectOpNames := names, effectOpTypes := types, effectOpSorts := sorts
        effects := rewrite cellOwner moves db.effects, lastEffectOps := names.length }
  | _, _, _ => none

def compactEnumVariantPool (db : Db) : Option Db :=
  (compact cellOwner db.enumVariantPool db.enums).map fun (pool, cells) =>
    { db with enumVariantPool := pool, enums := cells, lastEnumVariants := pool.length }

def compactNamespaceFieldPool (db : Db) : Option Db :=
  (compact cellOwner db.namespaceFieldPool db.namespaces).map fun (pool, cells) =>
    { db with namespaceFieldPool := pool, namespaces := cells, lastNamespaceFields := pool.length }

/-- Both ranges of a body are collected before either is rewritten. -/
def compactBodyScopePools (db : Db) : Option Db :=
  let binds := ranges bindOwner db.bodies
  match compact scopeOwner db.bodyScopeRows db.bodies, copy db.bodyScopeBinds binds with
  | some (rows, bodies), some moved =>
      some { db with
        bodyScopeRows := rows, bodyScopeBinds := moved, bodies := rewrite bindOwner binds bodies
        lastBodyScopeRows := rows.length }
  | _, _ => none

def isLive (db : Db) (scope : Nat) : Bool :=
  scope == db.primitivesScope ||
    db.exports.any fun e => e.state == .done && e.internal != 0 && e.internal == scope

def marked (db : Db) : List (Bool × Scope) := db.scopes.zipIdx.map fun (scope, i) => (db.isLive i, scope)

/-- Copy the marked scopes in order. The others lose their range. -/
def copyScopes (pool : List DeclEntry) : List (Bool × Scope) → List DeclEntry → Option (List DeclEntry × List Scope)
  | [], moved => some (moved, [])
  | (false, _) :: rest, moved => (copyScopes pool rest moved).map fun (moved, scopes) => (moved, ⟨0, 0⟩ :: scopes)
  | (true, scope) :: rest, moved =>
      match slice pool scope.declLo scope.declLen with
      | none => none
      | some decls =>
          (copyScopes pool rest (moved ++ decls)).map fun (all, scopes) =>
            (all, ⟨moved.length, scope.declLen⟩ :: scopes)

def compactDeclPool (db : Db) : Option Db :=
  (copyScopes db.declPool db.marked []).map fun (pool, scopes) =>
    { db with declPool := pool, scopes := scopes, lastDecls := pool.length }

/-- A pool is compacted when it has grown past the threshold and to more than
twice its size after the last compaction. -/
def due (db : Db) (count last : Nat) : Bool :=
  let threshold := if db.compactMinThreshold = 0 then 4096 else db.compactMinThreshold
  decide (threshold < count) && decide (last * 2 < count)

/-- The pools in the order they are looked at, each with its gate. -/
def passes : List ((Db → Bool) × (Db → Option Db)) :=
  [(fun db => db.due db.bodyScopeRows.length db.lastBodyScopeRows, compactBodyScopePools),
    (fun db => db.due db.declPool.length db.lastDecls, compactDeclPool),
    (fun db => db.due db.aggregateFieldPool.length db.lastAggregateFields, compactAggregateFieldPool),
    (fun db => db.due db.effectOpNames.length db.lastEffectOps, compactEffectOpPools),
    (fun db => db.due db.enumVariantPool.length db.lastEnumVariants, compactEnumVariantPool),
    (fun db => db.due db.namespaceFieldPool.length db.lastNamespaceFields, compactNamespaceFieldPool)]

def poolsMaybeCompact (db : Db) : Option Db :=
  passes.foldlM (fun db pass => if pass.1 db then pass.2 db else some db) db

end Db

/-- The tables whose rows own ranges. -/
inductive Table
  | structs
  | unions
  | enums
  | effects
  | namespaces
  | bodies
  | exports

/-- What happens between compactions. A type query that finds no declaration
builds no members: `none`. A slot leaves DONE when it is swept, fails or is
reclaimed. -/
inductive Event
  | addRow (table : Table)
  | typeOfStruct (row : Nat) (fields : Option (List AggregateFieldEntry))
  | typeOfUnion (row : Nat) (fields : Option (List AggregateFieldEntry))
  | typeOfEnum (row : Nat) (variants : Option (List EnumVariantEntry))
  | typeOfEffect (row : Nat) (ops : Option (List (Nat × Nat × OpSort)))
  | namespaceType (row : Nat) (members : List DeclEntry)
  | bodyScopes (row : Nat) (body : Option (List ScopeRow × List ScopedBind))
  | namespaceScopes (row : Nat) (decls : List DeclEntry)
  | leave (table : Table) (row : Nat) (state : { state : QueryState // state ≠ .done })
  | compact

/-- Append the members and stamp their range, or succeed without. -/
def build {α : Type} (pool : List α) (cells : List Cell) (row : Nat) : Option (List α) → List α × List Cell
  | some members => (pool ++ members, cells.modify row fun _ => ⟨.done, pool.length, members.length⟩)
  | none => (pool, cells.modify row fun cell => { cell with state := .done })

def leave (cells : List Cell) (row : Nat) (state : QueryState) : List Cell :=
  cells.modify row fun cell => { cell with state := state }

def Db.addRow (db : Db) : Table → Db
  | .structs => { db with structs := db.structs ++ [.zero] }
  | .unions => { db with unions := db.unions ++ [.zero] }
  | .enums => { db with enums := db.enums ++ [.zero] }
  | .effects => { db with effects := db.effects ++ [.zero] }
  | .namespaces => { db with namespaces := db.namespaces ++ [.zero] }
  | .bodies => { db with bodies := db.bodies ++ [.zero] }
  | .exports => { db with exports := db.exports ++ [⟨.empty, 0⟩] }

def Db.leave (db : Db) (row : Nat) (state : QueryState) : Table → Db
  | .structs => { db with structs := PoolCompaction.leave db.structs row state }
  | .unions => { db with unions := PoolCompaction.leave db.unions row state }
  | .enums => { db with enums := PoolCompaction.leave db.enums row state }
  | .effects => { db with effects := PoolCompaction.leave db.effects row state }
  | .namespaces => { db with namespaces := PoolCompaction.leave db.namespaces row state }
  | .bodies => { db with bodies := db.bodies.modify row fun body => { body with state := state } }
  | .exports => { db with exports := db.exports.modify row fun e => { e with state := state } }

/-- The scope is created once. -/
def Db.namespaceScopes (db : Db) (row : Nat) (decls : List DeclEntry) : Db :=
  match db.exports[row]? with
  | none => db
  | some prev =>
      let (internal, scopes) :=
        if prev.internal = 0 then (db.scopes.length, db.scopes ++ [⟨0, 0⟩]) else (prev.internal, db.scopes)
      { db with
        declPool := db.declPool ++ decls
        scopes := scopes.modify internal fun _ => ⟨db.declPool.length, decls.length⟩
        exports := db.exports.set row ⟨.done, internal⟩ }

/-- A body without a lambda gets empty ranges. -/
def Db.bodyScopes (db : Db) (row : Nat) : Option (List ScopeRow × List ScopedBind) → Db
  | some (rows, binds) =>
      { db with
        bodyScopeRows := db.bodyScopeRows ++ rows, bodyScopeBinds := db.bodyScopeBinds ++ binds
        bodies := db.bodies.modify row fun _ =>
          ⟨.done, db.bodyScopeRows.length, rows.length, db.bodyScopeBinds.length, binds.length⟩ }
  | none => { db with bodies := db.bodies.modify row fun _ => ⟨.done, 0, 0, 0, 0⟩ }

/-- `none` is a compaction that read past the end of its pool. -/
def step (db : Db) : Event → Option Db
  | .addRow table => some (db.addRow table)
  | .typeOfStruct row fields =>
      let (pool, cells) := build db.aggregateFieldPool db.structs row fields
      some { db with aggregateFieldPool := pool, structs := cells }
  | .typeOfUnion row fields =>
      let (pool, cells) := build db.aggregateFieldPool db.unions row fields
      some { db with aggregateFieldPool := pool, unions := cells }
  | .typeOfEnum row variants =>
      let (pool, cells) := build db.enumVariantPool db.enums row variants
      some { db with enumVariantPool := pool, enums := cells }
  | .typeOfEffect row ops =>
      let (names, cells) := build db.effectOpNames db.effects row (ops.map (·.map (·.1)))
      some { db with
        effectOpNames := names, effectOpTypes := db.effectOpTypes ++ (ops.getD []).map (·.2.1)
        effectOpSorts := db.effectOpSorts ++ (ops.getD []).map (·.2.2), effects := cells }
  | .namespaceType row members =>
      let (pool, cells) := build db.namespaceFieldPool db.namespaces row (some members)
      some { db with namespaceFieldPool := pool, namespaces := cells }
  | .bodyScopes row body => some (db.bodyScopes row body)
  | .namespaceScopes row decls => some (db.namespaceScopes row decls)
  | .leave table row state => some (db.leave row state table)
  | .compact => db.poolsMaybeCompact

def run (events : List Event) (db : Db) : Option Db := events.foldlM step db

/-- A type query that builds no members finds the range of its row inside the
pool. -/
def Found {α : Type} (pool : List α) (cells : List Cell) (row : Nat) : Prop :=
  ∀ cell ∈ cells[row]?, Inside pool cell.lo cell.len

def StepOk (db : Db) : Event → Prop
  | .typeOfStruct row none => Found db.aggregateFieldPool db.structs row
  | .typeOfUnion row none => Found db.aggregateFieldPool db.unions row
  | .typeOfEnum row none => Found db.enumVariantPool db.enums row
  | .typeOfEffect row none => Found db.effectOpNames db.effects row
  | _ => True

/-- Every step meets the condition where it is taken. -/
def RunOk : List Event → Db → Prop
  | [], _ => True
  | event :: events, db => StepOk db event ∧ ∀ db', step db event = some db' → RunOk events db'

/-- Every live range lies inside its pool. -/
structure Sound (db : Db) : Prop where
  fields : Readable cellOwner db.aggregateFieldPool (db.structs ++ db.unions)
  variants : Readable cellOwner db.enumVariantPool db.enums
  ops : Readable cellOwner db.effectOpNames db.effects
  types : db.effectOpTypes.length = db.effectOpNames.length
  sorts : db.effectOpSorts.length = db.effectOpNames.length
  members : Readable cellOwner db.namespaceFieldPool db.namespaces
  rows : Readable scopeOwner db.bodyScopeRows db.bodies
  binds : Readable bindOwner db.bodyScopeBinds db.bodies
  decls : ∀ scope ∈ db.scopes, Inside db.declPool scope.declLo scope.declLen

section Events

variable {α : Type} {pool : List α} {cells : List Cell} {row : Nat} {db db' : Db}

theorem build_readable (row : Nat) (h : Readable cellOwner pool cells) (members : Option (List α))
    (hfound : members = none → Found pool cells row) :
    Readable cellOwner (build pool cells row members).1 (build pool cells row members).2 := by
  cases members with
  | none =>
      apply h.modify
      intro cell hcell _
      exact hfound rfl cell hcell
  | some members =>
      apply (h.append members).modify
      intro cell _ _
      refine .inr ?_
      simp [cellOwner]

theorem build_pool (pool : List α) (cells : List Cell) (row : Nat) (members : Option (List α)) :
    (build pool cells row members).1 = pool ++ members.getD [] := by
  cases members <;> simp [build]

theorem leave_readable (h : Readable cellOwner pool cells) {state : QueryState} (hstate : state ≠ .done) :
    Readable cellOwner pool (leave cells row state) := by
  apply h.modify
  intro cell _ hlive
  exact absurd (of_decide_eq_true hlive) hstate

theorem Sound.addRow (h : Sound db) (table : Table) : Sound (db.addRow table) := by
  cases table with
  | structs => exact { h with fields := (h.fields.left.concat .zero rfl).both h.fields.right }
  | unions => exact { h with fields := h.fields.left.both (h.fields.right.concat .zero rfl) }
  | enums => exact { h with variants := h.variants.concat .zero rfl }
  | effects => exact { h with ops := h.ops.concat .zero rfl }
  | namespaces => exact { h with members := h.members.concat .zero rfl }
  | bodies => exact { h with rows := h.rows.concat .zero rfl, binds := h.binds.concat .zero rfl }
  | exports => exact { h with }

theorem Sound.leave (h : Sound db) (table : Table) {state : QueryState} (hstate : state ≠ .done) :
    Sound (db.leave row state table) := by
  cases table with
  | structs => exact { h with fields := (leave_readable h.fields.left hstate).both h.fields.right }
  | unions => exact { h with fields := h.fields.left.both (leave_readable h.fields.right hstate) }
  | enums => exact { h with variants := leave_readable h.variants hstate }
  | effects => exact { h with ops := leave_readable h.ops hstate }
  | namespaces => exact { h with members := leave_readable h.members hstate }
  | bodies =>
      have hrows : Readable scopeOwner db.bodyScopeRows (db.bodies.modify row fun body =>
        { body with state := state }) := by
        apply h.rows.modify
        intro body _ hlive
        exact absurd (of_decide_eq_true hlive) hstate
      have hbinds : Readable bindOwner db.bodyScopeBinds
        (db.bodies.modify row fun body => { body with state := state }) := by
        apply h.binds.modify
        intro body _ hlive
        exact absurd (of_decide_eq_true hlive) hstate
      exact { h with rows := hrows, binds := hbinds }
  | exports => exact { h with }

theorem Sound.bodyScopes (h : Sound db) (body : Option (List ScopeRow × List ScopedBind)) :
    Sound (db.bodyScopes row body) := by
  cases body with
  | none =>
      have hrows : Readable scopeOwner db.bodyScopeRows (db.bodies.modify row fun _ => ⟨.done, 0, 0, 0, 0⟩) :=
        h.rows.modify _ _ fun _ _ _ => .inl rfl
      have hbinds : Readable bindOwner db.bodyScopeBinds (db.bodies.modify row fun _ => ⟨.done, 0, 0, 0, 0⟩) :=
        h.binds.modify _ _ fun _ _ _ => .inl rfl
      exact { h with rows := hrows, binds := hbinds }
  | some body =>
      obtain ⟨rows, binds⟩ := body
      have hrows := (h.rows.append rows).modify row
        (fun _ => ⟨.done, db.bodyScopeRows.length, rows.length, db.bodyScopeBinds.length, binds.length⟩)
        fun _ _ _ => .inr (by simp [scopeOwner])
      have hbinds := (h.binds.append binds).modify row
        (fun _ => ⟨.done, db.bodyScopeRows.length, rows.length, db.bodyScopeBinds.length, binds.length⟩)
        fun _ _ _ => .inr (by simp [bindOwner])
      exact { h with rows := hrows, binds := hbinds }

theorem Sound.namespaceScopes (h : Sound db) (row : Nat) (decls : List DeclEntry) :
    Sound (db.namespaceScopes row decls) := by
  simp only [Db.namespaceScopes]
  split
  · exact h
  · rename_i prev hprev
    have hgrown (scopes : List Scope) (hscopes : ∀ scope ∈ scopes, Inside db.declPool scope.declLo scope.declLen)
        (internal : Nat) : ∀ scope ∈ scopes.modify internal fun _ => ⟨db.declPool.length, decls.length⟩,
          Inside (db.declPool ++ decls) scope.declLo scope.declLen := by
      intro scope hscope
      obtain ⟨i, hi⟩ := List.getElem?_of_mem hscope
      rw [List.getElem?_modify] at hi
      obtain ⟨old, hold, rfl⟩ := Option.map_eq_some_iff.mp hi
      split
      · refine .inr ?_
        simp
      · exact (hscopes old (List.mem_of_getElem? hold)).append decls
    split
    · refine { h with decls := hgrown _ ?_ _ }
      intro scope hscope
      rcases List.mem_append.mp hscope with hmem | hmem
      · exact h.decls scope hmem
      · rw [List.mem_singleton.mp hmem]
        exact .inl rfl
    · exact { h with decls := hgrown _ h.decls _ }

end Events

section Pools

variable {db : Db}

theorem Sound.compactAggregateFieldPool (h : Sound db) :
    ∃ db', db.compactAggregateFieldPool = some db' ∧ Sound db' ∧
      Compacted cellOwner db.aggregateFieldPool (db.structs ++ db.unions) db'.aggregateFieldPool
        (db'.structs ++ db'.unions) := by
  obtain ⟨⟨pool, cells⟩, hcompact⟩ := Option.isSome_iff_exists.mp (compact_isSome.mpr h.fields)
  have hcompacted := compact_compacted hcompact
  have hsplit : cells.take db.structs.length ++ cells.drop db.structs.length = cells := List.take_append_drop ..
  rw [Db.compactAggregateFieldPool, hcompact]
  refine ⟨_, rfl, ?_, ?_⟩
  · refine { h with fields := ?_ }
    simp only [hsplit]
    exact hcompacted.readable
  · simp only [hsplit]
    exact hcompacted

theorem Sound.compactEnumVariantPool (h : Sound db) :
    ∃ db', db.compactEnumVariantPool = some db' ∧ Sound db' ∧
      Compacted cellOwner db.enumVariantPool db.enums db'.enumVariantPool db'.enums := by
  obtain ⟨⟨pool, cells⟩, hcompact⟩ := Option.isSome_iff_exists.mp (compact_isSome.mpr h.variants)
  have hcompacted := compact_compacted hcompact
  rw [Db.compactEnumVariantPool, hcompact]
  refine ⟨_, rfl, ?_, hcompacted⟩
  exact { h with variants := hcompacted.readable }

theorem Sound.compactNamespaceFieldPool (h : Sound db) :
    ∃ db', db.compactNamespaceFieldPool = some db' ∧ Sound db' ∧
      Compacted cellOwner db.namespaceFieldPool db.namespaces db'.namespaceFieldPool db'.namespaces := by
  obtain ⟨⟨pool, cells⟩, hcompact⟩ := Option.isSome_iff_exists.mp (compact_isSome.mpr h.members)
  have hcompacted := compact_compacted hcompact
  rw [Db.compactNamespaceFieldPool, hcompact]
  refine ⟨_, rfl, ?_, hcompacted⟩
  exact { h with members := hcompacted.readable }

/-- The three columns move together. -/
theorem Sound.compactEffectOpPools (h : Sound db) :
    ∃ db', db.compactEffectOpPools = some db' ∧ Sound db' ∧
      Compacted cellOwner db.effectOpNames db.effects db'.effectOpNames db'.effects ∧
      Compacted cellOwner db.effectOpTypes db.effects db'.effectOpTypes db'.effects ∧
      Compacted cellOwner db.effectOpSorts db.effects db'.effectOpSorts db'.effects := by
  obtain ⟨names, hnames, hnames'⟩ := h.ops.copied
  obtain ⟨types, htypes, htypes'⟩ := (h.ops.of_length h.types).copied
  obtain ⟨sorts, hsorts, hsorts'⟩ := (h.ops.of_length h.sorts).copied
  simp only [Db.compactEffectOpPools, hnames, htypes, hsorts]
  refine ⟨_, rfl, ?_, hnames', htypes', hsorts'⟩
  exact { h with
    ops := hnames'.readable
    types := (copy_length htypes).trans (copy_length hnames).symm
    sorts := (copy_length hsorts).trans (copy_length hnames).symm }

theorem Sound.compactBodyScopePools (h : Sound db) :
    ∃ db', db.compactBodyScopePools = some db' ∧ Sound db' ∧
      Compacted scopeOwner db.bodyScopeRows db.bodies db'.bodyScopeRows db'.bodies ∧
      Compacted bindOwner db.bodyScopeBinds db.bodies db'.bodyScopeBinds db'.bodies := by
  obtain ⟨rows, hrows, hrows'⟩ := h.rows.copied
  obtain ⟨binds, hbinds, hbinds'⟩ := h.binds.copied
  have hcompact : compact scopeOwner db.bodyScopeRows db.bodies =
      some (rows, rewrite scopeOwner (ranges scopeOwner db.bodies) db.bodies) := by
    rw [compact, hrows]
    rfl
  simp only [Db.compactBodyScopePools, hcompact, hbinds]
  have hrowsFinal := hrows'.congr (rewrite_seen_other (f := bindOwner) (fun _ _ => rfl) (ranges bindOwner db.bodies) _)
  have hbindsFinal := hbinds'.congr (rewrite_seen (ranges bindOwner db.bodies)
    (rewrite_seen_other (f := scopeOwner) (fun _ _ => rfl) (ranges scopeOwner db.bodies) db.bodies))
  refine ⟨_, rfl, ?_, hrowsFinal, hbindsFinal⟩
  exact { h with rows := hrowsFinal.readable, binds := hbindsFinal.readable }

/-- The elements a marked scope brings along. -/
def brought (pool : List DeclEntry) (m : Bool × Scope) : List DeclEntry :=
  if m.1 then elems pool m.2.declLo m.2.declLen else []

/-- Where the walk over the scopes puts each of them. -/
structure Placed (pool : List DeclEntry) (marks : List (Bool × Scope)) (start : Nat) (all : List DeclEntry)
    (scopes : List Scope) : Prop where
  length : scopes.length = marks.length
  dead : ∀ (i : Nat) (s t : Scope), marks[i]? = some (false, s) → scopes[i]? = some t → t = ⟨0, 0⟩
  live : ∀ (i : Nat) (s t : Scope), marks[i]? = some (true, s) → scopes[i]? = some t →
    t.declLen = s.declLen ∧ start ≤ t.declLo ∧ t.declLo + t.declLen ≤ all.length ∧
      elems all t.declLo t.declLen = elems pool s.declLo s.declLen
  order : ∀ (i j : Nat) (s s' t t' : Scope), i < j → marks[i]? = some (true, s) → marks[j]? = some (true, s') →
    scopes[i]? = some t → scopes[j]? = some t' → t.declLo + t.declLen ≤ t'.declLo

theorem copyScopes_placed {pool : List DeclEntry} (marks : List (Bool × Scope))
    (hinside : ∀ s, (true, s) ∈ marks → Inside pool s.declLo s.declLen) (moved : List DeclEntry) :
    ∃ scopes, Db.copyScopes pool marks moved = some (moved ++ marks.flatMap (brought pool), scopes) ∧
      Placed pool marks moved.length (moved ++ marks.flatMap (brought pool)) scopes := by
  induction marks generalizing moved with
  | nil =>
      refine ⟨[], by simp [Db.copyScopes], rfl, ?_, ?_, ?_⟩
      · intro i s t hs
        simp at hs
      · intro i s t hs
        simp at hs
      · intro i j s s' t t' _ hs
        simp at hs
  | cons mark marks ih =>
      have hrest : ∀ s, (true, s) ∈ marks → Inside pool s.declLo s.declLen :=
        fun s hs => hinside s (List.mem_cons_of_mem _ hs)
      obtain ⟨isLive, scope⟩ := mark
      cases isLive with
      | false =>
          obtain ⟨scopes, hcopy, hplaced⟩ := ih hrest moved
          have hnone : brought pool (false, scope) = [] := rfl
          rw [List.flatMap_cons, hnone, List.nil_append]
          refine ⟨⟨0, 0⟩ :: scopes, by rw [Db.copyScopes, hcopy]; rfl, ?_, ?_, ?_, ?_⟩
          · rw [List.length_cons, List.length_cons, hplaced.length]
          · intro i s t hs ht
            cases i with
            | zero => exact (Option.some.inj ht).symm
            | succ i => exact hplaced.dead i s t hs ht
          · intro i s t hs ht
            cases i with
            | zero => simp at hs
            | succ i => exact hplaced.live i s t hs ht
          · intro i j s s' t t' hij hs hs' ht ht'
            cases j with
            | zero => omega
            | succ j =>
                cases i with
                | zero => simp at hs
                | succ i => exact hplaced.order i j s s' t t' (by omega) hs hs' ht ht'
      | true =>
          have hin : Inside pool scope.declLo scope.declLen := hinside scope (List.mem_cons_self ..)
          have hlen := length_elems hin
          obtain ⟨scopes, hcopy, hplaced⟩ := ih hrest (moved ++ elems pool scope.declLo scope.declLen)
          have hsome : brought pool (true, scope) = elems pool scope.declLo scope.declLen := rfl
          have hslice : slice pool scope.declLo scope.declLen = some (elems pool scope.declLo scope.declLen) := if_pos
            hin
          rw [List.flatMap_cons, hsome, ← List.append_assoc]
          refine ⟨⟨moved.length, scope.declLen⟩ :: scopes, ?_, ?_, ?_, ?_, ?_⟩
          · rw [Db.copyScopes, hslice]
            simp only [hcopy, Option.map_some]
          · rw [List.length_cons, List.length_cons, hplaced.length]
          · intro i s t hs ht
            cases i with
            | zero => simp at hs
            | succ i => exact hplaced.dead i s t hs ht
          · intro i s t hs ht
            cases i with
            | zero =>
                obtain rfl : scope = s := (Prod.mk.inj (Option.some.inj hs)).2
                obtain rfl := Option.some.inj ht
                refine ⟨rfl, Nat.le_refl _, ?_, ?_⟩
                · simp only [List.length_append, hlen]
                  omega
                · simp only [elems, List.append_assoc, List.drop_left] at hlen ⊢
                  rw [List.take_append_of_le_length (Nat.le_of_eq hlen.symm)]
                  exact List.take_of_length_le (Nat.le_of_eq hlen)
            | succ i =>
                obtain ⟨hlen', hstart, hrest'⟩ := hplaced.live i s t hs ht
                refine ⟨hlen', ?_, hrest'⟩
                rw [List.length_append] at hstart
                omega
          · intro i j s s' t t' hij hs hs' ht ht'
            cases j with
            | zero => omega
            | succ j =>
                cases i with
                | zero =>
                    obtain rfl := Option.some.inj ht
                    have hstart := (hplaced.live j s' t' hs' ht').2.1
                    rw [List.length_append, hlen] at hstart
                    exact hstart
                | succ i => exact hplaced.order i j s s' t t' (by omega) hs hs' ht ht'

theorem marked_get (db : Db) (i : Nat) : db.marked[i]? = (db.scopes[i]?).map fun scope => (db.isLive i, scope) := by
  simp only [Db.marked, List.getElem?_map, List.getElem?_zipIdx, Option.map_map, Nat.zero_add]
  rfl

theorem flatMap_owners (pool : List DeclEntry) (marks : List (Bool × Scope)) :
    ∃ order : List Nat, order.Nodup ∧ (∀ i, i ∈ order ↔ Owns markOwner marks i) ∧
      marks.flatMap (brought pool) =
        order.flatMap fun i => ((marks[i]?).map fun m => elems pool (markOwner.off m) (markOwner.len m)).getD [] := by
  induction marks using List.reverseRecOn with
  | nil => exact ⟨[], List.nodup_nil, by simp [Owns], rfl⟩
  | append_singleton marks m ih =>
      obtain ⟨order, hnodup, hmem, hflat⟩ := ih
      have hlt (i : Nat) (hi : i ∈ order) : i < marks.length := by
        obtain ⟨m', hm', -⟩ := (hmem i).mp hi
        exact (List.getElem?_eq_some_iff.mp hm').1
      have hsame : (order.flatMap fun i => (((marks ++ [m])[i]?).map fun m =>
          elems pool (markOwner.off m) (markOwner.len m)).getD []) =
          order.flatMap fun i => ((marks[i]?).map fun m => elems pool (markOwner.off m) (markOwner.len m)).getD [] := by
        apply List.flatMap_congr
        intro i hi
        rw [List.getElem?_append_left (hlt i hi)]
      have howns (i : Nat) : Owns markOwner (marks ++ [m]) i ↔
          Owns markOwner marks i ∨ i = marks.length ∧ m.1 = true ∧ m.2.declLen ≠ 0 := by
        constructor
        · rintro ⟨m', hm', hlive, hlen⟩
          rcases Nat.lt_trichotomy i marks.length with hi | rfl | hi
          · rw [List.getElem?_append_left hi] at hm'
            exact .inl ⟨m', hm', hlive, hlen⟩
          · rw [List.getElem?_concat_length] at hm'
            obtain rfl := Option.some.inj hm'
            exact .inr ⟨rfl, hlive, hlen⟩
          · rw [List.getElem?_eq_none (by simp; omega)] at hm'
            simp at hm'
        · rintro (⟨m', hm', hlive, hlen⟩ | ⟨rfl, hlive, hlen⟩)
          · refine ⟨m', ?_, hlive, hlen⟩
            rw [List.getElem?_append_left (List.getElem?_eq_some_iff.mp hm').1]
            exact hm'
          · exact ⟨m, List.getElem?_concat_length, hlive, hlen⟩
      rw [List.flatMap_append, hflat]
      by_cases hm : m.1 = true ∧ m.2.declLen ≠ 0
      · refine ⟨order ++ [marks.length], ?_, fun i => ?_, ?_⟩
        · rw [List.nodup_append]
          refine ⟨hnodup, List.nodup_singleton _, ?_⟩
          intro i hi j hj hij
          have hi' := hlt i hi
          rw [List.mem_singleton.mp hj] at hij
          omega
        · rw [howns, List.mem_append, hmem, List.mem_singleton]
          simp [hm]
        · rw [List.flatMap_append, hsame]
          simp [brought, hm.1, markOwner]
      · refine ⟨order, hnodup, fun i => ?_, ?_⟩
        · rw [howns, hmem]
          simp [hm]
        · rw [hsame]
          have hnil : brought pool m = [] := by
            by_cases hlive : m.1 = true
            · have hlen : m.2.declLen = 0 := by_contra fun hne => hm ⟨hlive, hne⟩
              simp [brought, hlive, elems, hlen]
            · simp [brought, hlive]
          simp [hnil]

theorem Sound.compactDeclPool (h : Sound db) :
    ∃ db', db.compactDeclPool = some db' ∧ Sound db' ∧
      Compacted markOwner db.declPool db.marked db'.declPool db'.marked := by
  have hinside : ∀ s, (true, s) ∈ db.marked → Inside db.declPool s.declLo s.declLen := by
    intro s hs
    obtain ⟨i, hi⟩ := List.getElem?_of_mem hs
    rw [marked_get, Option.map_eq_some_iff] at hi
    obtain ⟨scope, hscope, heq⟩ := hi
    obtain rfl : scope = s := (Prod.mk.inj heq).2
    exact h.decls scope (List.mem_of_getElem? hscope)
  obtain ⟨scopes, hcopy, hplaced⟩ := copyScopes_placed db.marked hinside []
  rw [Db.compactDeclPool, hcopy]
  simp only [List.nil_append] at hplaced ⊢
  obtain ⟨db', hdb'⟩ : ∃ db', db' = { db with
    declPool := db.marked.flatMap (brought db.declPool), scopes := scopes
    lastDecls := (db.marked.flatMap (brought db.declPool)).length } := ⟨_, rfl⟩
  have hpool : db'.declPool = db.marked.flatMap (brought db.declPool) := by rw [hdb']
  have hmarked (i : Nat) : db'.marked[i]? = (scopes[i]?).map fun scope => (db.isLive i, scope) := by
    rw [hdb', marked_get]
    rfl
  have hlength : db.marked.length = db.scopes.length := by simp [Db.marked]
  have hsplit (i : Nat) (m m' : Bool × Scope) (hm : db.marked[i]? = some m) (hm' : db'.marked[i]? = some m') :
      m'.1 = m.1 ∧ scopes[i]? = some m'.2 := by
    rw [marked_get, Option.map_eq_some_iff] at hm
    rw [hmarked, Option.map_eq_some_iff] at hm'
    obtain ⟨s, -, rfl⟩ := hm
    obtain ⟨t, ht, rfl⟩ := hm'
    exact ⟨rfl, ht⟩
  have hback (i : Nat) (m' : Bool × Scope) (hm' : db'.marked[i]? = some m') : ∃ m, db.marked[i]? = some m := by
    rw [hmarked, Option.map_eq_some_iff] at hm'
    obtain ⟨t, ht, -⟩ := hm'
    have hlt : i < db.marked.length := hplaced.length ▸ (List.getElem?_eq_some_iff.mp ht).1
    exact ⟨_, List.getElem?_eq_getElem hlt⟩
  refine ⟨db', by rw [hdb']; rfl, ?_, ?_⟩
  · have hdecls : ∀ scope ∈ scopes, Inside (db.marked.flatMap (brought db.declPool)) scope.declLo scope.declLen := by
      intro scope hscope
      obtain ⟨i, hi⟩ := List.getElem?_of_mem hscope
      have hlt : i < db.marked.length := hplaced.length ▸ (List.getElem?_eq_some_iff.mp hi).1
      obtain ⟨⟨isLive, old⟩, hold⟩ : ∃ m, db.marked[i]? = some m := ⟨_, List.getElem?_eq_getElem hlt⟩
      cases isLive with
      | false =>
          rw [hplaced.dead i old scope hold hi]
          exact .inl rfl
      | true => exact .inr (hplaced.live i old scope hold hi).2.2.1
    rw [hdb']
    exact { h with decls := hdecls }
  · constructor
    · rw [hdb']
      simp only [Db.marked, List.length_map, List.length_zipIdx]
      rw [hplaced.length, hlength]
    · intro i m hm
      have hlt : i < scopes.length := hplaced.length ▸ (List.getElem?_eq_some_iff.mp hm).1
      have hm' : db'.marked[i]? = some (db.isLive i, scopes[i]) := by
        rw [hmarked, List.getElem?_eq_getElem hlt]
        rfl
      obtain ⟨hlive, hscope⟩ := hsplit i m _ hm hm'
      refine ⟨_, hm', hlive, fun hl => ?_⟩
      obtain ⟨isLive, old⟩ := m
      obtain rfl : isLive = true := hl
      exact (hplaced.live i old _ hm hscope).1
    · intro i m m' hm hm' hlive
      obtain ⟨-, hscope⟩ := hsplit i m m' hm hm'
      obtain ⟨isLive, old⟩ := m
      obtain rfl : isLive = true := hlive
      obtain ⟨hlen, -, hle, helems⟩ := hplaced.live i old m'.2 hm hscope
      have hin := hinside old (List.mem_of_getElem? hm)
      refine ⟨hin, ?_⟩
      simp only [markOwner, hpool]
      rw [slice, slice, if_pos hin, if_pos (.inr hle), helems]
    · intro i j m m' hij hm hm' hlive hlive' _ _
      obtain ⟨old, hold⟩ := hback i m hm
      obtain ⟨old', hold'⟩ := hback j m' hm'
      obtain ⟨hmark, hscope⟩ := hsplit i old m hold hm
      obtain ⟨hmark', hscope'⟩ := hsplit j old' m' hold' hm'
      obtain ⟨isLive, s⟩ := old
      obtain ⟨isLive', s'⟩ := old'
      obtain rfl : isLive = true := hmark.symm.trans hlive
      obtain rfl : isLive' = true := hmark'.symm.trans hlive'
      rcases Nat.lt_or_gt_of_ne hij with hlt | hgt
      · exact .inl (hplaced.order i j s s' m.2 m'.2 hlt hold hold' hscope hscope')
      · exact .inr (hplaced.order j i s' s m'.2 m.2 hgt hold' hold hscope' hscope)
    · rw [hpool]
      exact flatMap_owners db.declPool db.marked

theorem Sound.pass (h : Sound db) {pass : (Db → Bool) × (Db → Option Db)} (hpass : pass ∈ Db.passes) :
    ∃ db', pass.2 db = some db' ∧ Sound db' := by
  simp only [Db.passes, List.mem_cons, List.not_mem_nil, or_false] at hpass
  rcases hpass with rfl | rfl | rfl | rfl | rfl | rfl
  · exact h.compactBodyScopePools.imp fun _ hdb => ⟨hdb.1, hdb.2.1⟩
  · exact h.compactDeclPool.imp fun _ hdb => ⟨hdb.1, hdb.2.1⟩
  · exact h.compactAggregateFieldPool.imp fun _ hdb => ⟨hdb.1, hdb.2.1⟩
  · exact h.compactEffectOpPools.imp fun _ hdb => ⟨hdb.1, hdb.2.1⟩
  · exact h.compactEnumVariantPool.imp fun _ hdb => ⟨hdb.1, hdb.2.1⟩
  · exact h.compactNamespaceFieldPool.imp fun _ hdb => ⟨hdb.1, hdb.2.1⟩

theorem Sound.poolsMaybeCompact (h : Sound db) : ∃ db', db.poolsMaybeCompact = some db' ∧ Sound db' := by
  have hall (passes : List ((Db → Bool) × (Db → Option Db))) (hsub : passes ⊆ Db.passes) (db : Db) (h : Sound db) :
      ∃ db', passes.foldlM (fun db pass => if pass.1 db then pass.2 db else some db) db = some db' ∧ Sound db' := by
    induction passes generalizing db with
    | nil => exact ⟨db, rfl, h⟩
    | cons pass passes ih =>
        obtain ⟨hmem, hrest⟩ := List.cons_subset.mp hsub
        rw [List.foldlM_cons]
        by_cases hdue : pass.1 db = true
        · obtain ⟨db', hdb', hsound⟩ := h.pass hmem
          rw [if_pos hdue, hdb']
          exact ih hrest db' hsound
        · rw [if_neg hdue]
          exact ih hrest db h
  exact hall Db.passes (List.Subset.refl _) db h

theorem step_sound {event : Event} (h : Sound db) (hok : StepOk db event) : ∃ db', step db event = some db' ∧
    Sound db' := by
  cases event with
  | addRow table => exact ⟨_, rfl, h.addRow table⟩
  | typeOfStruct row fields =>
      refine ⟨_, rfl, ?_⟩
      have hstructs := build_readable row h.fields.left fields (by rintro rfl; exact hok)
      have hunions := h.fields.right.append (fields.getD [])
      rw [← build_pool _ db.structs row] at hunions
      exact { h with fields := hstructs.both hunions }
  | typeOfUnion row fields =>
      refine ⟨_, rfl, ?_⟩
      have hunions := build_readable row h.fields.right fields (by rintro rfl; exact hok)
      have hstructs := h.fields.left.append (fields.getD [])
      rw [← build_pool _ db.unions row] at hstructs
      exact { h with fields := hstructs.both hunions }
  | typeOfEnum row variants =>
      refine ⟨_, rfl, ?_⟩
      exact { h with variants := build_readable row h.variants variants (by rintro rfl; exact hok) }
  | typeOfEffect row ops =>
      refine ⟨_, rfl, ?_⟩
      have hops := build_readable row h.ops (ops.map (·.map (·.1))) (by
        cases ops with
        | none => exact fun _ => hok
        | some ops => simp)
      have hlength : (build db.effectOpNames db.effects row (ops.map (·.map (·.1)))).1.length =
          db.effectOpNames.length + (ops.getD []).length := by
        rw [build_pool]
        cases ops <;> simp
      refine { h with ops := hops, types := Eq.trans ?_ hlength.symm, sorts := Eq.trans ?_ hlength.symm }
      · rw [List.length_append, List.length_map, h.types]
      · rw [List.length_append, List.length_map, h.sorts]
  | namespaceType row members =>
      refine ⟨_, rfl, ?_⟩
      exact { h with members := build_readable row h.members (some members) (by simp) }
  | bodyScopes row body => exact ⟨_, rfl, h.bodyScopes body⟩
  | namespaceScopes row decls => exact ⟨_, rfl, h.namespaceScopes row decls⟩
  | leave table row state => exact ⟨_, rfl, h.leave table state.2⟩
  | compact => exact h.poolsMaybeCompact

theorem initial_sound (primitives : List DeclEntry) (compactMinThreshold : Nat) :
    Sound (initial primitives compactMinThreshold) := by
  constructor <;> simp [initial, Readable, cellOwner, scopeOwner, bindOwner, Cell.zero, FnBody.zero, Inside]

theorem run_sound {events : List Event} (h : Sound db) (hok : RunOk events db) : ∃ db', run events db = some db' ∧
    Sound db' := by
  induction events generalizing db with
  | nil => exact ⟨db, rfl, h⟩
  | cons event events ih =>
      obtain ⟨db', hstep, hsound⟩ := step_sound h hok.1
      rw [run, List.foldlM_cons, hstep]
      exact ih hsound (hok.2 db' hstep)

/-- In every run whose type queries find the ranges they keep inside the pool, no
compaction reads past the end of its pool, and each of them, from any state
reached, preserves what every live range reads. -/
theorem compaction_preserves {primitives : List DeclEntry} {compactMinThreshold : Nat} {events : List Event}
    (hok : RunOk events (initial primitives compactMinThreshold)) :
    ∃ db, run events (initial primitives compactMinThreshold) = some db ∧
      (∃ db', db.compactAggregateFieldPool = some db' ∧
        Compacted cellOwner db.aggregateFieldPool (db.structs ++ db.unions) db'.aggregateFieldPool
          (db'.structs ++ db'.unions)) ∧
      (∃ db', db.compactEnumVariantPool = some db' ∧
        Compacted cellOwner db.enumVariantPool db.enums db'.enumVariantPool db'.enums) ∧
      (∃ db', db.compactEffectOpPools = some db' ∧
        Compacted cellOwner db.effectOpNames db.effects db'.effectOpNames db'.effects ∧
        Compacted cellOwner db.effectOpTypes db.effects db'.effectOpTypes db'.effects ∧
        Compacted cellOwner db.effectOpSorts db.effects db'.effectOpSorts db'.effects) ∧
      (∃ db', db.compactNamespaceFieldPool = some db' ∧
        Compacted cellOwner db.namespaceFieldPool db.namespaces db'.namespaceFieldPool db'.namespaces) ∧
      (∃ db', db.compactBodyScopePools = some db' ∧
        Compacted scopeOwner db.bodyScopeRows db.bodies db'.bodyScopeRows db'.bodies ∧
        Compacted bindOwner db.bodyScopeBinds db.bodies db'.bodyScopeBinds db'.bodies) ∧
      ∃ db', db.compactDeclPool = some db' ∧ Compacted markOwner db.declPool db.marked db'.declPool db'.marked := by
  obtain ⟨db, hrun, hsound⟩ := run_sound (initial_sound primitives compactMinThreshold) hok
  refine ⟨db, hrun, ?_, ?_, ?_, ?_, ?_, ?_⟩
  · exact hsound.compactAggregateFieldPool.imp fun _ hdb => ⟨hdb.1, hdb.2.2⟩
  · exact hsound.compactEnumVariantPool.imp fun _ hdb => ⟨hdb.1, hdb.2.2⟩
  · exact hsound.compactEffectOpPools.imp fun _ hdb => ⟨hdb.1, hdb.2.2⟩
  · exact hsound.compactNamespaceFieldPool.imp fun _ hdb => ⟨hdb.1, hdb.2.2⟩
  · exact hsound.compactBodyScopePools.imp fun _ hdb => ⟨hdb.1, hdb.2.2⟩
  · exact hsound.compactDeclPool.imp fun _ hdb => ⟨hdb.1, hdb.2.2⟩

end Pools

/-- Two structs are built, the second loses its slot and its range, and it is
asked for again when its declaration cannot be found. -/
def staleEvents : List Event :=
  [.addRow .structs, .addRow .structs, .typeOfStruct 1 (some [⟨1, 1⟩]),
    .typeOfStruct 2 (some [⟨2, 2⟩, ⟨3, 3⟩, ⟨4, 4⟩]), .leave .structs 2 ⟨.empty, by decide⟩, .compact,
    .typeOfStruct 2 none]

/-- The second struct is live again with its old range, which ends past the end
of the compacted pool, so the next compaction copies what is not there. -/
theorem stale_range_survives :
    ∃ db, run staleEvents (initial [] 2) = some db ∧ db.structs[2]? = some ⟨.done, 1, 3⟩ ∧
      db.aggregateFieldPool = [⟨1, 1⟩] ∧ ¬ Inside db.aggregateFieldPool 1 3 ∧ db.compactAggregateFieldPool = none ∧
      run (staleEvents ++ [.typeOfStruct 1 (some [⟨1, 5⟩]), .typeOfStruct 1 (some [⟨1, 6⟩]), .compact]) (initial [] 2)
        = none := by
  have hrun : (run staleEvents (initial [] 2)).map (fun db => (db.structs[2]?, db.aggregateFieldPool,
      db.compactAggregateFieldPool.isNone)) = some (some ⟨.done, 1, 3⟩, [⟨1, 1⟩], true) := by decide
  obtain ⟨db, hdb, heq⟩ := Option.map_eq_some_iff.mp hrun
  simp only [Prod.mk.injEq] at heq
  obtain ⟨hcell, hpool, hnone⟩ := heq
  refine ⟨db, hdb, hcell, hpool, ?_, Option.isNone_iff_eq_none.mp hnone, ?_⟩
  · rw [hpool]
    decide
  · rw [← Option.isNone_iff_eq_none]
    decide

theorem RunOk.concat {events : List Event} {event : Event} {db : Db} (h : RunOk events db)
    (hlast : ∀ db', run events db = some db' → StepOk db' event) : RunOk (events ++ [event]) db := by
  induction events generalizing db with
  | nil => exact ⟨hlast db rfl, fun _ _ => trivial⟩
  | cons e events ih =>
      refine ⟨h.1, fun db' hstep => ih (h.2 db' hstep) fun d hd => hlast d ?_⟩
      rw [run, List.foldlM_cons, hstep]
      exact hd

/-- Two structs are built, the pool is compacted, the second loses its slot, and
the first is built again, so the pool has not become shorter. -/
def rebuiltEvents : List Event :=
  [.addRow .structs, .addRow .structs, .typeOfStruct 1 (some [⟨1, 1⟩]),
    .typeOfStruct 2 (some [⟨2, 2⟩, ⟨3, 3⟩]), .compact, .leave .structs 2 ⟨.empty, by decide⟩,
    .typeOfStruct 1 (some [⟨1, 4⟩])]

/-- When the declaration of the second struct is not found then, it still has its fields. -/
theorem compaction_preserves_rebuilt :
    ∃ db, run (rebuiltEvents ++ [.typeOfStruct 2 none]) (initial [] 1) = some db ∧
      db.structs = [.zero, ⟨.done, 3, 1⟩, ⟨.done, 1, 2⟩] ∧
      ∃ db', db.compactAggregateFieldPool = some db' ∧ db'.aggregateFieldPool = [⟨2, 2⟩, ⟨3, 3⟩, ⟨1, 4⟩] ∧
        Compacted cellOwner db.aggregateFieldPool (db.structs ++ db.unions) db'.aggregateFieldPool
          (db'.structs ++ db'.unions) := by
  have hread : (run rebuiltEvents (initial [] 1)).map (fun db => (db.structs[2]?, db.aggregateFieldPool.length)) =
      some (some ⟨.empty, 1, 2⟩, 4) := by decide
  have hok : RunOk (rebuiltEvents ++ [.typeOfStruct 2 none]) (initial [] 1) := by
    refine RunOk.concat ?_ fun db hrun => ?_
    · repeat refine ⟨trivial, fun _ _ => ?_⟩
      trivial
    · rw [hrun, Option.map_some, Option.some.injEq, Prod.mk.injEq] at hread
      intro cell hcell
      rw [hread.1] at hcell
      obtain rfl := Option.mem_some.mp hcell
      rw [Inside, hread.2]
      decide
  have hdone : (run (rebuiltEvents ++ [.typeOfStruct 2 none]) (initial [] 1)).map
      (fun db => (db.structs, db.compactAggregateFieldPool.map (·.aggregateFieldPool))) =
      some ([.zero, ⟨.done, 3, 1⟩, ⟨.done, 1, 2⟩], some [⟨2, 2⟩, ⟨3, 3⟩, ⟨1, 4⟩]) := by decide
  obtain ⟨db, hrun, ⟨db', hdb', hfields⟩, -⟩ := compaction_preserves hok
  rw [hrun, Option.map_some, Option.some.injEq, Prod.mk.injEq, hdb', Option.map_some, Option.some.injEq] at hdone
  exact ⟨db, hrun, hdone.1, db', hdb', hdone.2, hfields⟩

end Ore.PoolCompaction
