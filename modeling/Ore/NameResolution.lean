import Ore.PoolCompaction

namespace Ore.NameResolution

open PoolCompaction RangeCopy
open EngineModel (QueryState)

section Lookup

variable {name : Nat} {decls decls' : List DeclEntry}

def firstDecl (name : Nat) (decls : List DeclEntry) : Nat := ((decls.find? (·.name = name)).map (·.defId)).getD 0

def scopeDecls (db : Db) (scope : Nat) : List DeclEntry :=
  (db.scopes[scope]?.map fun s => elems db.declPool s.declLo s.declLen).getD []

def parent (db : Db) (scope : Nat) : Nat := if scope = db.primitivesScope then 0 else db.primitivesScope

def resolveFrom (db : Db) (name : Nat) : Nat → Nat → Nat
  | 0, _ => 0
  | fuel + 1, scope =>
      if scope = 0 then 0
      else if firstDecl name (scopeDecls db scope) ≠ 0 then firstDecl name (scopeDecls db scope)
      else resolveFrom db name fuel (parent db scope)

def resolveRef (db : Db) (scope name : Nat) : Nat := resolveFrom db name 3 scope

theorem firstDecl_append (h : ∀ d ∈ decls, d.defId ≠ 0) : firstDecl name (decls ++ decls') =
    if firstDecl name decls ≠ 0 then firstDecl name decls else firstDecl name decls' := by
  rw [firstDecl, List.find?_append, firstDecl]
  cases hfind : decls.find? (·.name = name) with
  | none => simp [firstDecl]
  | some d =>
      have hne := h d (List.mem_of_find?_eq_some hfind)
      simp [hne]

theorem resolveRef_eq {db : Db} {scope : Nat} (hpos : scope ≠ 0) (hne : scope ≠ db.primitivesScope)
    (hprimitives : db.primitivesScope ≠ 0) : resolveRef db scope name =
      if firstDecl name (scopeDecls db scope) ≠ 0 then firstDecl name (scopeDecls db scope)
      else firstDecl name (scopeDecls db db.primitivesScope) := by
  rw [resolveRef, resolveFrom, if_neg hpos, parent, if_neg hne, resolveFrom, if_neg hprimitives, parent, if_pos rfl,
    resolveFrom, if_pos rfl]
  split
  · rfl
  · split
    · rfl
    · rename_i hzero
      exact (Decidable.not_not.mp hzero).symm

end Lookup

section Runs

def built (row : Nat) : List Event → Option (List DeclEntry)
  | [] => none
  | .namespaceScopes row' decls :: events => (built row events).or (if row' = row then some decls else none)
  | _ :: events => built row events

variable {primitives : List DeclEntry} {known : Nat → Option (List DeclEntry)} {db db' : Db}

/-- The scope of each namespace holds what it was last built from, wherever the pool has it. -/
structure Resolves (primitives : List DeclEntry) (known : Nat → Option (List DeclEntry)) (db : Db) : Prop where
  primitive : 0 < db.primitivesScope ∧ db.primitivesScope < db.scopes.length
  reads : scopeDecls db db.primitivesScope = primitives
  internal : ∀ (row : Nat) (e : Export), db.exports[row]? = some e → e.internal ≠ 0 →
    e.internal ≠ db.primitivesScope ∧ e.internal < db.scopes.length
  apart : ∀ (row row' : Nat) (e e' : Export), db.exports[row]? = some e → db.exports[row']? = some e' → e.internal ≠ 0 →
    e.internal = e'.internal → row = row'
  current : ∀ (row : Nat) (e : Export), db.exports[row]? = some e → e.state = .done →
    e.internal ≠ 0 ∧ known row = some (scopeDecls db e.internal)

theorem Resolves.congr (h : Resolves primitives known db) (hpool : db'.declPool = db.declPool)
    (hscopes : db'.scopes = db.scopes) (hexports : db'.exports = db.exports)
    (hprimitives : db'.primitivesScope = db.primitivesScope) : Resolves primitives known db' := by
  have hdecls (scope : Nat) : scopeDecls db' scope = scopeDecls db scope := by
    rw [scopeDecls, scopeDecls, hscopes, hpool]
  constructor
  · rw [hprimitives, hscopes]
    exact h.primitive
  · rw [hprimitives, hdecls]
    exact h.reads
  · rw [hexports, hprimitives, hscopes]
    exact h.internal
  · rw [hexports]
    exact h.apart
  · intro row e hrow hstate
    rw [hexports] at hrow
    rw [hdecls]
    exact h.current row e hrow hstate

theorem resolves_initial (primitives : List DeclEntry) (threshold : Nat) :
    Resolves primitives (fun _ => none) (initial primitives threshold) := by
  have hempty (row : Nat) (e : Export) (h : (initial primitives threshold).exports[row]? = some e) : e = ⟨.empty, 0⟩ :=
    List.mem_singleton.mp (List.mem_of_getElem? h)
  refine ⟨⟨Nat.one_pos, Nat.lt_succ_self 1⟩, ?_, ?_, ?_, ?_⟩
  · simp [scopeDecls, initial, elems]
  · intro row e h hne
    rw [hempty row e h] at hne
    exact absurd rfl hne
  · intro row row' e e' h _ hne
    rw [hempty row e h] at hne
    exact absurd rfl hne
  · intro row e h hstate
    rw [hempty row e h] at hstate
    cases hstate

theorem Resolves.leave (h : Resolves primitives known db) (row : Nat) {state : QueryState} (hstate : state ≠ .done) :
    Resolves primitives known { db with exports := db.exports.modify row fun e => { e with state := state } } := by
  have hget (i : Nat) (e : Export) (he : (db.exports.modify row fun e => { e with state := state })[i]? = some e) :
      ∃ old, db.exports[i]? = some old ∧ e.internal = old.internal ∧ (e.state = .done → e = old) := by
    rw [List.getElem?_modify] at he
    obtain ⟨old, hold, rfl⟩ := Option.map_eq_some_iff.mp he
    refine ⟨old, hold, ?_, ?_⟩
    · split
      · rfl
      · rfl
    · split
      · exact fun hdone => absurd hdone hstate
      · exact fun _ => rfl
  refine ⟨h.primitive, h.reads, ?_, ?_, ?_⟩
  · intro i e he hne
    obtain ⟨old, hold, hinternal, -⟩ := hget i e he
    rw [hinternal] at hne ⊢
    exact h.internal i old hold hne
  · intro i j e e' he he' hne heq
    obtain ⟨old, hold, hinternal, -⟩ := hget i e he
    obtain ⟨old', hold', hinternal', -⟩ := hget j e' he'
    rw [hinternal] at hne heq
    rw [hinternal'] at heq
    exact h.apart i j old old' hold hold' hne heq
  · intro i e he hdone
    obtain ⟨old, hold, -, hsame⟩ := hget i e he
    obtain rfl := hsame hdone
    exact h.current i e hold hdone

theorem elems_append {α : Type} {pool : List α} {off len : Nat} (h : Inside pool off len) (more : List α) :
    elems (pool ++ more) off len = elems pool off len := by
  rcases h with rfl | h
  · simp [elems]
  · rw [elems, elems, List.drop_append_of_le_length (by omega), List.take_append_of_le_length]
    rw [List.length_drop]
    omega

/-- A scope that stays in its place reads the same from a longer pool. -/
theorem scopeDecls_kept {scope : Nat} {s : Scope} (hsound : ∀ s ∈ db.scopes, Inside db.declPool s.declLo s.declLen)
    (hget : db.scopes[scope]? = some s) (hget' : db'.scopes[scope]? = some s) {more : List DeclEntry}
    (hpool : db'.declPool = db.declPool ++ more) : scopeDecls db' scope = scopeDecls db scope := by
  rw [scopeDecls, scopeDecls, hget, hget', hpool]
  exact elems_append (hsound s (List.mem_of_getElem? hget)) more

/-- Where a rebuild puts the scope of a namespace. -/
structure Rebuilt (db db' : Db) (row internal : Nat) (decls : List DeclEntry) : Prop where
  pool : db'.declPool = db.declPool ++ decls
  primitives : db'.primitivesScope = db.primitivesScope
  exports : db'.exports = db.exports.set row ⟨.done, internal⟩
  scope : db'.scopes[internal]? = some ⟨db.declPool.length, decls.length⟩
  others : ∀ scope s, scope ≠ internal → db.scopes[scope]? = some s → db'.scopes[scope]? = some s
  internal : ∃ prev, db.exports[row]? = some prev ∧ (prev.internal = internal ∧ internal ≠ 0 ∨
    prev.internal = 0 ∧ internal = db.scopes.length)

theorem namespaceScopes_cases (h : Resolves primitives known db) (row : Nat) (decls : List DeclEntry) :
    db.namespaceScopes row decls = db ∧ db.exports[row]? = none ∨
      ∃ internal, Rebuilt db (db.namespaceScopes row decls) row internal decls := by
  rw [Db.namespaceScopes]
  split
  · rename_i hnone
    exact .inl ⟨rfl, hnone⟩
  · rename_i prev hprev
    refine .inr ?_
    by_cases hzero : prev.internal = 0
    · refine ⟨db.scopes.length, ?_⟩
      simp only [hzero, if_true]
      refine ⟨rfl, rfl, rfl, ?_, ?_, prev, hprev, .inr ⟨hzero, rfl⟩⟩
      · rw [List.getElem?_modify_eq, List.getElem?_concat_length]
        rfl
      · intro scope s hne hget
        rw [List.getElem?_modify_ne _ _ (Ne.symm hne),
          List.getElem?_append_left (List.getElem?_eq_some_iff.mp hget).1]
        exact hget
    · refine ⟨prev.internal, ?_⟩
      simp only [hzero, if_false]
      obtain ⟨-, hlt⟩ := h.internal row prev hprev hzero
      refine ⟨rfl, rfl, rfl, ?_, ?_, prev, hprev, .inl ⟨rfl, hzero⟩⟩
      · rw [List.getElem?_modify_eq, List.getElem?_eq_getElem hlt]
        rfl
      · intro scope s hne hget
        rw [List.getElem?_modify_ne _ _ (Ne.symm hne)]
        exact hget

theorem Rebuilt.resolves {row internal : Nat} {decls : List DeclEntry} (hrebuilt : Rebuilt db db' row internal decls)
    (h : Resolves primitives known db) (hsound : ∀ s ∈ db.scopes, Inside db.declPool s.declLo s.declLen) :
    Resolves primitives (fun i => if row = i then some decls else known i) db' := by
  obtain ⟨prev, hprev, hinternal⟩ := hrebuilt.internal
  have hpos : internal ≠ 0 := by
    rcases hinternal with ⟨-, hne⟩ | ⟨-, rfl⟩
    · exact hne
    · have := h.primitive
      omega
  have hapart : internal ≠ db.primitivesScope := by
    rcases hinternal with ⟨rfl, hne⟩ | ⟨-, rfl⟩
    · exact (h.internal row prev hprev hne).1
    · have := h.primitive.2
      omega
  have hlt : internal < db'.scopes.length := (List.getElem?_eq_some_iff.mp hrebuilt.scope).1
  have hgrows (scope : Nat) (hscope : scope < db.scopes.length) : scope < db'.scopes.length := by
    by_cases heq : scope = internal
    · exact heq ▸ hlt
    · exact (List.getElem?_eq_some_iff.mp (hrebuilt.others scope _ heq (List.getElem?_eq_getElem hscope))).1
  have hother (i : Nat) (e : Export) (hne : i ≠ row) (he : db.exports[i]? = some e) (hnz : e.internal ≠ 0) :
      e.internal ≠ internal := by
    rintro heq
    rcases hinternal with ⟨hsame, hne'⟩ | ⟨-, rfl⟩
    · exact hne (h.apart i row e prev he hprev hnz (heq.trans hsame.symm))
    · have := (h.internal i e he hnz).2
      omega
  have hkept (scope : Nat) (hne : scope ≠ internal) (hscope : scope < db.scopes.length) :
      scopeDecls db' scope = scopeDecls db scope :=
    scopeDecls_kept hsound (List.getElem?_eq_getElem hscope)
      (hrebuilt.others scope _ hne (List.getElem?_eq_getElem hscope)) hrebuilt.pool
  have hget (i : Nat) (e : Export) (he : db'.exports[i]? = some e) :
      i = row ∧ e = ⟨.done, internal⟩ ∨ i ≠ row ∧ db.exports[i]? = some e := by
    rw [hrebuilt.exports, List.getElem?_set] at he
    split at he
    · rename_i heq
      split at he
      · exact .inl ⟨heq.symm, (Option.some.inj he).symm⟩
      · cases he
    · rename_i hne
      exact .inr ⟨Ne.symm hne, he⟩
  have hbuilt : scopeDecls db' internal = decls := by
    rw [scopeDecls, hrebuilt.scope, hrebuilt.pool]
    simp [elems]
  refine ⟨?_, ?_, ?_, ?_, ?_⟩
  · rw [hrebuilt.primitives]
    exact ⟨h.primitive.1, hgrows _ h.primitive.2⟩
  · rw [hrebuilt.primitives, hkept _ (Ne.symm hapart) h.primitive.2]
    exact h.reads
  · intro i e he hne
    rw [hrebuilt.primitives]
    rcases hget i e he with ⟨-, rfl⟩ | ⟨-, he⟩
    · exact ⟨hapart, hlt⟩
    · obtain ⟨hprimitive, hscope⟩ := h.internal i e he hne
      exact ⟨hprimitive, hgrows _ hscope⟩
  · intro i j e e' he he' hne heq
    rcases hget i e he with ⟨rfl, rfl⟩ | ⟨hi, he⟩
    · rcases hget j e' he' with ⟨rfl, -⟩ | ⟨hj, he'⟩
      · rfl
      · exact absurd heq.symm (hother j e' hj he' (heq ▸ hne))
    · rcases hget j e' he' with ⟨rfl, rfl⟩ | ⟨-, he'⟩
      · exact absurd heq (hother i e hi he hne)
      · exact h.apart i j e e' he he' hne heq
  · intro i e he hdone
    rcases hget i e he with ⟨rfl, rfl⟩ | ⟨hi, he⟩
    · rw [if_pos rfl, hbuilt]
      exact ⟨hpos, rfl⟩
    · obtain ⟨hnz, hknown⟩ := h.current i e he hdone
      rw [if_neg (Ne.symm hi), hkept _ (hother i e hi he hnz) (h.internal i e he hnz).2]
      exact ⟨hnz, hknown⟩

theorem scopeDecls_compacted (h : Compacted markOwner db.declPool db.marked db'.declPool db'.marked) {scope : Nat}
    (hlive : db.isLive scope = true) (hlt : scope < db.scopes.length) :
    scope < db'.scopes.length ∧ scopeDecls db' scope = scopeDecls db scope := by
  have hscope := List.getElem?_eq_getElem hlt
  have hmarked : db.marked[scope]? = some (true, db.scopes[scope]) := by
    rw [marked_get, hscope, Option.map_some, hlive]
  obtain ⟨o, ho, -⟩ := h.owner scope _ hmarked
  obtain ⟨hinside, hreads⟩ := h.reads scope _ o hmarked ho rfl
  rw [marked_get] at ho
  obtain ⟨s, hs, rfl⟩ := Option.map_eq_some_iff.mp ho
  refine ⟨(List.getElem?_eq_some_iff.mp hs).1, ?_⟩
  rw [scopeDecls, scopeDecls, hs, hscope]
  rw [slice, slice, if_pos hinside] at hreads
  split at hreads
  · exact Option.some.inj hreads
  · cases hreads

theorem Resolves.compactDeclPool (h : Resolves primitives known db) (hsound : Sound db)
    (hstep : db.compactDeclPool = some db') : Resolves primitives known db' := by
  obtain ⟨next, hnext, -, hcompacted⟩ := hsound.compactDeclPool
  obtain rfl := Option.some.inj (hnext.symm.trans hstep)
  obtain ⟨⟨pool, scopes⟩, -, hdb⟩ := Option.map_eq_some_iff.mp hstep
  have hexports : next.exports = db.exports := by rw [← hdb]
  have hprimitives : next.primitivesScope = db.primitivesScope := by rw [← hdb]
  have hlength : next.scopes.length = db.scopes.length := by
    have := hcompacted.length
    simpa [Db.marked] using this
  have hprimitive : db.isLive db.primitivesScope = true := by
    rw [Db.isLive, beq_self_eq_true, Bool.true_or]
  refine ⟨?_, ?_, ?_, ?_, ?_⟩
  · rw [hprimitives, hlength]
    exact h.primitive
  · rw [hprimitives, (scopeDecls_compacted hcompacted hprimitive h.primitive.2).2]
    exact h.reads
  · rw [hexports, hprimitives, hlength]
    exact h.internal
  · rw [hexports]
    exact h.apart
  · intro row e he hdone
    rw [hexports] at he
    obtain ⟨hne, hknown⟩ := h.current row e he hdone
    have hlive : db.isLive e.internal = true := by
      rw [Db.isLive, Bool.or_eq_true, List.any_eq_true]
      exact .inr ⟨e, List.mem_of_getElem? he, by simp [hdone, hne]⟩
    rw [(scopeDecls_compacted hcompacted hlive (h.internal row e he hne).2).2]
    exact ⟨hne, hknown⟩

theorem Resolves.pass (h : Resolves primitives known db) (hsound : Sound db) {pass : (Db → Bool) × (Db → Option Db)}
    (hpass : pass ∈ Db.passes) (hstep : pass.2 db = some db') : Resolves primitives known db' := by
  simp only [Db.passes, List.mem_cons, List.not_mem_nil, or_false] at hpass
  rcases hpass with rfl | rfl | rfl | rfl | rfl | rfl
  · simp only [Db.compactBodyScopePools] at hstep
    split at hstep
    · exact Option.some.inj hstep ▸ h.congr rfl rfl rfl rfl
    · cases hstep
  · exact h.compactDeclPool hsound hstep
  · obtain ⟨_, -, rfl⟩ := Option.map_eq_some_iff.mp hstep
    exact h.congr rfl rfl rfl rfl
  · simp only [Db.compactEffectOpPools] at hstep
    split at hstep
    · exact Option.some.inj hstep ▸ h.congr rfl rfl rfl rfl
    · cases hstep
  · obtain ⟨_, -, rfl⟩ := Option.map_eq_some_iff.mp hstep
    exact h.congr rfl rfl rfl rfl
  · obtain ⟨_, -, rfl⟩ := Option.map_eq_some_iff.mp hstep
    exact h.congr rfl rfl rfl rfl

theorem Resolves.poolsMaybeCompact (h : Resolves primitives known db) (hsound : Sound db)
    (hstep : db.poolsMaybeCompact = some db') : Resolves primitives known db' := by
  have hall (passes : List ((Db → Bool) × (Db → Option Db))) (hsub : passes ⊆ Db.passes) (db : Db) (hsound : Sound db)
      (h : Resolves primitives known db)
      (hstep : passes.foldlM (fun db pass => if pass.1 db then pass.2 db else some db) db = some db') :
      Resolves primitives known db' := by
    induction passes generalizing db with
    | nil => exact Option.some.inj hstep ▸ h
    | cons pass passes ih =>
        obtain ⟨hmem, hrest⟩ := List.cons_subset.mp hsub
        rw [List.foldlM_cons] at hstep
        obtain ⟨next, hfirst, hlast⟩ := Option.bind_eq_some_iff.mp hstep
        split at hfirst
        · obtain ⟨next', hnext', hsound'⟩ := hsound.pass hmem
          obtain rfl := Option.some.inj (hnext'.symm.trans hfirst)
          exact ih hrest next' hsound' (h.pass hsound hmem hfirst) hlast
        · obtain rfl := Option.some.inj hfirst
          exact ih hrest db hsound h hlast
  exact hall Db.passes (List.Subset.refl _) db hsound h hstep

def note (known : Nat → Option (List DeclEntry)) : Event → Nat → Option (List DeclEntry)
  | .namespaceScopes row decls, i => if row = i then some decls else known i
  | _, i => known i

theorem step_resolves {event : Event} (h : Resolves primitives known db) (hsound : Sound db)
    (hstep : step db event = some db') : Resolves primitives (note known event) db' := by
  cases event with
  | addRow table =>
      obtain rfl := Option.some.inj hstep
      cases table with
      | exports =>
          have hget (i : Nat) (e : Export) (he : (db.exports ++ [⟨.empty, 0⟩])[i]? = some e) :
              db.exports[i]? = some e ∨ e = ⟨.empty, 0⟩ := by
            rw [List.getElem?_append] at he
            split at he
            · exact .inl he
            · exact .inr (List.mem_singleton.mp (List.mem_of_getElem? he))
          refine ⟨h.primitive, h.reads, ?_, ?_, ?_⟩
          · intro row e he hne
            rcases hget row e he with he | rfl
            · exact h.internal row e he hne
            · exact absurd rfl hne
          · intro row row' e e' he he' hne heq
            rcases hget row e he with he | rfl
            · rcases hget row' e' he' with he' | rfl
              · exact h.apart row row' e e' he he' hne heq
              · exact absurd heq hne
            · exact absurd rfl hne
          · intro row e he hdone
            rcases hget row e he with he | rfl
            · exact h.current row e he hdone
            · cases hdone
      | structs | unions | enums | effects | namespaces | bodies => exact h.congr rfl rfl rfl rfl
  | typeOfStruct | typeOfUnion | typeOfEnum | typeOfEffect | namespaceType =>
      obtain rfl := Option.some.inj hstep
      exact h.congr rfl rfl rfl rfl
  | bodyScopes row body =>
      obtain rfl := Option.some.inj hstep
      cases body with
      | none => exact h.congr rfl rfl rfl rfl
      | some body => exact h.congr rfl rfl rfl rfl
  | namespaceScopes row decls =>
      obtain rfl := Option.some.inj hstep
      rcases namespaceScopes_cases h row decls with ⟨hsame, hnone⟩ | ⟨internal, hrebuilt⟩
      · rw [hsame]
        refine { h with current := ?_ }
        intro i e he hdone
        have hne : row ≠ i := by
          rintro rfl
          rw [hnone] at he
          cases he
        rw [note, if_neg hne]
        exact h.current i e he hdone
      · exact hrebuilt.resolves h hsound.decls
  | leave table row state =>
      obtain rfl := Option.some.inj hstep
      cases table with
      | exports => exact h.leave row state.2
      | structs | unions | enums | effects | namespaces | bodies => exact h.congr rfl rfl rfl rfl
  | compact => exact h.poolsMaybeCompact hsound hstep

theorem built_cons (row : Nat) (event : Event) (events : List Event) :
    (built row (event :: events)).or (known row) = (built row events).or (note known event row) := by
  cases event with
  | namespaceScopes row' decls =>
      rw [built, note, Option.or_assoc]
      split
      · rfl
      · rfl
  | _ => rfl

theorem run_resolves {events : List Event} (h : Resolves primitives known db) (hsound : Sound db)
    (hok : RunOk events db) : ∃ db', run events db = some db' ∧
      Resolves primitives (fun row => (built row events).or (known row)) db' := by
  induction events generalizing db known with
  | nil => exact ⟨db, rfl, h⟩
  | cons event events ih =>
      obtain ⟨next, hstep, hsound'⟩ := step_sound hsound hok.1
      obtain ⟨db', hrun, hresolves⟩ := ih (step_resolves h hsound hstep) hsound' (hok.2 next hstep)
      refine ⟨db', ?_, ?_⟩
      · rw [run, List.foldlM_cons, hstep]
        exact hrun
      · simp only [built_cons]
        exact hresolves

/-- After any run, a name resolves in the scope of a namespace as in the declarations that it was
last built from, or else in the primitives, whatever else was built, dropped and compacted. -/
theorem names_resolve {threshold : Nat} {events : List Event} (hok : RunOk events (initial primitives threshold)) :
    ∃ db, run events (initial primitives threshold) = some db ∧
      (∀ name, resolveRef db db.primitivesScope name = firstDecl name primitives) ∧
      ∀ row internal, db.exports[row]? = some ⟨.done, internal⟩ → ∃ decls, built row events = some decls ∧
        ((∀ d ∈ decls, d.defId ≠ 0) → ∀ name, resolveRef db internal name = firstDecl name (decls ++ primitives)) := by
  obtain ⟨db, hrun, h⟩ := run_resolves (resolves_initial primitives threshold) (initial_sound primitives threshold) hok
  have hprimitives : db.primitivesScope ≠ 0 := Nat.ne_of_gt h.primitive.1
  refine ⟨db, hrun, ?_, ?_⟩
  · intro name
    rw [resolveRef, resolveFrom, if_neg hprimitives, h.reads, parent, if_pos rfl, resolveFrom, if_pos rfl]
    split
    · rfl
    · rename_i hzero
      exact (Decidable.not_not.mp hzero).symm
  · intro row internal hrow
    obtain ⟨hne, hbuilt⟩ := h.current row _ hrow rfl
    refine ⟨scopeDecls db internal, (Option.or_none.symm.trans hbuilt), ?_⟩
    intro hdecls name
    rw [resolveRef_eq hne (h.internal row _ hrow hne).1 hprimitives, h.reads, firstDecl_append hdecls]

def rebuiltEvents : List Event :=
  [.addRow .exports, .addRow .exports, .namespaceScopes 1 [⟨7, 1⟩], .namespaceScopes 2 [⟨8, 2⟩],
    .namespaceScopes 1 [⟨7, 1⟩, ⟨9, 3⟩], .compact]

theorem names_resolve_rebuilt : ∃ db, run rebuiltEvents (initial [⟨5, 4⟩] 1) = some db ∧
    db.declPool = [⟨5, 4⟩, ⟨7, 1⟩, ⟨9, 3⟩, ⟨8, 2⟩] ∧ resolveRef db 2 9 = 3 ∧ resolveRef db 2 8 = 0 := by
  have hok : RunOk rebuiltEvents (initial [⟨5, 4⟩] 1) :=
    ⟨trivial, fun _ _ => ⟨trivial, fun _ _ => ⟨trivial, fun _ _ => ⟨trivial, fun _ _ => ⟨trivial, fun _ _ =>
      ⟨trivial, fun _ _ => trivial⟩⟩⟩⟩⟩⟩
  obtain ⟨db, hrun, -, hresolve⟩ := names_resolve hok
  have heval : (run rebuiltEvents (initial [⟨5, 4⟩] 1)).map (fun db => (db.declPool, db.exports[1]?)) =
      some ([⟨5, 4⟩, ⟨7, 1⟩, ⟨9, 3⟩, ⟨8, 2⟩], some ⟨.done, 2⟩) := by decide
  rw [hrun] at heval
  obtain ⟨hpool, hexport⟩ := Prod.mk.inj (Option.some.inj heval)
  obtain ⟨decls, hbuilt, hnames⟩ := hresolve 1 2 hexport
  obtain rfl : [⟨7, 1⟩, ⟨9, 3⟩] = decls := Option.some.inj hbuilt
  exact ⟨db, hrun, hpool, hnames (by decide) 9, hnames (by decide) 8⟩

end Runs

end Ore.NameResolution
