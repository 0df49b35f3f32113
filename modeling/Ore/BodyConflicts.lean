import Ore.ScopeGrowth

namespace Ore.BodyConflicts

open GreenTree RedTree DeclAstIds DeclAstPaths BodyScopes ScopeGrowth
open ParentLinks (chain above Grounded climb climb_eq)
open NamespaceItems (word)
open WorkspaceModel (Bytes)

section Check

/-- Whether a scope is strictly above another. -/
def scopeIsAncestor (scopes : List ScopeRow) (anc sc : Nat) : Bool :=
  (climb (parentOf scopes) (fun p => if p = anc then some () else none) (scopes.length + 2)
    (parentOf scopes sc)).join.isSome

inductive Conflict where
  | redefinition
  | shadow
  deriving DecidableEq, Repr

def Conflict.message (conflict : Conflict) (name : Bytes) : Bytes := match conflict with
  | .redefinition => word "redefinition of " ++ name
  | .shadow => name ++ word " shadows an outer declaration"

def conflictWith (scopes : List ScopeRow) (cur earlier : ScopedBind) : Option Conflict :=
  if earlier.name ≠ cur.name then none
  else if earlier.scopeId = cur.scopeId then some .redefinition
  else if scopeIsAncestor scopes earlier.scopeId cur.scopeId then some .shadow
  else none

def conflictAt (fb : FnBody) (i : Nat) : Option Conflict :=
  fb.binds[i]?.bind fun cur => (fb.binds.take i).findSome? (conflictWith fb.scopes cur)

structure Diag where
  anchor : Option SyntaxNodePtr
  message : Bytes
  deriving DecidableEq

def diagAt (wrapper : SyntaxNode) (fb : FnBody) (i : Nat) : Option Diag :=
  fb.binds[i]?.bind fun cur => (conflictAt fb i).map fun conflict =>
    ⟨(declAstIdResolve wrapper ((relOf wrapper cur.bindSite).getD 0)).map Placed.ptr, conflict.message cur.name⟩

def emitBodyConflictErrors (wrapper : SyntaxNode) (fb : FnBody) : List Diag :=
  (List.range' 1 (fb.binds.length - 1)).filterMap (diagAt wrapper fb)

def Reported (wrapper : SyntaxNode) (fb : FnBody) (i : Nat) : Prop :=
  i ∈ List.range' 1 (fb.binds.length - 1) ∧ (diagAt wrapper fb i).isSome

end Check

section Properties

/-- One scope encloses the other, or they are the same. -/
def Nested (fb : FnBody) (s t : Nat) : Prop := s ∈ chain fb.parent t ∨ t ∈ chain fb.parent s

/-- Of two binds of one name in nested scopes one is reported. -/
def Complete (wrapper : SyntaxNode) (fb : FnBody) : Prop :=
  ∀ (i j : Nat) (x y : ScopedBind), i ≠ j → fb.binds[i]? = some x → fb.binds[j]? = some y → x.name = y.name →
    Nested fb x.scopeId y.scopeId → Reported wrapper fb i ∨ Reported wrapper fb j

/-- A name denotes one bind at most wherever it is visible. -/
def OneBind (fb : FnBody) : Prop :=
  ∀ (scope i j : Nat) (x y : ScopedBind), fb.binds[i]? = some x → fb.binds[j]? = some y → x.name = y.name →
    x.scopeId ∈ chain fb.parent scope → y.scopeId ∈ chain fb.parent scope → i = j

def OrderFree (wrapper : SyntaxNode) (fb : FnBody) : Prop :=
  ∀ binds, binds.Perm fb.binds → ∀ useNode name,
    dbBodyScopeLookup wrapper { fb with binds } useNode name = dbBodyScopeLookup wrapper fb useNode name

/-- An earlier bind of the same name is visible where a bind stands. -/
def SeesEarlier (fb : FnBody) (i : Nat) (x : ScopedBind) : Prop :=
  ∃ (k : Nat) (z : ScopedBind), k < i ∧ fb.binds[k]? = some z ∧ z.name = x.name ∧
    z.scopeId ∈ chain fb.parent x.scopeId

/-- Where a bind comes after one of its name inside its scope, the inner one sees
a still earlier bind of the name. -/
def OuterFirst (fb : FnBody) : Prop :=
  ∀ (i j : Nat) (x y : ScopedBind), i < j → fb.binds[i]? = some x → fb.binds[j]? = some y → x.name = y.name →
    y.scopeId ∈ above fb.parent x.scopeId → SeesEarlier fb i x

end Properties

section Reports

variable {wrapper : SyntaxNode} {fb : FnBody}

theorem scopeIsAncestor_iff {scopes : List ScopeRow} (hup : Grounded (parentOf scopes)) {anc sc : Nat}
    (hsc : sc < scopes.length) : scopeIsAncestor scopes anc sc = true ↔ anc ∈ above (parentOf scopes) sc := by
  have hfuel : ∀ s, parentOf scopes sc = some s → s + 1 < scopes.length + 2 := fun s hs => by
    have hlt := hup sc s hs
    omega
  rw [scopeIsAncestor, climb_eq hup _ hfuel (by omega), Option.join_some, List.findSome?_isSome_iff, above]
  cases parentOf scopes sc <;> simp

theorem conflictWith_iff (h : dbQueryBodyScopes wrapper = some fb) {x z : ScopedBind}
    (hx : x.scopeId < fb.scopes.length) :
    (conflictWith fb.scopes x z).isSome ↔ z.name = x.name ∧ z.scopeId ∈ chain fb.parent x.scopeId := by
  have hup := grounded_of_query h
  have hanc : scopeIsAncestor fb.scopes z.scopeId x.scopeId = true ↔ z.scopeId ∈ above fb.parent x.scopeId :=
    scopeIsAncestor_iff hup hx
  rw [ParentLinks.mem_chain_iff hup, conflictWith]
  by_cases hname : z.name = x.name
  · by_cases hsame : z.scopeId = x.scopeId
    · simp [hname, hsame]
    · rw [if_neg (not_not.mpr hname), if_neg hsame]
      split
      · rename_i hs
        simp [hname, hanc.mp hs]
      · rename_i hs
        simp [hsame, show z.scopeId ∉ above fb.parent x.scopeId from fun hz => hs (hanc.mpr hz)]
  · simp [hname]

theorem reported_iff (h : dbQueryBodyScopes wrapper = some fb) {i : Nat} {x : ScopedBind} (hx : fb.binds[i]? = some x) :
    Reported wrapper fb i ↔ SeesEarlier fb i x := by
  obtain ⟨hlt, -⟩ := List.getElem?_eq_some_iff.mp hx
  have hdiag : (diagAt wrapper fb i).isSome ↔ ∃ z ∈ fb.binds.take i, (conflictWith fb.scopes x z).isSome := by
    simp [diagAt, conflictAt, hx]
  rw [Reported, hdiag]
  constructor
  · rintro ⟨-, z, hz, hconflict⟩
    obtain ⟨k, hk⟩ := List.mem_iff_getElem?.mp hz
    rw [List.getElem?_take] at hk
    split at hk
    · exact ⟨k, z, by assumption, hk, (conflictWith_iff h (bind_lt h hx)).mp hconflict⟩
    · exact absurd hk (by simp)
  · rintro ⟨k, z, hk, hz, hvisible⟩
    refine ⟨by rw [List.mem_range'_1]; omega, z, ?_, (conflictWith_iff h (bind_lt h hx)).mpr hvisible⟩
    exact List.mem_of_getElem? (by rw [List.getElem?_take, if_pos hk, hz] : (fb.binds.take i)[k]? = some z)

end Reports

section Completeness

variable {wrapper : SyntaxNode} {fb : FnBody}

theorem complete_of_outerFirst (h : dbQueryBodyScopes wrapper = some fb) (hfirst : OuterFirst fb) :
    Complete wrapper fb := by
  have hlater : ∀ (i j : Nat) (x y : ScopedBind), i < j → fb.binds[i]? = some x → fb.binds[j]? = some y →
      x.name = y.name → Nested fb x.scopeId y.scopeId → Reported wrapper fb i ∨ Reported wrapper fb j := by
    intro i j x y hij hx hy hname hnested
    rcases hnested with hin | hout
    · exact .inr ((reported_iff h hy).mpr ⟨i, x, hij, hx, hname, hin⟩)
    · rcases (ParentLinks.mem_chain_iff (grounded_of_query h)).mp hout with heq | hout
      · exact .inr ((reported_iff h hy).mpr ⟨i, x, hij, hx, hname, heq ▸ ParentLinks.mem_chain_self _⟩)
      · exact .inl ((reported_iff h hx).mpr (hfirst i j x y hij hx hy hname hout))
  intro i j x y hij hx hy hname hnested
  rcases Nat.lt_or_gt_of_ne hij with hlt | hgt
  · exact hlater i j x y hlt hx hy hname hnested
  · exact (hlater j i y x hgt hy hx hname.symm hnested.symm).symm

/-- Of the later binds in outer scopes the first one shows it: its own report
names a bind before the inner one. -/
theorem outerFirst_of_complete (h : dbQueryBodyScopes wrapper = some fb) (hcomplete : Complete wrapper fb) :
    OuterFirst fb := by
  have hup := grounded_of_query h
  intro i j
  induction j using Nat.strongRecOn with
  | _ j ih =>
      intro x y hij hx hy hname hout
      have hin : y.scopeId ∈ chain fb.parent x.scopeId := (ParentLinks.mem_chain_iff hup).mpr (.inr hout)
      rcases hcomplete i j x y (by omega) hx hy hname (.inr hin) with hi | hj
      · exact (reported_iff h hx).mp hi
      · obtain ⟨k, z, hk, hz, hzname, hzin⟩ := (reported_iff h hy).mp hj
        have hzx : z.scopeId ∈ chain fb.parent x.scopeId := ParentLinks.mem_chain_trans hup hzin hin
        rcases Nat.lt_trichotomy k i with hlt | rfl | hgt
        · exact ⟨k, z, hlt, hz, hzname.trans hname.symm, hzx⟩
        · have hle := ParentLinks.le_of_mem_chain hup hzin
          have hlt := ParentLinks.lt_of_mem_above hup hout
          rw [Option.some.inj (hz.symm.trans hx)] at hle
          omega
        · refine ih k hk x z hgt hx hz (hname.trans hzname.symm) ?_
          rcases (ParentLinks.mem_chain_iff hup).mp hzx with heq | habove
          · have hle := ParentLinks.le_of_mem_chain hup hzin
            have hlt := ParentLinks.lt_of_mem_above hup hout
            omega
          · exact habove

end Completeness

section Lookup

variable {wrapper : SyntaxNode} {fb : FnBody}

theorem reported_none (hsilent : emitBodyConflictErrors wrapper fb = []) (i : Nat) : ¬Reported wrapper fb i := by
  rintro ⟨hi, hdiag⟩
  rw [emitBodyConflictErrors, List.filterMap_eq_nil_iff] at hsilent
  rw [hsilent i hi] at hdiag
  exact absurd hdiag (by simp)

theorem oneBind_of_silent (h : dbQueryBodyScopes wrapper = some fb) (hcomplete : Complete wrapper fb)
    (hsilent : emitBodyConflictErrors wrapper fb = []) : OneBind fb := by
  intro scope i j x y hx hy hname hxin hyin
  by_contra hne
  have hnested : Nested fb x.scopeId y.scopeId := ParentLinks.mem_chain_total (grounded_of_query h) hxin hyin
  exact (hcomplete i j x y hne hx hy hname hnested).elim (reported_none hsilent i) (reported_none hsilent j)

theorem bindIn_perm {binds : List ScopedBind} {name : Bytes} {scope : Nat} (hone : OneBind fb)
    (hperm : binds.Perm fb.binds) : bindIn binds name scope = bindIn fb.binds name scope := by
  have hfew : (fb.binds.filter (isBindOf name scope)).length ≤ 1 := by
    have hapart : fb.binds.Pairwise fun x y => ¬(isBindOf name scope x ∧ isBindOf name scope y) := by
      rw [List.pairwise_iff_getElem]
      intro i j hi hj hij hboth
      simp only [isBindOf, decide_eq_true_eq] at hboth
      obtain ⟨⟨hxs, hxn⟩, hys, hyn⟩ := hboth
      have heq := hone scope i j _ _ (List.getElem?_eq_getElem hi) (List.getElem?_eq_getElem hj)
        (hxn.trans hyn.symm) (hxs ▸ ParentLinks.mem_chain_self _) (hys ▸ ParentLinks.mem_chain_self _)
      omega
    by_contra hmany
    have hfiltered := List.pairwise_iff_getElem.mp (hapart.filter (isBindOf name scope)) 0 1 (by omega) (by omega)
      Nat.zero_lt_one
    exact hfiltered ⟨(List.mem_filter.mp (List.getElem_mem _)).2, (List.mem_filter.mp (List.getElem_mem _)).2⟩
  have hsame := hperm.filter (isBindOf name scope)
  rw [bindIn_eq, bindIn_eq]
  cases hl : fb.binds.filter (isBindOf name scope) with
  | nil =>
      rw [hl] at hsame
      rw [List.perm_nil.mp hsame]
  | cons x xs =>
      rw [hl, List.length_cons] at hfew
      have hxs : xs = [] := List.length_eq_zero_iff.mp (by omega)
      rw [hl, hxs] at hsame
      rw [hxs, List.perm_singleton.mp hsame]

theorem orderFree_of_oneBind (hone : OneBind fb) : OrderFree wrapper fb := by
  intro binds hperm useNode name
  have hbinds : bindIn binds name = bindIn fb.binds name := funext fun scope => bindIn_perm hone hperm
  have hfrom : bindFrom { fb with binds } name = bindFrom fb name := by
    funext scope
    rw [bindFrom, bindFrom, hbinds]
    rfl
  rw [dbBodyScopeLookup, dbBodyScopeLookup, hfrom]

end Lookup

section Results

/-- The check reports one of every two binds of a name in nested scopes, and a
body without reports has no ambiguous name, exactly when the binds of a name come
outer ones first. -/
theorem conflict_check_iff {wrapper : SyntaxNode} {fb : FnBody} (h : dbQueryBodyScopes wrapper = some fb) :
    (Complete wrapper fb ∧ (emitBodyConflictErrors wrapper fb = [] → OneBind fb ∧ OrderFree wrapper fb)) ↔
      OuterFirst fb := by
  constructor
  · intro hall
    exact outerFirst_of_complete h hall.1
  · intro hfirst
    have hcomplete := complete_of_outerFirst h hfirst
    refine ⟨hcomplete, fun hsilent => ?_⟩
    have hone := oneBind_of_silent h hcomplete hsilent
    exact ⟨hone, orderFree_of_oneBind hone⟩

def bindOf (name value : String) : Green :=
  .node .bindDecl [.token ⟨.ident, word name⟩, .token ⟨.colonEq, word ":="⟩,
    .node .literalExpr [.token ⟨.intLit, word value⟩]]

def blockOf (stmts : List Green) : Green :=
  .node .blockStmt [.token ⟨.lbrace, word "\x7b"⟩, .node .stmtList stmts, .token ⟨.rbrace, word "\x7d"⟩]

/-- `f::fn()` with a block. -/
def functionOf (stmts : List Green) : SyntaxNode where
  kind := .bindDecl
  children := [.token ⟨.ident, word "f"⟩, .token ⟨.colonColon, word "::"⟩,
    .node .lambdaExpr [.token ⟨.fnKw, word "fn"⟩, .token ⟨.lparen, word "("⟩,
      .node .paramList [.token ⟨.rparen, word ")"⟩], blockOf stmts]]
  start := 0

def sites (fb : FnBody) : List (Bytes × Nat × List Nat) :=
  fb.binds.map fun x => (x.name, x.scopeId, above fb.parent x.scopeId)

theorem outer_first_sites :
    ((dbQueryBodyScopes (functionOf [bindOf "x" "1", .token ⟨.semi, word ";"⟩, blockOf [bindOf "x" "2"]])).map sites =
      some [(word "x", 1, [0]), (word "x", 2, [1, 0])]) ∧
    ((dbQueryBodyScopes (functionOf [blockOf [bindOf "x" "1"], .token ⟨.semi, word ";"⟩, bindOf "x" "2"])).map sites =
      some [(word "x", 2, [1, 0]), (word "x", 1, [0])]) := by
  decide +kernel

theorem site_of_getElem {fb : FnBody} {i : Nat} {x : ScopedBind} (h : fb.binds[i]? = some x) :
    (sites fb)[i]? = some (x.name, x.scopeId, above fb.parent x.scopeId) := by
  rw [sites, List.getElem?_map, h, Option.map_some]

/-- In `{x:=1;{x:=2}}` the inner bind is reported. -/
theorem conflict_check_outer_first : ∃ fb,
    dbQueryBodyScopes (functionOf [bindOf "x" "1", .token ⟨.semi, word ";"⟩, blockOf [bindOf "x" "2"]]) = some fb ∧
      Complete (functionOf [bindOf "x" "1", .token ⟨.semi, word ";"⟩, blockOf [bindOf "x" "2"]]) fb := by
  obtain ⟨fb, hquery, hsites⟩ := Option.map_eq_some_iff.mp outer_first_sites.1
  refine ⟨fb, hquery, ((conflict_check_iff hquery).mpr fun i j x y hij hx hy _ hout => ?_).1⟩
  have hcount : fb.binds.length = 2 := by simpa [sites] using congrArg List.length hsites
  have hj : j < 2 := hcount ▸ (List.getElem?_eq_some_iff.mp hy).1
  obtain ⟨rfl, rfl⟩ : i = 0 ∧ j = 1 := by omega
  have hsx := site_of_getElem hx
  have hsy := site_of_getElem hy
  rw [hsites] at hsx hsy
  simp only [List.getElem?_cons_zero, List.getElem?_cons_succ, Option.some.injEq, Prod.mk.injEq] at hsx hsy
  rw [← hsx.2.2, ← hsy.2.1] at hout
  exact absurd hout (by decide)

/-- In `{{x:=1};x:=2}` no bind is reported. -/
theorem inner_first_unreported : ∃ fb,
    dbQueryBodyScopes (functionOf [blockOf [bindOf "x" "1"], .token ⟨.semi, word ";"⟩, bindOf "x" "2"]) = some fb ∧
      ¬Complete (functionOf [blockOf [bindOf "x" "1"], .token ⟨.semi, word ";"⟩, bindOf "x" "2"]) fb := by
  obtain ⟨fb, hquery, hsites⟩ := Option.map_eq_some_iff.mp outer_first_sites.2
  refine ⟨fb, hquery, fun hcomplete => ?_⟩
  have hcount : fb.binds.length = 2 := by simpa [sites] using congrArg List.length hsites
  obtain ⟨x, hx⟩ : ∃ x, fb.binds[0]? = some x := ⟨_, List.getElem?_eq_getElem (by omega)⟩
  obtain ⟨y, hy⟩ : ∃ y, fb.binds[1]? = some y := ⟨_, List.getElem?_eq_getElem (by omega)⟩
  have hsx := site_of_getElem hx
  have hsy := site_of_getElem hy
  rw [hsites] at hsx hsy
  simp only [List.getElem?_cons_zero, List.getElem?_cons_succ, Option.some.injEq, Prod.mk.injEq] at hsx hsy
  obtain ⟨k, z, hk, -⟩ := outerFirst_of_complete hquery hcomplete 0 1 x y Nat.zero_lt_one hx hy
    (hsx.1.symm.trans hsy.1) (by rw [← hsx.2.2, ← hsy.2.1]; decide)
  exact absurd hk (Nat.not_lt_zero k)

end Results

end Ore.BodyConflicts
