import Ore.ConstFolding
import Ore.TreeOrders

namespace Ore.PeerTypes

open Coercions ConstFolding InternKeys IntConstants TreeOrders TypeHoles

section Joins

def noreturn : Ty := .prim .noreturn
def void : Ty := .prim .void
def error : Ty := .prim .error

def peerUnify (a b : Ty) : Ty :=
  if a = noreturn then b
  else if b = noreturn then a
  else if a = error ∨ b = error then error
  else (unifyArith a b).getD .none

structure Diag where
  format : String
  args : List Ty
  deriving DecidableEq

structure Joined where
  type : Ty
  diags : List Diag
  deriving DecidableEq

def switchArm (j : Joined) (bt : Ty) : Joined :=
  if bt ≠ .none ∧ j.type ≠ .none ∧ bt ≠ j.type then
    if peerUnify j.type bt ≠ .none then { j with type := peerUnify j.type bt }
    else { j with diags := j.diags ++ [⟨"switch arm has type %T, expected %T", [bt, j.type]⟩] }
  else j

/-- A switch on an unknown scrutinee, of which no type is expected. -/
def inferSwitch : List Ty → Joined
  | [] => ⟨void, []⟩
  | first :: rest => rest.foldl switchArm ⟨first, []⟩

def inferIf (thenType elseType : Ty) : Joined :=
  if peerUnify thenType elseType = .none ∧ thenType ≠ .none ∧ elseType ≠ .none ∧ thenType ≠ void ∧ elseType ≠ void then
    ⟨error, [⟨"if branches have incompatible types (%T and %T)", [thenType, elseType]⟩]⟩
  else ⟨if peerUnify thenType elseType ≠ .none then peerUnify thenType elseType else void, []⟩

/-- An if whose else branch is the next if, with unknown conditions. -/
def ifChain : Ty → List Ty → Joined
  | first, [] => ⟨first, []⟩
  | first, second :: rest =>
      let elsePart := ifChain second rest
      let whole := inferIf first elsePart.type
      ⟨whole.type, elsePart.diags ++ whole.diags⟩

def breakValue (j : Joined) (vt : Ty) : Joined :=
  if j.type = .none then { j with type := vt }
  else if peerUnify j.type vt ≠ .none then { j with type := peerUnify j.type vt }
  else { j with diags := j.diags ++ [⟨"break value type %T does not unify with prior %T", [vt, j.type]⟩] }

/-- What the values that leave to a frame leave there. -/
def resultAccum (values : List Ty) : Joined := values.foldl breakValue ⟨.none, []⟩

def inferLoop (cond reachableBreak : Bool) (values : List Ty) (elseType : Option Ty) : Joined :=
  let accum := resultAccum values
  if cond = false then
    if accum.type ≠ .none then accum
    else if reachableBreak then { accum with type := void }
    else { accum with type := noreturn }
  else if accum.type = .none then { accum with type := elseType.getD void }
  else if peerUnify accum.type (elseType.getD void) ≠ .none then
    { accum with type := peerUnify accum.type (elseType.getD void) }
  else match elseType with
    | some elseType =>
        ⟨error, accum.diags ++ [⟨"loop break value %T does not unify with else value %T", [accum.type, elseType]⟩]⟩
    | none =>
        ⟨error, accum.diags ++
          [⟨"loop yields %T via break but falls through as void; add an `else` branch", [accum.type]⟩]⟩

def inferBlock (labelled terminates : Bool) (values : List Ty) : Joined :=
  let accum := resultAccum values
  let type := if labelled ∧ accum.type ≠ .none then accum.type else void
  ⟨if type = void ∧ terminates then noreturn else type, accum.diags⟩

end Joins

section Order

/-- A type that takes part in a join, neither missing nor an error. -/
structure Peer where
  type : Ty
  typed : type ≠ .none
  healthy : type ≠ error

def Below (a b : Ty) : Prop :=
  a = b ∨ a = noreturn ∨ (a = comptimeInt ∧ isNumeric b) ∨ (a = comptimeFloat ∧ isConcreteFloat b)

instance (a b : Ty) : Decidable (Below a b) := inferInstanceAs (Decidable (_ ∨ _ ∨ _ ∨ _))

theorem below_refl (a : Ty) : Below a a := .inl rfl

theorem Below.trans {a b c : Ty} (hab : Below a b) (hbc : Below b c) : Below a c := by
  rcases hab with rfl | rfl | ⟨rfl, hb⟩ | ⟨rfl, hb⟩
  · exact hbc
  · exact .inr (.inl rfl)
  · rcases hbc with rfl | rfl | ⟨rfl, hc⟩ | ⟨rfl, hc⟩
    · exact .inr (.inr (.inl ⟨rfl, hb⟩))
    · cases hb
    · exact .inr (.inr (.inl ⟨rfl, hc⟩))
    · exact .inr (.inr (.inl ⟨rfl, by simp [isNumeric, hc]⟩))
  · rcases hbc with rfl | rfl | ⟨rfl, hc⟩ | ⟨rfl, hc⟩
    · exact .inr (.inr (.inr ⟨rfl, hb⟩))
    · cases hb
    · cases hb
    · cases hb

theorem Below.antisymm {a b : Ty} (hab : Below a b) (hba : Below b a) : a = b := by
  rcases hab with rfl | rfl | ⟨rfl, hb⟩ | ⟨rfl, hb⟩
  · rfl
  · rcases hba with rfl | rfl | ⟨rfl, ha⟩ | ⟨rfl, ha⟩
    · rfl
    · rfl
    · cases ha
    · cases ha
  · rcases hba with rfl | rfl | ⟨rfl, ha⟩ | ⟨rfl, ha⟩
    · rfl
    · cases hb
    · rfl
    · cases ha
  · rcases hba with rfl | rfl | ⟨rfl, ha⟩ | ⟨rfl, ha⟩
    · rfl
    · cases hb
    · cases hb
    · cases ha

theorem Below.chain {a b c : Ty} (hac : Below a c) (hbc : Below b c) : Below a b ∨ Below b a := by
  rcases hac with rfl | rfl | ⟨rfl, hc⟩ | ⟨rfl, hc⟩
  · exact .inr hbc
  · exact .inl (.inr (.inl rfl))
  · rcases hbc with rfl | rfl | ⟨rfl, -⟩ | ⟨rfl, -⟩
    · exact .inl (.inr (.inr (.inl ⟨rfl, hc⟩)))
    · exact .inr (.inr (.inl rfl))
    · exact .inl (below_refl _)
    · exact .inl (.inr (.inr (.inl ⟨rfl, rfl⟩)))
  · rcases hbc with rfl | rfl | ⟨rfl, -⟩ | ⟨rfl, -⟩
    · exact .inl (.inr (.inr (.inr ⟨rfl, hc⟩)))
    · exact .inr (.inr (.inl rfl))
    · exact .inr (.inr (.inr (.inl ⟨rfl, rfl⟩)))
    · exact .inl (below_refl _)

instance : PartialOrder Peer where
  le a b := Below a.type b.type
  le_refl a := below_refl a.type
  le_trans _ _ _ := Below.trans
  le_antisymm a b hab hba := by
    cases a
    cases b
    cases Below.antisymm hab hba
    rfl

instance : DecidableLE Peer := fun a b => inferInstanceAs (Decidable (Below a.type b.type))

instance : TreeOrder Peer where
  chain := Below.chain

theorem peerUnify_prim (p q : Primitive) (hp : Ty.prim p ≠ error) (hq : Ty.prim q ≠ error) :
    peerUnify (.prim p) (.prim q) =
      if Below (.prim p) (.prim q) then .prim q else if Below (.prim q) (.prim p) then .prim p else .none := by
  revert hp hq
  cases p <;> cases q <;> decide

theorem not_prim {t : Ty} (h : ∀ p, t ≠ .prim p) : isConcreteInt t = false ∧ isConcreteFloat t = false ∧
    isNumeric t = false ∧ t ≠ noreturn ∧ t ≠ comptimeInt ∧ t ≠ comptimeFloat := by
  cases t with
  | prim p => exact absurd rfl (h p)
  | _ => exact ⟨rfl, rfl, by simp [isNumeric, isConcreteInt, isSignedInt, isUnsignedInt, isConcreteFloat, comptimeInt,
      comptimeFloat], by simp [noreturn], by simp [comptimeInt], by simp [comptimeFloat]⟩

theorem peerUnify_composite {t u : Ty} (ht : ∀ p, t ≠ .prim p) (hne : t ≠ .none) (hu : u ≠ .none) (hu' : u ≠ error) :
    peerUnify t u = (if Below t u then u else if Below u t then t else .none) ∧
      peerUnify u t = if Below u t then t else if Below t u then u else .none := by
  obtain ⟨hint, hfloat, hnum, hnr, hci, hcf⟩ := not_prim ht
  have herror : t ≠ error := ht .error
  by_cases hunr : u = noreturn
  · have hbelow : Below u t := .inr (.inl hunr)
    have hnot : ¬ Below t u := fun h => hnr ((Below.antisymm h hbelow).trans hunr)
    rw [peerUnify, if_neg hnr, if_pos hunr, if_neg hnot, if_pos hbelow, peerUnify, if_pos hunr, if_pos hbelow]
    exact ⟨rfl, rfl⟩
  · have htu : ¬ (t = error ∨ u = error) := not_or.mpr ⟨herror, hu'⟩
    have hut : ¬ (u = error ∨ t = error) := not_or.mpr ⟨hu', herror⟩
    rw [peerUnify, if_neg hnr, if_neg hunr, if_neg htu, peerUnify, if_neg hunr, if_neg hnr, if_neg hut]
    by_cases heq : t = u
    · simp [unifyArith, heq, hu, below_refl]
    · have htu : ¬ Below t u := by simp [Below, heq, hnr, hci, hcf]
      have hut : ¬ Below u t := by simp [Below, Ne.symm heq, hunr, hnum, hfloat]
      simp only [if_neg htu, if_neg hut]
      simp [unifyArith, hne, hu, heq, Ne.symm heq, hint, hfloat, hci, hcf]

theorem peerUnify_eq {a b : Ty} (ha : a ≠ .none) (hb : b ≠ .none) (ha' : a ≠ error) (hb' : b ≠ error) :
    peerUnify a b = if Below a b then b else if Below b a then a else .none := by
  by_cases hpa : ∃ p, a = .prim p
  · by_cases hpb : ∃ p, b = .prim p
    · obtain ⟨p, rfl⟩ := hpa
      obtain ⟨q, rfl⟩ := hpb
      exact peerUnify_prim p q ha' hb'
    · exact (peerUnify_composite (not_exists.mp hpb) hb ha ha').2
  · exact (peerUnify_composite (not_exists.mp hpa) ha hb hb').1

/-- The greater of two types is found, unless neither is below the other. -/
theorem peerUnify_peer (a b : Peer) : peerUnify a.type b.type = ((greater a b).map Peer.type).getD .none := by
  rw [peerUnify_eq a.typed b.typed a.healthy b.healthy, greater]
  change (if a ≤ b then b.type else if b ≤ a then a.type else .none) = _
  split
  · rfl
  · split
    · rfl
    · rfl

end Order

section Passes

variable {first r b c u : Peer} {rest : List Peer} {diags : List Diag}

theorem peerUnify_some (h : greater r b = some c) : peerUnify r.type b.type = c.type := by
  rw [peerUnify_peer, h, Option.map_some, Option.getD_some]

theorem peerUnify_none (h : greater r b = none) : peerUnify r.type b.type = .none := by
  rw [peerUnify_peer, h, Option.map_none, Option.getD_none]

/-- A step that keeps the greater type, or reports that there is none. -/
structure KeepsGreater (step : Joined → Ty → Joined) : Prop where
  keeps : ∀ {r b c : Peer} {diags : List Diag}, greater r b = some c → step ⟨r.type, diags⟩ b.type = ⟨c.type, diags⟩
  reports : ∀ {r b : Peer} (diags : List Diag), greater r b = none →
    ∃ d, step ⟨r.type, diags⟩ b.type = ⟨r.type, diags ++ [d]⟩

theorem switchArm_keeps : KeepsGreater switchArm := by
  constructor
  · intro r b c diags h
    rw [switchArm]
    by_cases heq : b.type = r.type
    · rw [if_neg fun h => h.2.2 heq]
      have hunify := peerUnify_some h
      rw [heq, peerUnify_eq r.typed r.typed r.healthy r.healthy, if_pos (below_refl _)] at hunify
      rw [hunify]
    · rw [if_pos ⟨b.typed, r.typed, heq⟩, peerUnify_some h, if_pos c.typed]
  · intro r b diags h
    have heq : b.type ≠ r.type := by
      intro heq
      have hunify := peerUnify_none h
      rw [heq, peerUnify_eq r.typed r.typed r.healthy r.healthy, if_pos (below_refl _)] at hunify
      exact r.typed hunify
    rw [switchArm, if_pos ⟨b.typed, r.typed, heq⟩, if_neg (not_not.mpr (peerUnify_none h))]
    exact ⟨_, rfl⟩

theorem breakValue_keeps : KeepsGreater breakValue := by
  constructor
  · intro r b c diags h
    rw [breakValue, if_neg r.typed, peerUnify_some h, if_pos c.typed]
  · intro r b diags h
    rw [breakValue, if_neg r.typed, if_neg (not_not.mpr (peerUnify_none h))]
    exact ⟨_, rfl⟩

theorem KeepsGreater.foldl {step : Joined → Ty → Joined} (hstep : KeepsGreater step) (r : Peer) (rest : List Peer)
    (diags : List Diag) :
    (∀ u, rest.foldlM greater r = some u → (rest.map Peer.type).foldl step ⟨r.type, diags⟩ = ⟨u.type, diags⟩) ∧
      ∃ more, ((rest.map Peer.type).foldl step ⟨r.type, diags⟩).diags = diags ++ more ∧
        (rest.foldlM greater r = none → more ≠ []) := by
  induction rest generalizing r diags with
  | nil =>
      refine ⟨?_, [], (List.append_nil diags).symm, ?_⟩
      · intro u h
        rw [Option.some.inj h]
        rfl
      · intro h
        cases h
  | cons b rest ih =>
      rw [List.map_cons, List.foldl_cons, List.foldlM_cons]
      cases hgreater : greater r b with
      | some c =>
          rw [hstep.keeps hgreater]
          exact ih c diags
      | none =>
          obtain ⟨d, hd⟩ := hstep.reports diags hgreater
          rw [hd]
          obtain ⟨-, more, hmore, -⟩ := ih r (diags ++ [d])
          refine ⟨?_, d :: more, ?_, fun _ => List.cons_ne_nil _ _⟩
          · intro u h
            cases h
          · rw [hmore, List.append_assoc, List.singleton_append]

theorem KeepsGreater.pass {step : Joined → Ty → Joined} (hstep : KeepsGreater step) (first : Peer) (rest : List Peer) :
    (∀ u, IsGreatest (members (first :: rest)) u →
      (rest.map Peer.type).foldl step ⟨first.type, []⟩ = ⟨u.type, []⟩) ∧
      ((¬ ∃ u, IsGreatest (members (first :: rest)) u) →
        ((rest.map Peer.type).foldl step ⟨first.type, []⟩).diags ≠ []) := by
  obtain ⟨hsome, more, hmore, hnone⟩ := hstep.foldl first rest []
  refine ⟨fun u h => hsome u (foldlM_greater.mpr h), ?_⟩
  intro h
  rw [hmore, List.nil_append]
  refine hnone (Option.eq_none_iff_forall_ne_some.mpr fun u hu => h ⟨u, foldlM_greater.mp hu⟩)

end Passes

section Results

variable {first u : Peer} {rest : List Peer}

theorem resultAccum_cons : resultAccum ((first :: rest).map Peer.type) =
    (rest.map Peer.type).foldl breakValue ⟨first.type, []⟩ := by
  rw [List.map_cons, resultAccum, List.foldl_cons, breakValue, if_pos rfl]

theorem inferIf_greater {a b c : Peer} (h : greater a b = some c) : inferIf a.type b.type = ⟨c.type, []⟩ := by
  rw [inferIf, peerUnify_some h, if_neg fun hnone => c.typed hnone.1, if_pos c.typed]

theorem inferIf_none {a b : Peer} (h : greater a b = none) (ha : a.type ≠ void) (hb : b.type ≠ void) :
    (inferIf a.type b.type).type = error ∧ (inferIf a.type b.type).diags ≠ [] := by
  rw [inferIf, if_pos ⟨peerUnify_none h, a.typed, b.typed, ha, hb⟩]
  exact ⟨rfl, List.cons_ne_nil _ _⟩

theorem inferIf_error (t : Ty) : inferIf t error = ⟨error, []⟩ := by
  have hunify : peerUnify t error = error := by
    rw [peerUnify]
    split
    · rfl
    · rw [if_neg (by decide), if_pos (.inr rfl)]
  have hne : error ≠ .none := by decide
  rw [inferIf, hunify, if_neg fun h => hne h.1, if_pos hne]

theorem ifChain_greatest (h : IsGreatest (members (first :: rest)) u) :
    ifChain first.type (rest.map Peer.type) = ⟨u.type, []⟩ := by
  induction rest generalizing first u with
  | nil =>
      obtain rfl : u = first := List.mem_singleton.mp h.1
      rfl
  | cons second rest ih =>
      obtain ⟨c, hc⟩ := exists_isGreatest_tail h
      have hgreater := greater_eq_some.mpr ((isGreatest_of_tail hc).mp h)
      simp only [List.map_cons, ifChain, ih hc, inferIf_greater hgreater, List.nil_append]

theorem ifChain_none (hvoid : ∀ t ∈ first :: rest, t.type ≠ void)
    (h : ¬ ∃ u, IsGreatest (members (first :: rest)) u) :
    (ifChain first.type (rest.map Peer.type)).type = error ∧ (ifChain first.type (rest.map Peer.type)).diags ≠ [] := by
  induction rest generalizing first with
  | nil =>
      refine absurd ⟨first, List.mem_singleton_self first, ?_⟩ h
      intro x hx
      rw [List.mem_singleton.mp hx]
  | cons second rest ih =>
      obtain ⟨hfirst, htail⟩ := List.forall_mem_cons.mp hvoid
      simp only [List.map_cons, ifChain]
      by_cases hrest : ∃ c, IsGreatest (members (second :: rest)) c
      · obtain ⟨c, hc⟩ := hrest
        have hgreater : greater first c = none := by
          refine Option.eq_none_iff_forall_ne_some.mpr fun u hu => h ⟨u, ?_⟩
          exact (isGreatest_of_tail hc).mpr (greater_eq_some.mp hu)
        obtain ⟨htype, hdiags⟩ := inferIf_none hgreater hfirst (htail c hc.1)
        rw [ifChain_greatest hc, List.nil_append]
        exact ⟨htype, hdiags⟩
      · obtain ⟨htype, hdiags⟩ := ih htail hrest
        rw [htype, inferIf_error, List.append_nil]
        exact ⟨rfl, hdiags⟩

/-- Where a loop that tests its condition goes when the condition fails. -/
def normalExit (elsePeer : Option Peer) : Peer := elsePeer.getD ⟨void, by decide, by decide⟩

theorem normalExit_type (elsePeer : Option Peer) :
    (elsePeer.map Peer.type).getD void = (normalExit elsePeer).type := by
  cases elsePeer with
  | none => rfl
  | some _ => rfl

theorem inferLoop_greatest {elsePeer : Option Peer} (reachableBreak : Bool)
    (h : IsGreatest (members (normalExit elsePeer :: first :: rest)) u) :
    inferLoop true reachableBreak ((first :: rest).map Peer.type) (elsePeer.map Peer.type) = ⟨u.type, []⟩ := by
  obtain ⟨c, hc⟩ := exists_isGreatest_tail h
  have hgreater := greater_eq_some.mpr ((isGreatest_of_tail hc).mp h)
  have hexit : peerUnify c.type (normalExit elsePeer).type = u.type := peerUnify_some (greater_comm.trans hgreater)
  have haccum : resultAccum ((first :: rest).map Peer.type) = ⟨c.type, []⟩ :=
    resultAccum_cons.trans ((breakValue_keeps.pass first rest).1 c hc)
  simp only [inferLoop, haccum, normalExit_type, hexit]
  rw [if_neg (by decide), if_neg c.typed, if_pos u.typed]

theorem inferLoop_none {elsePeer : Option Peer} (reachableBreak : Bool)
    (h : ¬ ∃ u, IsGreatest (members (normalExit elsePeer :: first :: rest)) u) :
    (inferLoop true reachableBreak ((first :: rest).map Peer.type) (elsePeer.map Peer.type)).diags ≠ [] := by
  by_cases hrest : ∃ c, IsGreatest (members (first :: rest)) c
  · obtain ⟨c, hc⟩ := hrest
    have hgreater : greater c (normalExit elsePeer) = none := by
      refine greater_comm.trans (Option.eq_none_iff_forall_ne_some.mpr fun u hu => h ⟨u, ?_⟩)
      exact (isGreatest_of_tail hc).mpr (greater_eq_some.mp hu)
    have haccum : resultAccum ((first :: rest).map Peer.type) = ⟨c.type, []⟩ :=
      resultAccum_cons.trans ((breakValue_keeps.pass first rest).1 c hc)
    simp only [inferLoop, haccum, normalExit_type, peerUnify_none hgreater]
    rw [if_neg (by decide), if_neg c.typed, if_neg (not_not.mpr rfl)]
    split
    · exact List.cons_ne_nil _ _
    · exact List.cons_ne_nil _ _
  · have hdiags := (breakValue_keeps.pass first rest).2 hrest
    rw [← resultAccum_cons] at hdiags
    simp only [inferLoop]
    rw [if_neg (by decide)]
    split
    · exact hdiags
    · split
      · exact hdiags
      · split
        · exact List.append_ne_nil_of_left_ne_nil hdiags _
        · exact List.append_ne_nil_of_left_ne_nil hdiags _

/-- A join has the greatest of its types, in whatever order and however often they come, and no
diagnostic; without a greatest one there is a diagnostic. -/
theorem joins_greatest (first : Peer) (rest : List Peer) (elsePeer : Option Peer) (reachableBreak terminates : Bool) :
    (∀ u, IsGreatest (members (first :: rest)) u →
      inferSwitch ((first :: rest).map Peer.type) = ⟨u.type, []⟩ ∧
      ifChain first.type (rest.map Peer.type) = ⟨u.type, []⟩ ∧
      inferLoop false reachableBreak ((first :: rest).map Peer.type) (elsePeer.map Peer.type) = ⟨u.type, []⟩ ∧
      inferBlock true terminates ((first :: rest).map Peer.type) =
        ⟨if u.type = void ∧ terminates then noreturn else u.type, []⟩) ∧
    ((¬ ∃ u, IsGreatest (members (first :: rest)) u) →
      (inferSwitch ((first :: rest).map Peer.type)).diags ≠ [] ∧
      ((∀ t ∈ first :: rest, t.type ≠ void) → (ifChain first.type (rest.map Peer.type)).diags ≠ []) ∧
      (inferLoop false reachableBreak ((first :: rest).map Peer.type) (elsePeer.map Peer.type)).diags ≠ [] ∧
      (inferBlock true terminates ((first :: rest).map Peer.type)).diags ≠ []) ∧
    (∀ u, IsGreatest (members (normalExit elsePeer :: first :: rest)) u →
      inferLoop true reachableBreak ((first :: rest).map Peer.type) (elsePeer.map Peer.type) = ⟨u.type, []⟩) ∧
    ((¬ ∃ u, IsGreatest (members (normalExit elsePeer :: first :: rest)) u) →
      (inferLoop true reachableBreak ((first :: rest).map Peer.type) (elsePeer.map Peer.type)).diags ≠ []) := by
  have hswitch := switchArm_keeps.pass first rest
  have hbreaks := breakValue_keeps.pass first rest
  rw [← resultAccum_cons] at hbreaks
  refine ⟨?_, ?_, fun u h => inferLoop_greatest reachableBreak h, fun h => inferLoop_none reachableBreak h⟩
  · intro u h
    refine ⟨hswitch.1 u h, ifChain_greatest h, ?_, ?_⟩
    · simp only [inferLoop, hbreaks.1 u h, if_true]
      rw [if_pos u.typed]
    · simp only [inferBlock, hbreaks.1 u h, true_and]
      rw [if_pos u.typed]
  · intro h
    refine ⟨hswitch.2 h, fun hvoid => (ifChain_none hvoid h).2, ?_, hbreaks.2 h⟩
    simp only [inferLoop, if_true]
    split
    · exact hbreaks.2 h
    · split
      · exact hbreaks.2 h
      · exact hbreaks.2 h

/-- An arm that never ends and an untyped literal do not constrain the others. -/
example : inferSwitch [comptimeInt, noreturn, .prim .u8, comptimeInt] = ⟨.prim .u8, []⟩ := by decide

end Results

end Ore.PeerTypes
