import Ore.EvalTermination

namespace Ore.NodeTypeFrames

open CallTrees Coercions EvalContracts EvalModel EvalTermination InternKeys TypeHoles

variable {World : Type}

/-- While a declaration is typed every entry that any builder gets is keyed by a
node of the builder's own declaration, as long as the constants that are entered
with a builder at hand are its declaration's own. -/
theorem entries_own (p : Program World) (q : Query) (s : State World)
    (hcond : ∀ ctx target entry rhs s', Enters p.body (p.runQuery q) s (.constant ctx target entry rhs) s' →
      ∀ b, ctx.types = some b → target = b.decl ∧ p.owner rhs = b.decl)
    (s' : State World) (hv : Visits p.body (p.runQuery q) s s') :
    ∀ x ∈ s'.stamps, x ∈ s.stamps ∨ Own p x := by
  let meets : Call → State World → Prop := fun c _ => match c with
    | .constant ctx target _ rhs => ∀ b, ctx.types = some b → target = b.decl ∧ p.owner rhs = b.decl
    | _ => True
  have hbody : (contract p True (· ∈ s.stamps) meets).Holds p.body := fun c s hm hpre hinv =>
    Spec.wp_of_under (body_wp (T := False) (fun _ _ _ _ _ _ hm' => hm') nofun c s hm hpre.1 (fun _ => hpre.2) hinv)
  have hmet : (contract p True (· ∈ s.stamps) meets).Met p.body (p.runQuery q) s := by
    intro c s'' he
    cases c with
    | constant ctx target entry rhs => exact hcond ctx target entry rhs s'' he
    | _ => trivial
  have hquery : (contractUnder p True (· ∈ s.stamps) meets (Falls p False (.query q) s)).wp (p.runQuery q)
      (fun _ s' => Restored s s') s :=
    body_wp (fun _ _ _ _ _ _ hm' => hm') nofun (.query q) s trivial (fun _ => trivial) nofun fun _ x hx => .inl hx
  exact Spec.visits_sound hbody hv hmet (fun _ x hx => .inl hx) (Spec.wp_of_under hquery) trivial

section Example

/-- `A :: f()` or `A :: B`, with `B :: 5` and `f :: fn() i32 B`. The declarations
are 1, 2 and 3 and their wrappers 10, 20 and 30; the last digit of a node is its
relative id. -/
def constants (calls : Bool) : Program Unit where
  shape
    | 10 => .bindDecl ⟨1, false, true, some 11⟩
    | 11 => if calls then .call ⟨false, false, some 12, []⟩ else .name 2
    | 12 => .name 3
    | 20 => .bindDecl ⟨2, false, true, some 21⟩
    | 30 => .bindDecl ⟨3, false, true, some 31⟩
    | 31 => .lambda [] (some 32)
    | 32 => .name 2
    | _ => .other
  below
    | 10 => [11, 12]
    | 11 => [12]
    | 20 => [21]
    | 30 => [31, 32]
    | 31 => [32]
    | _ => []
  height n := 40 - n
  owner n := n / 10
  parts_below n c hc := by
    split at hc <;> first | (split at hc) | skip
    all_goals simp_all [Shape.parts]
  height_below n c hc := by
    split at hc <;> simp at hc <;> omega
  owner_below n c hc := by
    split at hc <;> simp at hc <;> omega
  start n := n
  length _ := 1
  ptrHash n := n
  declAstId d n := if n / 10 = d then some (n % 10) else none
  bodyScopeLookup _ _ _ := none
  bound_owner := nofun
  fileAst _ := true
  resolveRef _ name := some name
  primitive _ := none
  defKind d := if d = 3 then .function else .constant
  topLevelEntry _ name := some ⟨10 * name, 1, name⟩
  defIdentity _ id := id
  defName d := d
  defParentModule _ := 1
  declAstMap d := some d
  namespaceType _ := none
  typeHole _ _ _ := none
  typeResolve _ t := t
  hasUnboundHole _ _ := false
  coerceStructural w a e := (absorbs a e || numericFits a e, w)
  tvFitsIn _ _ := ⟨true, none, none⟩
  infer _ _ := .done ⟨.prim .comptimeInt, .int ⟨.prim .comptimeInt, 5⟩⟩
  inferCall _ _ := .done ⟨none, id, i32⟩
  inferField _ _ _ := .done .none
  queries := [.typeOfDef 1, .typeOfDef 2, .typeOfDef 3, .fnSignature 3]
  frameCtx q := ⟨1, 0, 1, none, none, q.decl, none, ⟨0, false, .none⟩⟩
  frame_fn _ := .inl rfl
  compute
    | .typeOfDef 1 => .eval 11 rfl ⟨0, false, .none⟩ false .done
    | .typeOfDef 2 => .eval 21 rfl ⟨0, false, .none⟩ false .done
    | .typeOfDef 3 => .ask (.fnSignature 3) rfl .done
    | .fnSignature 3 => .done ⟨.fn i32 [] 0 0 0 .empty, .none⟩
    | _ => .done .none
  onCycle _ _ := .none

def start : State Unit := ⟨[], [], none, 0, [], [], [], 0, [], ()⟩

/-- The constants a run enters with a builder at hand. -/
def entered (calls : List (Call × State Unit)) : List Nat :=
  calls.filterMap fun x => match x.1 with
    | .constant ctx target _ _ => ctx.types.map fun _ => target
    | _ => none

theorem entries_own_call : ∃ s', Visits (constants true).body ((constants true).runQuery (.typeOfDef 1)) start s' ∧
    s'.stamps.map (fun x => (x.builder.decl, x.node)) = [(1, 11), (2, 21), (1, 12)] ∧
    ∀ x ∈ s'.stamps, x ∈ start.stamps ∨ Own (constants true) x := by
  obtain ⟨v, s', calls, hrun, hcalls, hstamps⟩ : ∃ v s' calls,
      execute (constants true).body 8 (.query (.typeOfDef 1)) start = some (v, s', calls) ∧ entered calls = [] ∧
      s'.stamps.map (fun x => (x.builder.decl, x.node)) = [(1, 11), (2, 21), (1, 12)] := ⟨_, _, _, rfl, rfl, rfl⟩
  obtain ⟨hr, hentered⟩ := execute_sound hrun
  refine ⟨s', hr.visits, hstamps, entries_own (constants true) (.typeOfDef 1) start ?_ s' hr.visits⟩
  intro ctx target entry rhs s'' he b hb
  have hmem : target ∈ entered calls := List.mem_filterMap.2 ⟨_, hentered _ _ he, by simp [hb]⟩
  simp [hcalls] at hmem

/-- Typing `A :: B` stamps the literal of `B` in the map of `A`, under the relative
id of the reference. -/
theorem entry_of_other_declaration : ∃ s' x,
    Visits (constants false).body ((constants false).runQuery (.typeOfDef 1)) start s' ∧ x ∈ s'.stamps ∧
      x.builder = .typeOfDef 1 ∧ (constants false).owner x.node = 2 ∧
      x.key = (constants false).nodeKey (some 1) 11 := by
  obtain ⟨v, s', calls, hrun, x, hx, hb, ho, hk⟩ : ∃ v s' calls,
      execute (constants false).body 8 (.query (.typeOfDef 1)) start = some (v, s', calls) ∧
      ∃ x, x ∈ s'.stamps ∧ x.builder = .typeOfDef 1 ∧ (constants false).owner x.node = 2 ∧
        x.key = (constants false).nodeKey (some 1) 11 :=
    ⟨_, _, _, rfl, _, .tail _ (.head _), rfl, rfl, rfl⟩
  exact ⟨s', x, (execute_sound hrun).1.visits, hx, hb, ho, hk⟩

end Example

end Ore.NodeTypeFrames
