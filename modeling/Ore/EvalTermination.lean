import Mathlib.Data.Finset.Card
import Mathlib.Data.Finset.Dedup
import Mathlib.Data.Prod.Lex
import Ore.EvalContracts

namespace Ore.EvalTermination

open CallTrees EvalContracts EvalModel TypeHoles

variable {World : Type}

def unstarted (p : Program World) (s : State World) : Finset Query := {q ∈ p.queries.toFinset | ¬ Started s q}

/-- Instances go first, by the depth limit, then queries, then the cycle stack,
then the syntax. -/
def rank (p : Program World) (c : Call) (s : State World) : Nat × Nat × Nat × Nat :=
  (oreMonoDepthLimit - s.monoDepth, (unstarted p s).card, match c with
    | .evalExpr _ node => (2 * (evalCycleDepthMax - s.cycles.length) + 1, 2 * p.height node + 1)
    | .coerceOrDiag _ node _ _ => (2 * (evalCycleDepthMax - s.cycles.length) + 1, 2 * p.height node)
    | .constant _ _ _ _ => (2 * (evalCycleDepthMax - s.cycles.length), 0)
    | .query _ => (0, 0))

section Ranks

variable {p : Program World} {s s' : State World}

theorem unstarted_le (h : ∀ q, Started s q → Started s' q) : (unstarted p s').card ≤ (unstarted p s).card :=
  Finset.card_le_card (Finset.monotone_filter_right _ fun q _ hq hs => hq (h q hs))

theorem unstarted_lt {q : Query} (hq : q ∈ p.queries) (hs : ¬ Started s q) (hs' : Started s' q)
    (h : ∀ q, Started s q → Started s' q) : (unstarted p s').card < (unstarted p s).card := by
  refine Finset.card_lt_card ⟨Finset.monotone_filter_right _ fun q _ hq hs => hq (h q hs), fun hsub => ?_⟩
  have hmem : q ∈ unstarted p s := by simp [unstarted, hq, hs]
  have := hsub hmem
  simp [unstarted, hs'] at this

/-- The lower part decides when nothing above it has grown. -/
theorem rank_lt {a a' b b' : Nat} {l l' : Nat × Nat} (ha : a' ≤ a) (hb : b' ≤ b)
    (hl : WellFoundedRelation.rel l' l) : WellFoundedRelation.rel (a', b', l') (a, b, l) := by
  rcases Nat.lt_or_eq_of_le ha with ha | rfl
  · exact .left _ _ ha
  · rcases Nat.lt_or_eq_of_le hb with hb | rfl
    · exact .right _ (.left _ _ hb)
    · exact .right _ (.right _ hl)

theorem rank_query {a a' b b' : Nat} {l l' : Nat × Nat} (h : a' < a ∨ a' ≤ a ∧ b' < b) :
    WellFoundedRelation.rel (a', b', l') (a, b, l) := by
  rcases h with ha | ⟨ha, hb⟩
  · exact .left _ _ ha
  · rcases Nat.lt_or_eq_of_le ha with ha | rfl
    · exact .left _ _ ha
    · exact .right _ (.left _ _ hb)

end Ranks

section Contract

variable {p : Program World} {T : Prop}

/-- Below a call in the rank, in a run that meets the condition `T`. -/
def Falls (p : Program World) (T : Prop) (c₀ : Call) (s₀ : State World) (c : Call) (s : State World) : Prop :=
  T → WellFoundedRelation.rel (rank p c s) (rank p c₀ s₀)

theorem falls_allows (ctx : SemaCtx) (node k : Nat) (s₀ : State World) :
    Allows p (Falls p T (.evalExpr ctx node) s₀) k s₀ ctx node where
  child n hn ctx' s hk _ := by
    have hh : 2 * p.height n + 1 < 2 * p.height node + 1 := by
      have := p.height_below node n hn
      omega
    refine rank_lt (by rw [hk.monoDepth]) (unstarted_le hk.started) ?_
    simp only [hk.cycles]
    exact .right _ hh
  query q s hk _ := rank_lt (by rw [hk.monoDepth]) (unstarted_le hk.started) (.left _ _ (Nat.succ_pos _))
  constant ctx' target entry rhs s hk _ := by
    refine rank_lt (by rw [hk.monoDepth]) (unstarted_le hk.started) ?_
    simp only [hk.cycles]
    exact .left _ _ (Nat.lt_succ_self _)
  deeper ctx' n s hlt hd _ := by
    have hc : 2 * (evalCycleDepthMax - s.cycles.length) + 1 < 2 * (evalCycleDepthMax - s₀.cycles.length) + 1 := by
      rw [hd.cycles]
      omega
    exact rank_lt (by rw [hd.monoDepth]) (unstarted_le hd.started) (.left _ _ hc)
  coerce actual expected s hk _ := by
    refine rank_lt (by rw [hk.monoDepth]) (unstarted_le hk.started) ?_
    simp only [hk.cycles]
    exact .right _ (Nat.lt_succ_self _)

variable {G : Prop} {old : Stamp → Prop} {meets : Call → State World → Prop}

theorem computing_lower {q : Query} {s s' : State World} (hwithin : q.isInstance → s.monoDepth < oreMonoDepthLimit)
    (h : Computing p q s s') :
    oreMonoDepthLimit - s'.monoDepth < oreMonoDepthLimit - s.monoDepth ∨
      oreMonoDepthLimit - s'.monoDepth ≤ oreMonoDepthLimit - s.monoDepth ∧
        (unstarted p s').card < (unstarted p s).card := by
  have hmono := h.monoDepth
  cases hi : q.isInstance with
  | true =>
      have := hwithin hi
      simp only [hi, if_true] at hmono
      omega
  | false =>
      simp only [hi, Bool.false_eq_true, if_false] at hmono
      have hlt := unstarted_lt (h.listed hi) h.fresh (h.started q (.inl rfl)) fun q' hq => h.started q' (.inr hq)
      exact .inr ⟨by omega, hlt⟩

/-- Every function keeps the contract. Under `T` its calls fall; only the coercion
of an answer whose value is wanted does not. -/
theorem body_wp
    (hG : G → ∀ ctx target entry rhs s, meets (.constant ctx target entry rhs) s →
      ∀ b, ctx.types = some b → target = b.decl ∧ p.owner rhs = b.decl)
    (hT : T → ∀ ctx node actual expected s, meets (.coerceOrDiag ctx node actual expected) s →
      p.wantsValue s.world actual expected = false)
    (c : Call) (s : State World) (hm : meets c s) (hhome : G → AtHome p c) (hwithin : T → Within s c)
    (hinv : G → ∀ x ∈ s.stamps, old x ∨ Own p x) :
    (contractUnder p G old meets (Falls p T c s)).wp (p.body c) (fun _ s' => Restored s s') s := by
  have hgood : Good p G old s.frames.length s s := .refl le_rfl hinv
  suffices h : (contractUnder p G old meets (Falls p T c s)).wp (p.body c)
      (fun _ s' => Good p G old s.frames.length s s') s from Spec.wp_mono h fun _ _ h' => h'.kept
  cases c with
  | evalExpr ctx node => exact evalNode_wp (falls_allows ctx node _ s) hhome hgood
  | constant ctx target entry rhs =>
      refine evalConstant_wp (fun ctx' s' hd hT' => ?_) hhome (fun hG' => hG hG' _ _ _ _ s hm) hgood
      have hc : 2 * (evalCycleDepthMax - s'.cycles.length) + 1 < 2 * (evalCycleDepthMax - s.cycles.length) := by
        rw [hd.cycles]
        have : s.cycles.length < evalCycleDepthMax := hwithin hT'
        omega
      exact rank_lt (by rw [hd.monoDepth]) (unstarted_le hd.started) (.left _ _ hc)
  | coerceOrDiag ctx node actual expected =>
      refine coerceOrDiagNode_wp hhome (fun hw s' hk hT' => ?_) hgood
      rw [hT hT' _ _ _ _ s hm] at hw
      cases hw
  | query q =>
      exact runQuery_wp (fun ctx' n s' hc hT' => rank_query (computing_lower (hwithin hT') hc))
        (fun q' s' hc hT' => rank_query (computing_lower (hwithin hT') hc)) hgood

end Contract

/-- However evaluation ends, the frame stack and the cycle stack are as they were.
It ends when no call has its answer coerced in a way that wants its value. -/
theorem eval_expr_ends (p : Program World) (ctx : SemaCtx) (node : Nat) (s : State World) :
    (∀ v s', Runs p.body (p.evalNode ctx node) s v s' → Restored s s') ∧
    ((∀ ctx' node' actual expected s',
        Enters p.body (p.evalNode ctx node) s (.coerceOrDiag ctx' node' actual expected) s' →
          p.wantsValue s'.world actual expected = false) →
      ∃ v s', Runs p.body (p.evalNode ctx node) s v s') := by
  constructor
  · intro v s' hr
    have hbody : (contract p False (fun _ => True) fun _ _ => True).Holds p.body := fun c s hm hpre hinv =>
      Spec.wp_of_under (body_wp (T := False) nofun nofun c s hm hpre.1 (fun _ => hpre.2) hinv)
    have hstart := hbody (.evalExpr ctx node) s trivial ⟨nofun, trivial⟩ nofun
    exact (Spec.runs_sound hbody hr (fun _ _ _ => trivial) nofun hstart).1
  · intro hcond
    let meets : Call → State World → Prop := fun c s' => match c with
      | .coerceOrDiag _ _ actual expected => p.wantsValue s'.world actual expected = false
      | _ => True
    have hmet : (contract p False (fun _ => True) meets).Met p.body (p.body (.evalExpr ctx node)) s := by
      intro c s' he
      cases c with
      | coerceOrDiag ctx' node' actual expected => exact hcond ctx' node' actual expected s' he
      | _ => trivial
    have hbody : ∀ c s, (contract p False (fun _ => True) meets).meets c s →
        (contract p False (fun _ => True) meets).pre c s → (contract p False (fun _ => True) meets).inv s →
        ((contract p False (fun _ => True) meets).under fun c' s' =>
          WellFoundedRelation.rel (rank p c' s') (rank p c s)).wp (p.body c)
          ((contract p False (fun _ => True) meets).post c s) s :=
      fun c s hm hpre hinv => Spec.under_mono (fun c' s' h => h trivial)
        (body_wp (T := True) nofun (fun _ ctx' node' a e s' hm' => hm') c s hm hpre.1 (fun _ => hpre.2) hinv)
    exact Spec.total hbody (.evalExpr ctx node) s ⟨nofun, trivial⟩ nofun trivial hmet

section Example

open Coercions InternKeys

def i32 : Ty := .prim .i32

def i64 : Ty := .prim .i64

def thunk (ret : Ty) : Ty := .fn ret [] 0 0 0 .empty

/-- `with lib()` and `return 2` as the body of a function that returns `i32`, where
`lib` takes the rest of the body and returns `answer`. The call is node 1, its
callee 2, the continuation 3, its block 4 with the return 5 of the literal 6. -/
def withTail (answer : Ty) : Program Unit where
  shape
    | 1 => .call ⟨true, false, some 2, [3]⟩
    | 2 => .name 1
    | 3 => .lambda [] (some 4)
    | 4 => .block [5]
    | 5 => .returnStmt (some 6)
    | _ => .other
  below
    | 1 => [2, 3, 4, 5, 6]
    | 3 => [4, 5, 6]
    | 4 => [5, 6]
    | 5 => [6]
    | _ => []
  height n := 7 - n
  owner _ := 2
  parts_below n c hc := by
    rcases n with _ | _ | _ | _ | _ | _ | n <;> simp [Shape.parts] at hc ⊢ <;> omega
  height_below n c hc := by
    rcases n with _ | _ | _ | _ | _ | _ | n <;> simp at hc ⊢ <;> omega
  owner_below _ _ _ := rfl
  start n := n
  length _ := 1
  ptrHash n := n
  declAstId _ n := some n
  bodyScopeLookup _ _ _ := none
  bound_owner := nofun
  fileAst _ := true
  resolveRef _ name := some name
  primitive _ := none
  defKind _ := .function
  topLevelEntry _ _ := none
  defIdentity _ id := id
  defName d := d
  defParentModule _ := 1
  declAstMap d := some d
  namespaceType _ := none
  typeHole _ _ _ := none
  typeResolve _ t := t
  hasUnboundHole _ _ := false
  coerceStructural w a e := (absorbs a e || numericFits a e, w)
  tvFitsIn _ _ := ⟨true, none, none⟩
  infer ctx n := match n with
    | 3 => .eval 4 (by simp) ctx.hints false fun _ => .done ⟨thunk i32, .none⟩
    | 4 => .eval 5 (by simp) ctx.hints false fun _ => .done ⟨.prim .void, .none⟩
    | 5 => .eval 6 (by simp) ctx.hints false fun _ => .done ⟨.prim .noreturn, .none⟩
    | _ => .done ⟨.prim .comptimeInt, .int ⟨.prim .comptimeInt, 2⟩⟩
  inferCall ctx n := match n with
    | 1 => .eval 2 (by simp) ctx.hints false fun _ => .eval 3 (by simp) ctx.hints false fun _ =>
        .done ⟨some (answer, i32), id, answer⟩
    | _ => .done ⟨none, id, .none⟩
  inferField _ _ _ := .done .none
  queries := []
  frameCtx q := ⟨1, q.decl, 1, none, none, q.decl, none, ⟨0, false, .none⟩⟩
  frame_fn _ := .inr rfl
  compute _ := .done .none
  onCycle _ _ := .none

def withCtx : SemaCtx := ⟨1, 2, 1, some (.inferBody 2), some 2, 2, none, ⟨0, false, .none⟩⟩

/-- The signature of `lib` is known. -/
def withState (answer : Ty) (stamps : List Stamp) : State Unit :=
  ⟨[], [], none, 0, stamps, [(.fnSignature 1, ⟨.fn answer [thunk i32] 0 0 0 .empty, .none⟩)], [.inferBody 2], 0, [], ()⟩

/-- An answer of the enclosing function's own type ends the evaluation. -/
example : (execute (withTail i32).body 8 (.evalExpr withCtx 1) (withState i32 [])).isSome = true := by rfl

def Again (c : Call) (s : State Unit) : Prop := c = .evalExpr withCtx 1 ∧ ∃ stamps, s = withState i64 stamps

theorem again_enters (c : Call) (s : State Unit) (h : Again c s) :
    ∃ c' s', Again c' s' ∧ Enters (withTail i64).body ((withTail i64).body c) s c' s' := by
  obtain ⟨rfl, stamps, rfl⟩ := h
  obtain ⟨v, r, st, hcallee⟩ : ∃ v r st, execute (withTail i64).body 2 (.evalExpr withCtx 2) (withState i64 stamps) =
      some (v, withState i64 st, r) := ⟨_, _, _, rfl⟩
  obtain ⟨v', r', st', hcont⟩ : ∃ v r st', execute (withTail i64).body 5 (.evalExpr withCtx 3) (withState i64 st) =
      some (v, withState i64 st', r) := ⟨_, _, _, rfl⟩
  refine ⟨_, _, ⟨rfl, st', rfl⟩, ?_⟩
  refine .after (execute_sound hcallee).1 (.after (execute_sound hcont).1 ?_)
  exact .inside _ (.read (.read (.write _ (.here _ _ _))))

theorem with_tail_endless : ¬ ∃ v s',
    Runs (withTail i64).body ((withTail i64).evalNode withCtx 1) (withState i64 []) v s' :=
  not_returns (c := .evalExpr withCtx 1) again_enters ⟨rfl, [], rfl⟩

end Example

end Ore.EvalTermination
