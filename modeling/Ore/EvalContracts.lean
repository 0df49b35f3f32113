import Ore.EvalModel

namespace Ore.EvalContracts

open CallTrees EvalModel TypeHoles

variable {World : Type}

def Started (s : State World) (q : Query) : Prop := q ∈ s.running ∨ (s.results.lookup q).isSome

instance (s : State World) (q : Query) : Decidable (Started s q) := inferInstanceAs (Decidable (_ ∨ _))

/-- The stacks are as before and so are the first `k` frames; no query is
forgotten. -/
structure Kept (k : Nat) (s s' : State World) : Prop where
  cycles : s'.cycles = s.cycles
  frameTop : s'.frameTop = s.frameTop
  frames : s'.frames.take k = s.frames.take k
  room : k ≤ s'.frames.length
  monoDepth : s'.monoDepth = s.monoDepth
  started : ∀ q, Started s q → Started s' q

def Restored (s s' : State World) : Prop := Kept s.frames.length s s'

theorem Kept.refl {k : Nat} {s : State World} (h : k ≤ s.frames.length) : Kept k s s :=
  ⟨rfl, rfl, rfl, h, rfl, fun _ h => h⟩

theorem Kept.trans {k : Nat} {s s' s'' : State World} (h : Kept k s s') (h' : Kept k s' s'') : Kept k s s'' :=
  ⟨h'.cycles.trans h.cycles, h'.frameTop.trans h.frameTop, h'.frames.trans h.frames, h'.room,
    h'.monoDepth.trans h.monoDepth, fun q hq => h'.started q (h.started q hq)⟩

theorem Restored.kept {k : Nat} {s s' : State World} (h : Restored s s') (hk : k ≤ s.frames.length) : Kept k s s' where
  cycles := h.cycles
  frameTop := h.frameTop
  frames := by
    have hf := congrArg (List.take k) h.frames
    rwa [List.take_take, List.take_take, Nat.min_eq_left hk] at hf
  room := hk.trans h.room
  monoDepth := h.monoDepth
  started := h.started

section Stamps

variable (p : Program World)

/-- The entry is keyed by a node of the declaration the builder belongs to. -/
def Own (x : Stamp) : Prop :=
  p.owner x.node = x.builder.decl ∧ x.key = p.nodeKey (p.declAstMap x.builder.decl) x.node

/-- The function whose locals are looked up is the declaration of the builder. -/
def AtBody (ctx : SemaCtx) : Prop := ∀ b, ctx.types = some b → ctx.enclosingFn = 0 ∨ ctx.enclosingFn = b.decl

/-- The node belongs to the declaration of the builder, and so do the map and the function. -/
def Home (ctx : SemaCtx) (node : Nat) : Prop :=
  AtBody ctx ∧ ∀ b, ctx.types = some b → p.owner node = b.decl ∧ ctx.declAstMap = p.declAstMap b.decl

def AtHome : Call → Prop
  | .evalExpr ctx node | .coerceOrDiag ctx node _ _ => Home p ctx node
  | .constant ctx _ _ _ => AtBody ctx
  | .query _ => True

def Within (s : State World) : Call → Prop
  | .constant _ _ _ _ => s.cycles.length < evalCycleDepthMax
  | .query q => q.isInstance → s.monoDepth < oreMonoDepthLimit
  | .evalExpr _ _ | .coerceOrDiag _ _ _ _ => True

/-- What every call keeps: the stacks, and, when the run is under the condition `G`,
entries that are the builder's own besides the old ones. -/
def contract (G : Prop) (old : Stamp → Prop) (meets : Call → State World → Prop) :
    Spec Call TypedValue (State World) where
  inv s := G → ∀ x ∈ s.stamps, old x ∨ Own p x
  meets := meets
  pre c s := (G → AtHome p c) ∧ Within s c
  post _ s _ s' := Restored s s'

/-- The first `k` frames and the stacks as at the start, and the invariant. -/
structure Good (G : Prop) (old : Stamp → Prop) (k : Nat) (s₀ s : State World) : Prop where
  kept : Kept k s₀ s
  owned : G → ∀ x ∈ s.stamps, old x ∨ Own p x

end Stamps

section Small

variable {p : Program World} {G : Prop} {old : Stamp → Prop} {meets : Call → State World → Prop}
    {below : Call → State World → Prop} {k : Nat} {s₀ s : State World}

theorem Good.refl (hk : k ≤ s.frames.length) (h : G → ∀ x ∈ s.stamps, old x ∨ Own p x) : Good p G old k s s :=
  ⟨.refl hk, h⟩

theorem Good.after {s' : State World} (h : Good p G old k s₀ s) (hr : Restored s s')
    (ho : G → ∀ x ∈ s'.stamps, old x ∨ Own p x) : Good p G old k s₀ s' :=
  ⟨h.kept.trans (hr.kept h.kept.room), ho⟩

theorem Good.diags (h : Good p G old k s₀ s) (d : List Diag) : Good p G old k s₀ { s with diags := d } :=
  ⟨⟨h.kept.cycles, h.kept.frameTop, h.kept.frames, h.kept.room, h.kept.monoDepth, h.kept.started⟩, h.owned⟩

theorem Good.world (h : Good p G old k s₀ s) (w : World) : Good p G old k s₀ { s with world := w } :=
  ⟨⟨h.kept.cycles, h.kept.frameTop, h.kept.frames, h.kept.room, h.kept.monoDepth, h.kept.started⟩, h.owned⟩

theorem Good.branch (h : Good p G old k s₀ s) (n : Nat) : Good p G old k s₀ { s with branch := n } :=
  ⟨⟨h.kept.cycles, h.kept.frameTop, h.kept.frames, h.kept.room, h.kept.monoDepth, h.kept.started⟩, h.owned⟩

theorem Good.set (h : Good p G old k s₀ s) {place : Nat} (hp : k ≤ place) (f : EvalFrame) :
    Good p G old k s₀ { s with frames := s.frames.set place f } :=
  ⟨⟨h.kept.cycles, h.kept.frameTop, by rw [List.take_set_of_le hp]; exact h.kept.frames,
    by simpa using h.kept.room, h.kept.monoDepth, h.kept.started⟩, h.owned⟩

theorem Good.stamp (h : Good p G old k s₀ s) {x : Stamp} (hx : G → Own p x) :
    Good p G old k s₀ { s with stamps := x :: s.stamps } :=
  ⟨⟨h.kept.cycles, h.kept.frameTop, h.kept.frames, h.kept.room, h.kept.monoDepth, h.kept.started⟩, fun hG y hy => by
    rcases List.mem_cons.1 hy with rfl | hy
    · exact .inr (hx hG)
    · exact h.owned hG y hy⟩

abbrev contractUnder (p : Program World) (G : Prop) (old : Stamp → Prop) (meets below : Call → State World → Prop) :
    Spec Call TypedValue (State World) :=
  (contract p G old meets).under below

theorem invoke_wp (h : Good p G old k s₀ s) {c : Call} (hc : meets c s → ((G → AtHome p c) ∧ Within s c) ∧ below c s) :
    (contractUnder p G old meets below).wp (CallTree.invoke c) (fun _ s' => Good p G old k s₀ s') s := by
  intro hm
  exact ⟨hc hm, fun _ _ hr ho => h.after hr ho⟩

theorem fail_wp (h : Good p G old k s₀ s) (text : String) (name : Nat) :
    (contractUnder p G old meets below).wp (fail text name) (fun _ s' => Good p G old k s₀ s') s := by
  simp only [fail, emit, Spec.wp_bind, Spec.wp_modify, Spec.wp_pure]
  exact ⟨(h.diags _).owned, h.diags _⟩

theorem Home.quiet {ctx : SemaCtx} {node : Nat} (h : ctx.types = none) : Home p ctx node := by
  refine ⟨fun b hb => ?_, fun b hb => ?_⟩
  all_goals
    rw [h] at hb
    cases hb

theorem push_wp (h : Good p G old k s₀ s) {ctx : SemaCtx} {node : Nat} (hn : G → Home p ctx node) (entry : TypedValue) :
    (contractUnder p G old meets below).wp (p.nodeTypedValuePush ctx node entry)
      (fun _ s' => Good p G old k s₀ s') s := by
  unfold Program.nodeTypedValuePush
  split
  · exact h
  · next builder hb =>
      have hx : G → Own p ⟨builder, node, p.nodeKey ctx.declAstMap node, entry⟩ := fun hG => by
        obtain ⟨ho, hmap⟩ := (hn hG).2 builder hb
        exact ⟨ho, by rw [hmap]⟩
      exact ⟨(h.stamp hx).owned, h.stamp hx⟩

theorem onCycleStack_wp (h : Good p G old k s₀ s) {frame : EvalCycleFrame} {run : Eval World TypedValue}
    (hrun : ∀ s₁, s₁ = { s with cycles := frame :: s.cycles } → Good p G old k s₁ s₁ →
      (contractUnder p G old meets below).wp run (fun _ s' => Good p G old k s₁ s') s₁) :
    (contractUnder p G old meets below).wp (onCycleStack frame run) (fun _ s' => Good p G old k s₀ s') s := by
  simp only [onCycleStack, Spec.wp_bind, Spec.wp_get, Spec.wp_modify, Spec.wp_pure]
  have hpushed : Good p G old k { s with cycles := frame :: s.cycles } { s with cycles := frame :: s.cycles } :=
    .refl h.kept.room h.owned
  refine ⟨h.owned, Spec.wp_mono (hrun _ rfl hpushed) fun _ s' h' => ?_⟩
  have hback : Good p G old k s₀ { s' with cycles := s.cycles } :=
    ⟨⟨h.kept.cycles, h'.kept.frameTop.trans h.kept.frameTop, h'.kept.frames.trans h.kept.frames, h'.kept.room,
      h'.kept.monoDepth.trans h.kept.monoDepth, fun q hq => h'.kept.started q (h.kept.started q hq)⟩, h'.owned⟩
  exact ⟨hback.owned, hback⟩

theorem guarded_wp (h : Good p G old k s₀ s) {frame : EvalCycleFrame} {name : Nat} {enter : Eval World TypedValue}
    (henter : s.cycles.length < evalCycleDepthMax →
      (contractUnder p G old meets below).wp enter (fun _ s' => Good p G old k s₀ s') s) :
    (contractUnder p G old meets below).wp (guarded frame name enter) (fun _ s' => Good p G old k s₀ s') s := by
  simp only [guarded, Spec.wp_bind, Spec.wp_get]
  split
  · exact fail_wp h _ _
  · split
    · exact fail_wp h _ _
    · next hd => exact henter (by omega)

theorem runArm_wp {Reach : Nat → Prop} {α : Type} {ctx : SemaCtx} (hhome : G → ∀ n, Reach n → Home p ctx n)
    (heval : ∀ n, Reach n → ∀ ctx' s, Kept k s₀ s → below (.evalExpr ctx' n) s)
    (hquery : ∀ q s, Kept k s₀ s → below (.query q) s)
    (arm : Arm World Reach α) (h : Good p G old k s₀ s) :
    (contractUnder p G old meets below).wp (p.runArm ctx arm) (fun _ s' => Good p G old k s₀ s') s := by
  induction arm generalizing s with
  | done a => exact h
  | look next ih => exact ih s h
  | change w next ih => exact ⟨(h.world w).owned, ih (h.world w)⟩
  | emit d next ih => exact ⟨(h.diags _).owned, ih (h.diags _)⟩
  | eval node hr hints quiet next ih =>
      intro _
      refine ⟨⟨⟨fun hG => ?_, trivial⟩, heval node hr _ s h.kept⟩, fun v s' hres ho => ih v (h.after hres ho)⟩
      cases quiet with
      | true => exact .quiet rfl
      | false => exact hhome hG node hr
  | stamp node hr entry next ih =>
      rw [Program.runArm, Spec.wp_bind]
      exact Spec.wp_mono (push_wp h (fun hG => hhome hG node hr) entry) fun _ s' h' => ih h'
  | ask q hq next ih =>
      intro _
      refine ⟨⟨⟨fun _ => trivial, fun hi => ?_⟩, hquery q s h.kept⟩, fun v s' hres ho => ih v (h.after hres ho)⟩
      rw [hq] at hi
      cases hi
  | demand d args next ih =>
      simp only [Program.runArm, Spec.wp]
      split
      · exact ih .error h
      · next hlt =>
          intro _
          exact ⟨⟨⟨fun _ => trivial, fun _ => Nat.lt_of_not_le hlt⟩, hquery _ s h.kept⟩, fun v s' hres ho =>
            ih v (h.after hres ho)⟩

end Small

section Node

variable {p : Program World} {G : Prop} {old : Stamp → Prop} {meets : Call → State World → Prop}
    {below : Call → State World → Prop} {k : Nat} {s₀ s : State World} {ctx : SemaCtx} {node : Nat}

/-- One frame further down the cycle stack. -/
structure Deeper (s₀ s : State World) : Prop where
  cycles : s.cycles.length = s₀.cycles.length + 1
  monoDepth : s.monoDepth = s₀.monoDepth
  started : ∀ q, Started s₀ q → Started s q

/-- What evaluating the node may call: nodes below it, queries, any node below one
more frame of the cycle stack, and the coercion of its answer. -/
structure Allows (p : Program World) (below : Call → State World → Prop) (k : Nat) (s₀ : State World) (ctx : SemaCtx)
    (node : Nat) : Prop where
  child : ∀ n ∈ p.below node, ∀ ctx' s, Kept k s₀ s → below (.evalExpr ctx' n) s
  query : ∀ q s, Kept k s₀ s → below (.query q) s
  constant : ∀ ctx' target entry rhs s, Kept k s₀ s → below (.constant ctx' target entry rhs) s
  deeper : ∀ ctx' n s, s₀.cycles.length < evalCycleDepthMax → Deeper s₀ s → below (.evalExpr ctx' n) s
  coerce : ∀ actual expected s, Kept k s₀ s → below (.coerceOrDiag ctx node actual expected) s

theorem Kept.deeper {frame : EvalCycleFrame} (h : Kept k s₀ s) : Deeper s₀ { s with cycles := frame :: s.cycles } :=
  ⟨by simp [h.cycles], h.monoDepth, h.started⟩

theorem Deeper.kept {s' : State World} (h : Deeper s₀ s) (h' : Kept k s s') : Deeper s₀ s' :=
  ⟨by rw [h'.cycles, h.cycles], h'.monoDepth.trans h.monoDepth, fun q hq => h'.started q (h.started q hq)⟩

theorem ask_wp (ha : Allows p below k s₀ ctx node) (h : Good p G old k s₀ s) {q : Query} (hq : q.isInstance = false) :
    (contractUnder p G old meets below).wp (ask q) (fun _ s' => Good p G old k s₀ s') s :=
  invoke_wp h fun _ => ⟨⟨fun _ => trivial, fun hi => by rw [hq] at hi; cases hi⟩, ha.query q s h.kept⟩

theorem Home.child (h : Home p ctx node) {n : Nat} (hn : n ∈ p.below node) : Home p ctx n := by
  refine ⟨h.1, fun b hb => ?_⟩
  rw [p.owner_below node n hn]
  exact h.2 b hb

theorem child_wp (ha : Allows p below k s₀ ctx node) (hhome : G → Home p ctx node) (h : Good p G old k s₀ s) {n : Nat}
    (hn : n ∈ p.below node) {ctx' : SemaCtx} (hctx : ctx' = { ctx with hints := ctx'.hints }) :
    (contractUnder p G old meets below).wp (evalExpr ctx' n) (fun _ s' => Good p G old k s₀ s') s := by
  refine invoke_wp h fun _ => ⟨⟨fun hG => ?_, trivial⟩, ha.child n hn ctx' s h.kept⟩
  rw [hctx]
  exact (hhome hG).child hn

theorem arm_wp (ha : Allows p below k s₀ ctx node) (hhome : G → Home p ctx node) {α : Type}
    (arm : Arm World (· ∈ p.below node) α) (h : Good p G old k s₀ s) :
    (contractUnder p G old meets below).wp (p.runArm ctx arm) (fun _ s' => Good p G old k s₀ s') s := by
  exact runArm_wp (fun hG n hn => (hhome hG).child hn) ha.child ha.query arm h

theorem enterConstant_wp (ha : Allows p below k s₀ ctx node) (h : Good p G old k s₀ s) (ctx' : SemaCtx)
    (hbody : G → AtBody ctx') (name target : Nat) (entry : TopLevelEntry) (otherwise : TypedValue) :
    (contractUnder p G old meets below).wp (p.enterConstant ctx' name target entry otherwise)
      (fun _ s' => Good p G old k s₀ s') s := by
  unfold Program.enterConstant
  split
  · exact guarded_wp h fun hlt =>
      invoke_wp h fun _ => ⟨⟨hbody, hlt⟩, ha.constant _ _ _ _ s h.kept⟩
  · exact h

theorem evalBinding_wp (ha : Allows p below k s₀ ctx node) (h : Good p G old k s₀ s) (name : Nat) {bind : Nat}
    (hhome : G → Home p ctx bind) :
    (contractUnder p G old meets below).wp (p.evalBinding ctx name bind) (fun _ s' => Good p G old k s₀ s') s := by
  simp only [Program.evalBinding, Spec.wp_bind, Spec.wp_get]
  split
  · next b hb =>
      refine guarded_wp h fun hlt => ?_
      cases hv : b.value with
      | none => exact h
      | some rhs =>
          simp only [Spec.wp_bind, Spec.wp_pure]
          refine onCycleStack_wp h fun s₁ hs₁ h₁ => invoke_wp h₁ fun _ => ⟨⟨?_, trivial⟩, ?_⟩
          · intro hG
            exact (hhome hG).child (p.parts_below bind rhs (by simp [hb, Shape.parts, hv]))
          · subst hs₁
            have hcycles := h.kept.cycles
            exact ha.deeper _ _ _ (by rw [hcycles] at hlt; exact hlt) h.kept.deeper
  · exact h

theorem readBinding_wp (ha : Allows p below k s₀ ctx node) (h : Good p G old k s₀ s) (name : Nat) {bind : Nat}
    (hhome : G → Home p ctx bind) :
    (contractUnder p G old meets below).wp (p.readBinding ctx name bind) (fun _ s' => Good p G old k s₀ s') s := by
  unfold Program.readBinding
  split
  · exact h
  · simp only [Spec.wp_bind, Spec.wp_pure]
    exact evalBinding_wp ha h name hhome

/-- A local that is found lies in the declaration of the builder too. -/
theorem Home.local (h : Home p ctx node) (hfn : ¬ ctx.enclosingFn = 0) {n name bind : Nat}
    (hbind : p.bodyScopeLookup ctx.enclosingFn n name = some bind) : Home p ctx bind := by
  refine ⟨h.1, fun b hb => ⟨?_, (h.2 b hb).2⟩⟩
  rw [p.bound_owner _ _ _ _ hbind]
  exact (h.1 b hb).resolve_left hfn

theorem evalLocal_wp (ha : Allows p below k s₀ ctx node) (hhome : G → Home p ctx node) (h : Good p G old k s₀ s)
    (name : Nat) :
    (contractUnder p G old meets below).wp (p.evalLocal ctx node name) (fun _ s' => Good p G old k s₀ s') s := by
  unfold Program.evalLocal
  split
  · exact h
  · next hfn =>
    split
    · exact h
    · next bind hb _ => exact readBinding_wp ha h name fun hG => (hhome hG).local hfn hb
    · next bind builder hb _ =>
        simp only [Spec.wp_bind, Spec.wp_get]
        split
        · split
          · simp only [Spec.wp_bind, Spec.wp_pure]
            exact fail_wp h _ _
          · exact h
        · exact readBinding_wp ha h name fun hG => (hhome hG).local hfn hb
        · exact h

theorem evalGlobal_wp (ha : Allows p below k s₀ ctx node) (hhome : G → Home p ctx node) (h : Good p G old k s₀ s)
    (name : Nat) :
    (contractUnder p G old meets below).wp (p.evalGlobal ctx name) (fun _ s' => Good p G old k s₀ s') s := by
  simp only [Program.evalGlobal, Spec.wp_bind, Spec.wp_get]
  split
  · exact h
  · split
    · exact fail_wp h _ _
    · next target _ =>
        split <;> simp only [Spec.wp_bind, Spec.wp_pure]
        · exact h
        all_goals refine Spec.wp_mono (ask_wp ha h rfl) fun tv s' h' => ?_
        case h_7 =>
          split
          · exact h'
          · exact enterConstant_wp ha h' ctx (fun hG => (hhome hG).1) _ _ _ _
        all_goals exact h'

theorem evalName_wp (ha : Allows p below k s₀ ctx node) (hhome : G → Home p ctx node) (h : Good p G old k s₀ s)
    (name : Nat) :
    (contractUnder p G old meets below).wp (p.evalName ctx node name) (fun _ s' => Good p G old k s₀ s') s := by
  unfold Program.evalName
  split
  · exact h
  · simp only [Spec.wp_bind, Spec.wp_get]
    split
    · exact h
    · rw [Spec.wp_bind]
      refine Spec.wp_mono (evalLocal_wp ha hhome h name) fun found s' h' => ?_
      cases found with
      | some tv => exact h'
      | none => exact evalGlobal_wp ha hhome h' name

theorem evalMember_wp (ha : Allows p below k s₀ ctx node) (hhome : G → Home p ctx node) (h : Good p G old k s₀ s)
    (ns field : Nat) :
    (contractUnder p G old meets below).wp (p.evalMember ctx ns field) (fun _ s' => Good p G old k s₀ s') s := by
  unfold Program.evalMember
  split
  · exact fail_wp h _ _
  · simp only [Spec.wp_bind]
    refine Spec.wp_mono (ask_wp ha h rfl) fun tv s' h' => ?_
    split
    · exact h'
    · exact enterConstant_wp ha h' (Program.noHint ctx) (fun hG => (hhome hG).1) _ _ _ _
    · exact h'

theorem typedField_wp (ha : Allows p below k s₀ ctx node) (hhome : G → Home p ctx node) {s' : State World}
    (h : Good p G old k s₀ s') (field : Nat) (baseTv : TypedValue) :
    (contractUnder p G old meets below).wp
      (if baseTv.type = .prim .error then return .error
        else if baseTv.type = .none ∨ field = 0 then return .none
        else match baseTv.value, p.fnMember baseTv field with
          | .namespaceValue ns, _ => p.evalMember ctx ns field
          | _, some target => return ⟨(← ask (.typeOfDef target)).type, .fnValue target⟩
          | _, none => p.runArm ctx (p.inferField ctx node baseTv)) (fun _ s' => Good p G old k s₀ s') s' := by
  split
  · exact h
  · split
    · exact h
    · split
      · exact evalMember_wp ha hhome h _ _
      · simp only [Spec.wp_bind, Spec.wp_pure]
        exact ask_wp ha h rfl
      · exact arm_wp ha hhome _ h

theorem evalField_wp (ha : Allows p below k s₀ ctx node) (hhome : G → Home p ctx node) (h : Good p G old k s₀ s)
    {base : Option Nat} {field : Nat} (hshape : p.shape node = .field base field) :
    (contractUnder p G old meets below).wp (p.evalField ctx node base field) (fun _ s' => Good p G old k s₀ s') s := by
  unfold Program.evalField
  cases base with
  | none => exact typedField_wp ha hhome h field .none
  | some b =>
      rw [Spec.wp_bind]
      have hb := p.parts_below node b (by simp [hshape, Shape.parts])
      exact Spec.wp_mono (child_wp ha hhome h hb rfl) fun tv s' h' => typedField_wp ha hhome h' field tv

end Node

section Calls

variable {p : Program World} {G : Prop} {old : Stamp → Prop} {meets : Call → State World → Prop}
    {below : Call → State World → Prop} {k : Nat} {s₀ s₁ s : State World} {ctx : SemaCtx} {node : Nat}

/-- Below its frames a body may evaluate any node; it stamps nothing. -/
theorem below_wp (ha : Allows p below k s₀ ctx node) (hlt : s₀.cycles.length < evalCycleDepthMax) (hd : Deeper s₀ s₁)
    {ctx' : SemaCtx} (hquiet : ctx'.types = none) (h : Good p G old k s₁ s) (n : Nat) :
    (contractUnder p G old meets below).wp (evalExpr ctx' n) (fun _ s' => Good p G old k s₁ s') s := by
  exact invoke_wp h fun _ => ⟨⟨fun _ => .quiet hquiet, trivial⟩, ha.deeper ctx' n s hlt (hd.kept h.kept)⟩

theorem bindLocal_wp (h : Good p G old k s₁ s) {place : Nat} (hplace : k ≤ place) (name : Nat) (val : TypedValue) :
    (contractUnder p G old meets below).wp (Program.bindLocal place name val) (fun _ s' => Good p G old k s₁ s') s := by
  simp only [Program.bindLocal, Spec.wp_bind, Spec.wp_get]
  split
  · exact h
  · simp only [Spec.wp_bind, Spec.wp_modify, Spec.wp_pure]
    exact ⟨(h.set hplace _).owned, h.set hplace _⟩

theorem evalStmtList_wp (ha : Allows p below k s₀ ctx node) (hlt : s₀.cycles.length < evalCycleDepthMax)
    (hd : Deeper s₀ s₁) {ctx' : SemaCtx} (hquiet : ctx'.types = none) {place : Nat} (hplace : k ≤ place)
    (stmts : List Nat) (h : Good p G old k s₁ s) :
    (contractUnder p G old meets below).wp (p.evalStmtList ctx' place stmts) (fun _ s' => Good p G old k s₁ s') s := by
  induction stmts generalizing s with
  | nil => exact h
  | cons stmt stmts ih =>
      unfold Program.evalStmtList
      split
      · exact h
      · simp only [Spec.wp_bind, Spec.wp_pure]
        exact below_wp ha hlt hd hquiet h _
      · split
        · exact h
        · rw [Spec.wp_bind]
          refine Spec.wp_mono (below_wp ha hlt hd hquiet h _) fun lv s' h' => ?_
          split
          · exact h'
          · rw [Spec.wp_bind]
            refine Spec.wp_mono (bindLocal_wp h' hplace _ _) fun bound s'' h'' => ?_
            split
            · exact ih h''
            · exact h''
      · exact h

theorem evalBody_wp (ha : Allows p below k s₀ ctx node) (hlt : s₀.cycles.length < evalCycleDepthMax)
    (hd : Deeper s₀ s₁) {ctx' : SemaCtx} (hquiet : ctx'.types = none) {place : Nat} (hplace : k ≤ place)
    (bodyNode : Nat) (h : Good p G old k s₁ s) :
    (contractUnder p G old meets below).wp (p.evalBody ctx' place bodyNode) (fun _ s' => Good p G old k s₁ s') s := by
  unfold Program.evalBody
  split
  · simp only [Spec.wp_bind, Spec.wp_pure]
    exact evalStmtList_wp ha hlt hd hquiet hplace _ h
  · exact below_wp ha hlt hd hquiet h _

theorem evalArgs_wp (ha : Allows p below k s₀ ctx node) (hhome : G → Home p ctx node) (args : List Nat)
    (hargs : ∀ a ∈ args, a ∈ p.below node) (vals : List TypedValue) (nArgs : Nat) (ok : Bool)
    (h : Good p G old k s₀ s) :
    (contractUnder p G old meets below).wp (Program.evalArgs ctx args vals nArgs ok)
      (fun _ s' => Good p G old k s₀ s') s := by
  induction args generalizing s vals nArgs ok with
  | nil => exact h
  | cons arg args ih =>
      have htail : ∀ a ∈ args, a ∈ p.below node := fun a ha' => hargs a (List.mem_cons_of_mem _ ha')
      rw [Program.evalArgs, Spec.wp_bind]
      refine Spec.wp_mono (child_wp ha hhome h (hargs arg List.mem_cons_self) rfl) fun tv s' h' => ?_
      split
      · exact ih htail _ _ _ h'
      · exact ih htail _ _ _ h'

theorem setBinding_prev {f g : EvalFrame} {name : Nat} {val : TypedValue} (h : evalFrameBind f name val = some g) :
    g.prev = f.prev := by
  unfold evalFrameBind at h
  split at h
  · cases h
    rfl
  · split at h
    · cases h
    · cases h
      rfl

theorem bindParams_prev {names : List Nat} {vals : List TypedValue} {f g : EvalFrame}
    (h : Program.bindParams names vals f = some g) : g.prev = f.prev := by
  induction names generalizing vals f with
  | nil =>
      cases h
      rfl
  | cons name names ih =>
      cases vals with
      | nil =>
          cases h
          rfl
      | cons val vals =>
          rw [Program.bindParams] at h
          split at h
          · exact ih h
          · obtain ⟨f', hf, hg⟩ := Option.bind_eq_some_iff.1 h
            rw [ih hg, setBinding_prev hf]

/-- The frame lies behind the first `k`, and is off the stack again afterwards. -/
theorem withFrame_wp (h : Good p G old k s₀ s) {frame : EvalFrame} (hprev : frame.prev = s.frameTop)
    {cyc : EvalCycleFrame} {run : Nat → Eval World TypedValue}
    (hrun : ∀ s₁, Deeper s₀ s₁ → Good p G old k s₁ s₁ →
      (contractUnder p G old meets below).wp (run s.frames.length) (fun _ s' => Good p G old k s₁ s') s₁) :
    (contractUnder p G old meets below).wp (Program.withFrame frame cyc run) (fun _ s' => Good p G old k s₀ s') s := by
  simp only [Program.withFrame, Spec.wp_bind, Spec.wp_get, Spec.wp_modify, Spec.wp_pure]
  have hpushed : Good p G old k { s with frames := s.frames ++ [frame], frameTop := some s.frames.length }
      { s with frames := s.frames ++ [frame], frameTop := some s.frames.length } :=
    .refl (h.kept.room.trans (by simp)) h.owned
  refine ⟨h.owned, Spec.wp_mono (onCycleStack_wp hpushed fun s₁ hs₁ h₁ => hrun s₁ ?_ h₁) fun _ s' h' => ?_⟩
  · subst hs₁
    exact ⟨by simp [h.kept.cycles], h.kept.monoDepth, h.kept.started⟩
  · have hframes : s'.frames.take k = s₀.frames.take k := by
      rw [h'.kept.frames, ← h.kept.frames]
      exact List.take_append_of_le_length h.kept.room
    have hback : Good p G old k s₀ { s' with frameTop := frame.prev } :=
      ⟨⟨h'.kept.cycles.trans h.kept.cycles, hprev.trans h.kept.frameTop, hframes, h'.kept.room,
        h'.kept.monoDepth.trans h.kept.monoDepth, fun q hq => h'.kept.started q (h.kept.started q hq)⟩, h'.owned⟩
    exact ⟨hback.owned, hback⟩

theorem runComptime_wp (ha : Allows p below k s₀ ctx node) (h : Good p G old k s₀ s) (out : TypedValue)
    (target : Nat) (entry : TopLevelEntry) (params : List Nat) (vals : List TypedValue) (bodyNode : Nat) :
    (contractUnder p G old meets below).wp (p.runComptime ctx out target entry params vals bodyNode)
      (fun _ s' => Good p G old k s₀ s') s := by
  simp only [Program.runComptime, Spec.wp_bind, Spec.wp_modify, Spec.wp_get]
  have hb := h.branch (Program.countBranch s)
  refine ⟨hb.owned, ?_⟩
  split
  · exact fail_wp hb _ _
  · split
    · exact fail_wp hb _ _
    · next hdepth =>
        split
        · exact hb
        · next frame hframe =>
            simp only [Spec.wp_bind, Spec.wp_pure]
            have hlt : s₀.cycles.length < evalCycleDepthMax := by
              rw [← h.kept.cycles]
              exact Nat.lt_of_not_le hdepth
            exact withFrame_wp hb (bindParams_prev hframe) fun s₁ hd h₁ =>
              evalBody_wp ha hlt hd rfl h.kept.room bodyNode h₁

theorem inferCallPosition_wp (ha : Allows p below k s₀ ctx node) (hhome : G → Home p ctx node)
    (h : Good p G old k s₀ s) (call : CallExpr) :
    (contractUnder p G old meets below).wp (p.inferCallPosition ctx node call)
      (fun _ s' => Good p G old k s₀ s') s := by
  unfold Program.inferCallPosition
  rw [Spec.wp_bind]
  refine Spec.wp_mono (arm_wp ha hhome _ h) fun t s' h' => ?_
  have hend : ∀ s'', Good p G old k s₀ s'' →
      (contractUnder p G old meets below).wp
        (do
          CallTree.modify fun s : State World => { s with world := t.after s.world }
          return t.result) (fun _ s' => Good p G old k s₀ s') s'' := fun s'' h'' =>
    ⟨(h''.world _).owned, h''.world _⟩
  split
  · simp only [Spec.wp_bind, Spec.wp_pure]
    exact Spec.wp_mono (invoke_wp h' fun _ => ⟨⟨hhome, trivial⟩, ha.coerce _ _ s' h'.kept⟩) fun _ s'' h'' =>
      hend s'' h''
  · exact hend s' h'

theorem foldCall_wp (ha : Allows p below k s₀ ctx node) (hhome : G → Home p ctx node) (h : Good p G old k s₀ s)
    (out : TypedValue) (target : Nat) {args : List Nat} (hargs : ∀ a ∈ args, a ∈ p.below node) :
    (contractUnder p G old meets below).wp (p.foldCall ctx out target args) (fun _ s' => Good p G old k s₀ s') s := by
  unfold Program.foldCall
  rw [Spec.wp_bind]
  refine Spec.wp_mono (ask_wp ha h rfl) fun tv s' h' => ?_
  simp only [Spec.wp_bind, Spec.wp_get]
  split
  · split
    · exact h'
    · split
      · exact h'
      · rw [Spec.wp_bind]
        refine Spec.wp_mono (evalArgs_wp ha hhome args hargs _ _ _ h') fun r s'' h'' => ?_
        split
        · exact h''
        · split
          · exact h''
          · exact runComptime_wp ha h'' _ _ _ _ _ _
  · exact h'

theorem evalCall_wp (ha : Allows p below k s₀ ctx node) (hhome : G → Home p ctx node) (h : Good p G old k s₀ s)
    {call : CallExpr} (hshape : p.shape node = .call call) :
    (contractUnder p G old meets below).wp (p.evalCall ctx node call) (fun _ s' => Good p G old k s₀ s') s := by
  have hparts : ∀ n, n ∈ call.callee.toList ++ call.args → n ∈ p.below node := fun n hn =>
    p.parts_below node n (by simpa [hshape, Shape.parts] using hn)
  unfold Program.evalCall
  rw [Spec.wp_bind]
  refine Spec.wp_mono (inferCallPosition_wp ha hhome h call) fun t s' h' => ?_
  split
  · next callee _ hcallee =>
      rw [Spec.wp_bind]
      refine Spec.wp_mono (child_wp ha hhome h' (hparts callee (by simp [hcallee])) rfl) fun tv s'' h'' => ?_
      split
      · exact foldCall_wp ha hhome h'' _ _ fun a ha' => hparts a (by simp [ha'])
      · exact h''
  · exact h'

theorem evalNode_wp (ha : Allows p below k s₀ ctx node) (hhome : G → Home p ctx node) (h : Good p G old k s₀ s) :
    (contractUnder p G old meets below).wp (p.evalNode ctx node) (fun _ s' => Good p G old k s₀ s') s := by
  have hstamp : ∀ (result : TypedValue) (s' : State World), Good p G old k s₀ s' →
      (contractUnder p G old meets below).wp
        (if result = .none then return result
          else do
            p.nodeTypedValuePush ctx node result
            return result) (fun _ s' => Good p G old k s₀ s') s' := by
    intro result s' h'
    split
    · exact h'
    · rw [Spec.wp_bind]
      exact push_wp h' hhome result
  unfold Program.evalNode
  split
  · rw [Spec.wp_bind]
    exact Spec.wp_mono (evalName_wp ha hhome h _) hstamp
  · next hshape =>
      rw [Spec.wp_bind]
      exact Spec.wp_mono (evalField_wp ha hhome h hshape) hstamp
  · next hshape =>
      rw [Spec.wp_bind]
      exact Spec.wp_mono (evalCall_wp ha hhome h hshape) hstamp
  · rw [Spec.wp_bind]
    exact Spec.wp_mono (arm_wp ha hhome _ h) hstamp

end Calls

section Bodies

variable {p : Program World} {G : Prop} {old : Stamp → Prop} {meets : Call → State World → Prop}
    {below : Call → State World → Prop} {k : Nat} {s₀ s : State World} {ctx : SemaCtx}

theorem evalConstant_wp {target : Nat} {entry : TopLevelEntry} {rhs : Nat}
    (hbelow : ∀ ctx' s, Deeper s₀ s → below (.evalExpr ctx' rhs) s)
    (hbody : G → AtBody ctx) (hcond : G → ∀ b, ctx.types = some b → target = b.decl ∧ p.owner rhs = b.decl)
    (h : Good p G old k s₀ s) :
    (contractUnder p G old meets below).wp (p.evalConstant ctx target entry rhs)
      (fun _ s' => Good p G old k s₀ s') s := by
  refine onCycleStack_wp h fun s₁ hs₁ h₁ => invoke_wp h₁ fun _ => ⟨⟨fun hG => ⟨hbody hG, fun b hb => ?_⟩, trivial⟩, ?_⟩
  · obtain ⟨ht, ho⟩ := hcond hG b hb
    exact ⟨ho, by rw [ht]⟩
  · subst hs₁
    exact hbelow _ _ h.kept.deeper

theorem again_wp {node : Nat} (hhome : G → Home p ctx node)
    (hbelow : ∀ s', Kept k s₀ s' → below (.evalExpr ctx node) s') (h : Good p G old k s₀ s) :
    (contractUnder p G old meets below).wp (evalExpr ctx node) (fun _ s' => Good p G old k s₀ s') s :=
  invoke_wp h fun _ => ⟨⟨hhome, trivial⟩, hbelow s h.kept⟩

theorem coerceNode_wp {node : Nat} {actual expected : Ty} (hhome : G → Home p ctx node)
    (hbelow : p.wantsValue s.world actual expected = true → ∀ s', Kept k s₀ s' → below (.evalExpr ctx node) s')
    (h : Good p G old k s₀ s) :
    (contractUnder p G old meets below).wp (p.coerceNode ctx node actual expected)
      (fun c s' => Good p G old k s₀ s' ∧
        (∀ lo hi, c = .failRange lo hi → p.wantsValue s.world actual expected = true)) s := by
  simp only [Program.coerceNode, Spec.wp_bind, Spec.wp_get, Spec.wp_modify]
  refine ⟨(h.world _).owned, ?_⟩
  split
  · next hw =>
      simp only [Spec.wp_bind, Spec.wp_pure]
      have hg := h.world (p.coerceStructural s.world actual expected).2
      refine Spec.wp_mono (again_wp hhome (hbelow hw) hg) fun _ s' h' => ⟨h', fun _ _ _ => hw⟩
  · refine ⟨h.world _, fun lo hi hc => ?_⟩
    split at hc <;> cases hc

theorem coerceOrDiagNode_wp {node : Nat} {actual expected : Ty} (hhome : G → Home p ctx node)
    (hbelow : p.wantsValue s.world actual expected = true → ∀ s', Kept k s₀ s' → below (.evalExpr ctx node) s')
    (h : Good p G old k s₀ s) :
    (contractUnder p G old meets below).wp (p.coerceOrDiagNode ctx node actual expected)
      (fun _ s' => Good p G old k s₀ s') s := by
  unfold Program.coerceOrDiagNode
  split
  · exact h
  · rw [Spec.wp_bind]
    refine Spec.wp_mono (coerceNode_wp hhome hbelow h) fun c s' ⟨h', hc⟩ => ?_
    cases c with
    | ok => exact h'
    | failType => exact fail_wp h' _ _
    | failRange lo hi =>
        simp only [Spec.wp_bind]
        exact Spec.wp_mono (again_wp hhome (hbelow (hc lo hi rfl)) h') fun tv s'' h'' => fail_wp h'' _ _

/-- The query is being computed in a state that goes back to the first one. -/
structure Computing (p : Program World) (q : Query) (s₀ s : State World) : Prop where
  listed : q.isInstance = false → q ∈ p.queries
  monoDepth : s.monoDepth = s₀.monoDepth + if q.isInstance then 1 else 0
  fresh : ¬ Started s₀ q
  started : ∀ q', q' = q ∨ Started s₀ q' → Started s q'

theorem Computing.kept {q : Query} {s' : State World} (h : Computing p q s₀ s) (hk : Kept k s s') :
    Computing p q s₀ s' :=
  ⟨h.listed, hk.monoDepth.trans h.monoDepth, h.fresh, fun q' hq => hk.started q' (h.started q' hq)⟩

theorem started_stored {q : Query} {tv : TypedValue} {s' : State World} (q' : Query) (h : Started s' q') :
    Started { s' with running := s'.running.erase q, results := (q, tv) :: s'.results } q' := by
  by_cases hq : q' = q
  · right
    simp [hq]
  · rcases h with hr | hr
    · exact .inl ((List.mem_erase_of_ne hq).2 hr)
    · right
      simpa [List.lookup_cons, beq_eq_false_iff_ne.2 hq] using hr

theorem Home.ofQuery {q : Query} {n : Nat} (h : p.owner n = q.decl) : Home p (p.queryCtx q) n :=
  ⟨fun b hb => by cases hb; exact p.frame_fn q, fun b hb => by cases hb; exact ⟨h, rfl⟩⟩

theorem runQuery_wp {q : Query} (hexpr : ∀ ctx' n s', Computing p q s s' → below (.evalExpr ctx' n) s')
    (hquery : ∀ q' s', Computing p q s s' → below (.query q') s')
    (h : Good p G old k s s) :
    (contractUnder p G old meets below).wp (p.runQuery q) (fun _ s' => Good p G old k s s') s := by
  simp only [Program.runQuery, Spec.wp_bind, Spec.wp_get]
  split
  · exact h
  · next hnone =>
      split
      · exact h
      · next hrunning =>
          split
          · exact h
          · next hlisted =>
              generalize hdepth : (if q.isInstance = true then 1 else 0) = depth
              simp only [Spec.wp_bind, Spec.wp_modify, Spec.wp_pure]
              have hfresh : ¬ Started s q := by
                rintro (hr | hr)
                · exact hrunning hr
                · simp [hnone] at hr
              have hstart : ∀ q', q' = q ∨ Started s q' →
                  Started { s with running := q :: s.running, monoDepth := s.monoDepth + depth } q' := by
                rintro q' (rfl | hr | hr)
                · exact .inl List.mem_cons_self
                · exact .inl (List.mem_cons_of_mem _ hr)
                · exact .inr hr
              have hcomp : Computing p q s { s with running := q :: s.running, monoDepth := s.monoDepth + depth } :=
                ⟨fun hi => Classical.byContradiction fun hq => hlisted ⟨hq, hi⟩, by rw [hdepth], hfresh, hstart⟩
              have hgood : Good p G old k { s with running := q :: s.running, monoDepth := s.monoDepth + depth }
                  { s with running := q :: s.running, monoDepth := s.monoDepth + depth } :=
                .refl h.kept.room h.owned
              refine ⟨h.owned, Spec.wp_mono (runArm_wp (fun _ n hn => Home.ofQuery hn) (fun n _ ctx' s' hk =>
                hexpr ctx' n s' (hcomp.kept hk)) (fun q' s' hk => hquery q' s' (hcomp.kept hk)) _ hgood)
                fun tv s' h' => ?_⟩
              have hback : Good p G old k s { s' with running := s'.running.erase q, results := (q, tv) :: s'.results,
                                                      monoDepth := s'.monoDepth - depth } :=
                ⟨⟨h'.kept.cycles, h'.kept.frameTop, h'.kept.frames, h'.kept.room,
                  by simp [h'.kept.monoDepth], fun q' hq =>
                    started_stored q' (h'.kept.started q' (hstart q' (.inr hq)))⟩, h'.owned⟩
              exact ⟨hback.owned, hback⟩

end Bodies

end Ore.EvalContracts
