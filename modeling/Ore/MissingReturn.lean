import Ore.BodyReferences

namespace Ore.MissingReturn

open SyntaxKinds GreenTree RedTree DeclAstPaths BodyScopes BodyReferences
open WorkspaceModel (Bytes)

section Accessors

def callExprIsHandle (n : Placed) : Bool := (NamespaceItems.firstToken .handleKw n.node.children).isSome

def callExprCallee (n : Placed) : Option Placed := (childNodes n).head?

def callExprHead (n : Placed) : Option Placed :=
  (childNodes n).find? fun c => c.node.kind ≠ .param && c.node.kind ≠ .argList

def ifExprCondition (n : Placed) : Option Placed := (childNodes n).head?

def switchExprScrutinee (n : Placed) : Option Placed := (childNodes n).head?

def switchExprArms (n : Placed) : Option Placed := astFirstChild n .stmtList

def switchArmPatterns (arm : Placed) : List Placed := ((astFirstChild arm .switchPatternList).map childNodes).getD []

def switchArmPattern (arm : Placed) : Option Placed := (switchArmPatterns arm).head?

def switchArmBody (arm : Placed) : Option Placed := astFirstNodeAfterToken arm .fatarrow

def isToken (kind : SyntaxKind) : Element → Bool
  | .token tok => tok.kind = kind
  | .node _ => false

def loopExprCondition (n : Placed) : Option Placed := astFirstNodeAfterToken n .lparen

def loopExprBody (n : Placed) : Option Placed :=
  (nodesIn ((elements n).takeWhile fun e => !isToken .elseKw e)).getLast?

def loopExprContinue (n : Placed) : Option Placed := astFirstChild n .loopContinue

def blockStmtStmts (n : Placed) : Option Placed := astFirstChild n .stmtList

def patternIsWildcard (p : Placed) : Bool := p.node.kind = .literalExpr && (elements p).any (isToken .underscore)

/-- The text of a label token is `:name`. -/
def extractLabelName (n : Placed) : Option Bytes :=
  (NamespaceItems.firstToken .label n.node.children).bind fun tok => match tok.text with
    | c :: name => if c = Lexer.ch ':' ∧ name ≠ [] then some name else none
    | [] => none

end Accessors

section Check

/-- What the check reads of the recorded types: of a node, whether it is `noreturn`, a
function that returns `noreturn`, or a type whose switches are checked for coverage. -/
structure NodeTypes where
  noreturn : Placed → Bool
  fnNoreturn : Placed → Bool
  covered : Placed → Bool

mutual

def loopHasReachableBreak : Green → Bool
  | .token _ => false
  | .node kind children =>
      if kind = .breakStmt then true
      else if kind = .loopExpr ∨ kind = .lambdaExpr then false
      else anyReachableBreak children

def anyReachableBreak : List Green → Bool
  | [] => false
  | c :: cs => loopHasReachableBreak c || anyReachableBreak cs

end

def continuationBody (n : Placed) : Option Placed :=
  if callExprIsWith n then (callExprWithContinuation n).bind lambdaExprBody else none

def calleeOf (n : Placed) : Option Placed :=
  if callExprIsWith n || callExprIsHandle n then callExprHead n else callExprCallee n

def armsOf (n : Placed) : List Placed :=
  ((switchExprArms n).map fun arms => (childNodes arms).filter fun arm => arm.node.kind = .switchArm).getD []

/-- What runs one after the other. -/
def sequenceOf (n : Placed) : List Placed :=
  if n.node.kind = .blockStmt then ((blockStmtStmts n).map childNodes).getD [] else childNodes n

variable (t : NodeTypes)

/-- The check of one node, apart from its recorded type. -/
def terminatesBy (go : Placed → Bool) (n : Placed) : Bool :=
  match n.node.kind with
  | .callExpr => (continuationBody n).any go || (calleeOf n).any t.fnNoreturn
  | .ifExpr => (ifExprThenBranch n).any go && (ifExprElseBranch n).any go
  | .switchExpr =>
      (switchExprArms n).isSome && (armsOf n).all (fun arm => (switchArmBody arm).any go) &&
        ((armsOf n).any (fun arm => (switchArmPattern arm).any patternIsWildcard) ||
          (switchExprScrutinee n).any t.covered)
  | .loopExpr => (loopExprCondition n).isNone && (loopExprBody n).any fun body => !loopHasReachableBreak body.node.green
  | .blockStmt | .exprStmt | .parenExpr => (sequenceOf n).any go
  | _ => false

def terminatesIn : Nat → Placed → Bool
  | 0, _ => false
  | fuel + 1, n => n.node.kind = .returnStmt || t.noreturn n || terminatesBy t (terminatesIn fuel) n

def subnodes (n : Placed) : List Placed := placed n.node.start n.path n.node.green

def blockAlwaysTerminates (n : Placed) : Bool := terminatesIn t (subnodes n).length n

end Check

section Ends

inductive Outcome
  | normal
  | breaks (label : Option Bytes)
  | continues (label : Option Bytes)
  | returns

def isControl (kind : SyntaxKind) : Bool :=
  kind ∈ [.returnStmt, .breakStmt, .continueStmt, .callExpr, .ifExpr, .switchExpr, .loopExpr, .blockStmt, .exprStmt,
    .parenExpr]

/-- The parts that run on the way, each of which may end the whole. -/
def parts (n : Placed) : List Placed :=
  match n.node.kind with
  | .loopExpr => (loopExprCondition n).toList
  | .ifExpr => (ifExprCondition n).toList
  | .switchExpr => (switchExprScrutinee n).toList
  | .lambdaExpr | .blockStmt | .exprStmt | .parenExpr => []
  | _ => childNodes n

def turnParts (n : Placed) : List Placed := (loopExprBody n).toList ++ (loopExprContinue n).toList

/-- The jumps to a label, or to the innermost loop. -/
def targets (label : Option Bytes) : Outcome → Prop
  | .breaks l | .continues l => l = none ∨ l = label
  | _ => False

/-- How the run of a node can end. Conditions, scrutinees and the number of turns are left open;
the switches with a value that no pattern matches are given. -/
inductive Ends (t : NodeTypes) (missed : Placed → Bool) : Placed → Outcome → Prop
  | returns {n : Placed} : n.node.kind = .returnStmt → Ends t missed n .returns
  | breaks {n : Placed} : n.node.kind = .breakStmt → Ends t missed n (.breaks (extractLabelName n))
  | continues {n : Placed} : n.node.kind = .continueStmt → Ends t missed n (.continues (extractLabelName n))
  | part {n c : Placed} {o : Outcome} : c ∈ parts n → Ends t missed c o → o ≠ .normal → Ends t missed n o
  | plain {n : Placed} : isControl n.node.kind = false → t.noreturn n = false → Ends t missed n .normal
  | call {n : Placed} : n.node.kind = .callExpr → continuationBody n = none → t.noreturn n = false →
      (calleeOf n).any t.fnNoreturn = false → Ends t missed n .normal
  -- The continuation is the rest of the function.
  | withCall {n body : Placed} {o : Outcome} : n.node.kind = .callExpr → continuationBody n = some body →
      t.noreturn n = false → (calleeOf n).any t.fnNoreturn = false → Ends t missed body o → Ends t missed n o
  | ifThen {n branch : Placed} {o : Outcome} : n.node.kind = .ifExpr → ifExprThenBranch n = some branch →
      Ends t missed branch o → Ends t missed n o
  | ifElse {n branch : Placed} {o : Outcome} : n.node.kind = .ifExpr → ifExprElseBranch n = some branch →
      Ends t missed branch o → Ends t missed n o
  | ifSkip {n : Placed} : n.node.kind = .ifExpr → ifExprElseBranch n = none → Ends t missed n .normal
  | switchArm {n arm body : Placed} {o : Outcome} : n.node.kind = .switchExpr → arm ∈ armsOf n →
      switchArmBody arm = some body → Ends t missed body o → Ends t missed n o
  | switchEmpty {n arm : Placed} : n.node.kind = .switchExpr → arm ∈ armsOf n → switchArmBody arm = none →
      Ends t missed n .normal
  | switchPast {n : Placed} : n.node.kind = .switchExpr →
      (∀ arm ∈ armsOf n, ∀ p ∈ switchArmPatterns arm, patternIsWildcard p = false) →
      missed n = true → Ends t missed n .normal
  | sequence {n s : Placed} {pre post : List Placed} {o : Outcome} : n.node.kind ∈ [.blockStmt, .exprStmt, .parenExpr] →
      sequenceOf n = pre ++ s :: post → (∀ p ∈ pre, Ends t missed p .normal) → Ends t missed s o → o ≠ .normal →
      Ends t missed n o
  | sequenceEnd {n : Placed} : n.node.kind ∈ [.blockStmt, .exprStmt, .parenExpr] →
      (∀ p ∈ sequenceOf n, Ends t missed p .normal) → Ends t missed n .normal
  | blockCatch {n s : Placed} {pre post : List Placed} {label : Bytes} : n.node.kind = .blockStmt →
      sequenceOf n = pre ++ s :: post → (∀ p ∈ pre, Ends t missed p .normal) →
      Ends t missed s (.breaks (some label)) →
      extractLabelName n = some label → Ends t missed n .normal
  | loopSkip {n : Placed} : n.node.kind = .loopExpr → (loopExprCondition n).isSome → loopExprElseBranch n = none →
      Ends t missed n .normal
  | loopElse {n branch : Placed} {o : Outcome} : n.node.kind = .loopExpr → (loopExprCondition n).isSome →
      loopExprElseBranch n = some branch → Ends t missed branch o → Ends t missed n o
  | loopCatch {n c : Placed} {label : Option Bytes} : n.node.kind = .loopExpr → c ∈ turnParts n →
      Ends t missed c (.breaks label) → targets (extractLabelName n) (.breaks label) → Ends t missed n .normal
  | loopEscape {n c : Placed} {o : Outcome} : n.node.kind = .loopExpr → c ∈ turnParts n → Ends t missed c o →
      o ≠ .normal → ¬ targets (extractLabelName n) o → Ends t missed n o

def holdsBreaks (part : Option Placed) : Bool := part.all fun c => !loopHasReachableBreak c.node.green

/-- No break has a label, or leaves a loop from its header, its step or its `else`, or a
continuation. -/
structure Scoped (n : Placed) : Prop where
  unlabelled : n.node.kind = .breakStmt → extractLabelName n = none
  condition : n.node.kind = .loopExpr → holdsBreaks (loopExprCondition n) = true
  otherwise : n.node.kind = .loopExpr → holdsBreaks (loopExprElseBranch n) = true
  step : n.node.kind = .loopExpr → holdsBreaks (loopExprContinue n) = true
  continuation : n.node.kind = .callExpr → holdsBreaks (continuationBody n) = true

instance (n : Placed) : Decidable (Scoped n) :=
  decidable_of_iff ((n.node.kind = .breakStmt → extractLabelName n = none) ∧
      (n.node.kind = .loopExpr → holdsBreaks (loopExprCondition n) = true) ∧
      (n.node.kind = .loopExpr → holdsBreaks (loopExprElseBranch n) = true) ∧
      (n.node.kind = .loopExpr → holdsBreaks (loopExprContinue n) = true) ∧
      (n.node.kind = .callExpr → holdsBreaks (continuationBody n) = true))
    ⟨fun h => ⟨h.1, h.2.1, h.2.2.1, h.2.2.2.1, h.2.2.2.2⟩,
      fun h => ⟨h.unlabelled, h.condition, h.otherwise, h.step, h.continuation⟩⟩

def WellScoped (n : Placed) : Prop := ∀ m ∈ subnodes n, Scoped m

instance (n : Placed) : Decidable (WellScoped n) := inferInstanceAs (Decidable (∀ m ∈ subnodes n, Scoped m))

/-- The type of a conditional loop is that of its `else` where no break leaves it. -/
def divergesBy (t : NodeTypes) (go : Placed → Bool) (n : Placed) : Bool :=
  terminatesBy t go n ||
    (n.node.kind = .loopExpr && (loopExprElseBranch n).any go && holdsBreaks (loopExprBody n))

/-- Of the nodes with parts that end in their own ways, those are recorded as `noreturn` whose
parts leave no way to their end. -/
def Recorded (t : NodeTypes) : Prop :=
  ∀ n, n.node.kind ∈ [SyntaxKind.ifExpr, .switchExpr, .loopExpr, .blockStmt, .exprStmt, .parenExpr] →
    t.noreturn n = true → divergesBy t (blockAlwaysTerminates t) n = true

/-- The patterns of a switch over a type that is checked for coverage match all its values. -/
def Exhaustive (t : NodeTypes) (missed : Placed → Bool) : Prop :=
  ∀ n, n.node.kind = .switchExpr → (switchExprScrutinee n).any t.covered = true → missed n = false

end Ends

section Nodes

variable {n c d s body branch arm arms : Placed} {es : List Element} {kind : SyntaxKind}

theorem nodesIn_sublist (h : es.Sublist (elements n)) (hc : c ∈ nodesIn es) : c ∈ childNodes n := by
  have hmem : ∀ es : List Element, c ∈ nodesIn es ↔ Element.node c ∈ es := by
    intro es
    induction es with
    | nil => simp [nodesIn]
    | cons e es ih =>
        cases e with
        | token tok => simp [nodesIn, ih]
        | node p => simp [nodesIn, ih]
  exact (hmem _).mpr (h.subset ((hmem _).mp hc))

theorem afterToken_sublist (kind : SyntaxKind) (es : List Element) : (afterToken kind es).Sublist es := by
  induction es with
  | nil => exact .slnil
  | cons e es ih =>
      cases e with
      | token tok =>
          rw [afterToken]
          split
          · exact List.sublist_cons_self _ _
          · exact ih.cons _
      | node p => exact ih.cons _

theorem nextSiblings_subset (p : Placed) (qs : List Placed) : nextSiblings p qs ⊆ qs := by
  induction qs with
  | nil => exact List.Subset.refl _
  | cons q qs ih =>
      rw [nextSiblings]
      split
      · exact List.subset_cons_self _ _
      · exact List.Subset.trans ih (List.subset_cons_self _ _)

theorem firstChild_mem (h : astFirstChild n kind = some c) : c ∈ childNodes n := List.mem_of_find?_eq_some h

theorem nodeAfterToken_mem (h : astFirstNodeAfterToken n kind = some c) : c ∈ childNodes n :=
  nodesIn_sublist (afterToken_sublist kind _) (List.mem_of_head? h)

theorem nextSibling_mem (h : syntaxNodeNextSibling n d = some c) : c ∈ childNodes n :=
  nextSiblings_subset d _ (List.mem_of_head? h)

theorem thenBranch_mem (h : ifExprThenBranch n = some c) : c ∈ childNodes n := by
  rw [ifExprThenBranch, Option.bind_eq_some_iff] at h
  obtain ⟨t, ht, h⟩ := h
  split at h
  · exact nextSibling_mem h
  · exact Option.some.inj h ▸ nodeAfterToken_mem ht

theorem elseBranch_mem (h : ifExprElseBranch n = some c) : c ∈ childNodes n := by
  rw [ifExprElseBranch, Option.bind_eq_some_iff] at h
  obtain ⟨t, -, h⟩ := h
  exact nextSibling_mem h

theorem loopBody_mem (h : loopExprBody n = some c) : c ∈ childNodes n :=
  nodesIn_sublist (List.takeWhile_sublist _) (List.mem_of_getLast? h)

theorem lambdaBody_mem (h : lambdaExprBody n = some c) : c ∈ childNodes n :=
  List.mem_reverse.mp (List.mem_of_find?_eq_some h)

/-- Below a node, at any depth. -/
theorem subnodes_subset (h : c ∈ childNodes n) : subnodes c ⊆ subnodes n := by
  intro p hp
  exact List.mem_cons_of_mem _ (placed_child h hp)

theorem subnodes_length_lt (h : c ∈ childNodes n) : (subnodes c).length < (subnodes n).length := by
  obtain ⟨as, bs, hsplit⟩ := List.append_of_mem h
  have hlength : (subnodes n).length = ((childNodes n).flatMap subnodes).length + 1 := by
    rw [subnodes, placed_root, placedAll_eq, List.length_cons]
    rfl
  rw [hlength, hsplit, List.flatMap_append, List.flatMap_cons]
  simp only [List.length_append]
  omega

theorem armsOf_mem (h : arm ∈ armsOf n) :
    ∃ arms, switchExprArms n = some arms ∧ arms ∈ childNodes n ∧ arms.node.kind = .stmtList ∧ arm ∈ childNodes arms ∧
      arm.node.kind = .switchArm := by
  rw [armsOf] at h
  cases harms : switchExprArms n with
  | none =>
      rw [harms] at h
      cases h
  | some arms =>
      rw [harms, Option.map_some, Option.getD_some, List.mem_filter] at h
      have hkind := List.find?_some harms
      exact ⟨arms, rfl, firstChild_mem harms, by simpa using hkind, h.1, by simpa using h.2⟩

theorem sequenceOf_mem (h : s ∈ sequenceOf n) : s ∈ childNodes n ∨
    ∃ stmts ∈ childNodes n, stmts.node.kind = .stmtList ∧ s ∈ childNodes stmts := by
  rw [sequenceOf] at h
  split at h
  · cases hstmts : blockStmtStmts n with
    | none =>
        rw [hstmts] at h
        cases h
    | some stmts =>
        rw [hstmts, Option.map_some, Option.getD_some] at h
        have hkind := List.find?_some hstmts
        exact .inr ⟨stmts, firstChild_mem hstmts, by simpa using hkind, h⟩
  · exact .inl h

theorem continuationBody_mem (h : continuationBody n = some body) :
    ∃ args cont, args ∈ childNodes n ∧ cont ∈ childNodes args ∧ body ∈ childNodes cont := by
  rw [continuationBody] at h
  split at h
  · obtain ⟨cont, hcont, hbody⟩ := Option.bind_eq_some_iff.mp h
    obtain ⟨args, hargs, hfind⟩ := Option.bind_eq_some_iff.mp hcont
    exact ⟨args, cont, firstChild_mem hargs, List.mem_reverse.mp (List.mem_of_find?_eq_some hfind),
      lambdaBody_mem hbody⟩
  · cases h

theorem turnParts_mem (h : c ∈ turnParts n) : c ∈ childNodes n := by
  rw [turnParts, List.mem_append, Option.mem_toList, Option.mem_toList] at h
  rcases h with h | h
  · exact loopBody_mem h
  · exact firstChild_mem h

theorem parts_mem (h : c ∈ parts n) : c ∈ childNodes n := by
  rw [parts] at h
  split at h
  · exact nodeAfterToken_mem (Option.mem_toList.mp h)
  · exact List.mem_of_head? (Option.mem_toList.mp h)
  · exact List.mem_of_head? (Option.mem_toList.mp h)
  · cases h
  · cases h
  · cases h
  · cases h
  · exact h

theorem WellScoped.child (h : WellScoped n) (hc : c ∈ childNodes n) : WellScoped c :=
  fun m hm => h m (subnodes_subset hc hm)

theorem WellScoped.self (h : WellScoped n) : Scoped n := h n List.mem_cons_self

theorem reachableBreak_of_mem {start : Nat} {path : List Nat} {index : Nat} {gs : List Green}
    (h : c ∈ nodesIn (elementsAt start path index gs)) (hbreak : loopHasReachableBreak c.node.green = true) :
    anyReachableBreak gs = true := by
  induction gs generalizing start index with
  | nil => cases h
  | cons g gs ih =>
      rw [anyReachableBreak, Bool.or_eq_true]
      cases g with
      | token tok =>
          rw [elementsAt] at h
          split at h
          · exact .inr (ih h)
          · exact .inr (ih h)
      | node kind children =>
          rw [elementsAt, nodesIn, List.mem_cons] at h
          rcases h with rfl | h
          · exact .inl hbreak
          · exact .inr (ih h)

/-- A break below a node is below its parent, past which loops and lambdas do not let it. -/
theorem reachableBreak_child (hc : c ∈ childNodes n) (hbreak : loopHasReachableBreak c.node.green = true)
    (hloop : n.node.kind ≠ .loopExpr) (hlambda : n.node.kind ≠ .lambdaExpr) :
    loopHasReachableBreak n.node.green = true := by
  have hany : anyReachableBreak n.node.children = true := reachableBreak_of_mem hc hbreak
  show loopHasReachableBreak (.node n.node.kind n.node.children) = true
  rw [loopHasReachableBreak]
  split
  · rfl
  · rw [if_neg (by simp [hloop, hlambda])]
    exact hany

end Nodes

section Fuel

variable {t : NodeTypes} {n : Placed} {go go' : Placed → Bool}

theorem any_congr_child {o : Option Placed} (h : ∀ c, o = some c → go c = go' c) : o.any go = o.any go' := by
  cases o with
  | none => rfl
  | some c => exact h c rfl

/-- The check of a node looks at smaller nodes only. -/
theorem terminatesBy_congr (h : ∀ c, (subnodes c).length < (subnodes n).length → go c = go' c) :
    terminatesBy t go n = terminatesBy t go' n := by
  have hchild : ∀ c, c ∈ childNodes n → go c = go' c := fun c hc => h c (subnodes_length_lt hc)
  have hsequence : (sequenceOf n).any go = (sequenceOf n).any go' := by
    rw [Bool.eq_iff_iff, List.any_eq_true, List.any_eq_true]
    apply exists_congr
    intro s
    apply and_congr_right
    intro hs
    rcases sequenceOf_mem hs with hs | ⟨stmts, hstmts, -, hs⟩
    · rw [hchild s hs]
    · have h₁ := subnodes_length_lt hstmts
      have h₂ := subnodes_length_lt hs
      rw [h s (by omega)]
  rw [terminatesBy, terminatesBy]
  split
  · have hbody : (continuationBody n).any go = (continuationBody n).any go' := by
      apply any_congr_child
      intro body hbody
      obtain ⟨args, cont, hargs, hcont, hbody⟩ := continuationBody_mem hbody
      have h₁ := subnodes_length_lt hargs
      have h₂ := subnodes_length_lt hcont
      have h₃ := subnodes_length_lt hbody
      exact h body (by omega)
    rw [hbody]
  · rw [any_congr_child fun c hc => hchild c (thenBranch_mem hc),
      any_congr_child fun c hc => hchild c (elseBranch_mem hc)]
  · have harms : (armsOf n).all (fun arm => (switchArmBody arm).any go) =
        (armsOf n).all fun arm => (switchArmBody arm).any go' := by
      rw [Bool.eq_iff_iff, List.all_eq_true, List.all_eq_true]
      apply forall₂_congr
      intro arm harm
      obtain ⟨arms, -, harms, -, harm, -⟩ := armsOf_mem harm
      rw [any_congr_child fun body hbody => ?_]
      have h₁ := subnodes_length_lt harms
      have h₂ := subnodes_length_lt harm
      have h₃ := subnodes_length_lt (nodeAfterToken_mem hbody)
      exact h body (by omega)
    rw [harms]
  · rfl
  · exact hsequence
  · exact hsequence
  · exact hsequence
  · rfl

theorem terminatesIn_stable {fuel fuel' : Nat} (h : (subnodes n).length ≤ fuel) (h' : (subnodes n).length ≤ fuel') :
    terminatesIn t fuel n = terminatesIn t fuel' n := by
  have hpos : 0 < (subnodes n).length := Nat.succ_pos _
  induction fuel generalizing n fuel' with
  | zero => omega
  | succ fuel ih =>
      obtain ⟨fuel', rfl⟩ := Nat.exists_eq_succ_of_ne_zero (by omega : fuel' ≠ 0)
      rw [terminatesIn, terminatesIn, terminatesBy_congr]
      intro c hc
      exact ih (by omega) (by omega) (Nat.succ_pos _)

/-- The check without a bound on its depth. -/
theorem blockAlwaysTerminates_eq (t : NodeTypes) (n : Placed) : blockAlwaysTerminates t n =
    (decide (n.node.kind = .returnStmt) || t.noreturn n || terminatesBy t (blockAlwaysTerminates t) n) := by
  have hpos : (subnodes n).length ≠ 0 := Nat.succ_ne_zero _
  obtain ⟨fuel, hfuel⟩ := Nat.exists_eq_succ_of_ne_zero hpos
  rw [blockAlwaysTerminates, hfuel, terminatesIn, terminatesBy_congr]
  intro c hc
  exact terminatesIn_stable (by omega) (Nat.le_refl _)

end Fuel

section Soundness

variable {t : NodeTypes} {missed : Placed → Bool} {n c d s : Placed} {o : Outcome}

/-- What is shown of each end: a normal one is not of a node that the check accepts by its
parts, and a break out of a node is unlabelled and seen by the scan for breaks. -/
def Sound (t : NodeTypes) (n : Placed) : Outcome → Prop
  | .normal => blockAlwaysTerminates t n = false
  | .breaks label => label = none ∧ loopHasReachableBreak n.node.green = true
  | _ => True

theorem sound_diverges (hrecorded : Recorded t) (hdiverges : divergesBy t (blockAlwaysTerminates t) n = false)
    (hkind : n.node.kind ∈ [SyntaxKind.ifExpr, .switchExpr, .loopExpr, .blockStmt, .exprStmt, .parenExpr]) :
    Sound t n .normal := by
  have hparts : terminatesBy t (blockAlwaysTerminates t) n = false := (Bool.or_eq_false_iff.mp hdiverges).1
  have hreturn : n.node.kind ≠ .returnStmt := by
    rintro heq
    rw [heq] at hkind
    exact absurd hkind (by decide)
  have hnoreturn : t.noreturn n = false := by
    by_contra htrue
    have hby := hrecorded n hkind (by simpa using htrue)
    rw [hdiverges] at hby
    cases hby
  show blockAlwaysTerminates t n = false
  rw [blockAlwaysTerminates_eq, hnoreturn, hparts]
  simp [hreturn]

theorem sound_normal (hrecorded : Recorded t) (hparts : terminatesBy t (blockAlwaysTerminates t) n = false)
    (hkind : n.node.kind ∈ [SyntaxKind.ifExpr, .switchExpr, .blockStmt, .exprStmt, .parenExpr]) :
    Sound t n .normal := by
  have hloop : n.node.kind ≠ .loopExpr := by
    rintro heq
    rw [heq] at hkind
    exact absurd hkind (by decide)
  apply sound_diverges hrecorded
  · rw [divergesBy, hparts]
    simp [hloop]
  · simp only [List.mem_cons, List.not_mem_nil, or_false] at hkind ⊢
    tauto

theorem sound_child (hc : c ∈ childNodes n) (hloop : n.node.kind ≠ .loopExpr) (hlambda : n.node.kind ≠ .lambdaExpr)
    (ho : o ≠ .normal) (h : Sound t c o) : Sound t n o := by
  cases o with
  | normal => exact absurd rfl ho
  | breaks label => exact ⟨h.1, reachableBreak_child hc h.2 hloop hlambda⟩
  | continues | returns => trivial

/-- A part of an ending that runs is below a node, with nothing between that stops a break. -/
theorem sound_grandchild (hd : d ∈ childNodes n) (hc : c ∈ childNodes d) (hn : n.node.kind ≠ .loopExpr)
    (hn' : n.node.kind ≠ .lambdaExpr) (hkind : d.node.kind ≠ .loopExpr) (hkind' : d.node.kind ≠ .lambdaExpr)
    (ho : o ≠ .normal) (h : Sound t c o) : Sound t n o :=
  sound_child hd hn hn' ho (sound_child hc hkind hkind' ho h)

theorem sound_part (hscoped : Scoped n) (hc : c ∈ parts n) (ho : o ≠ .normal) (h : Sound t c o) : Sound t n o := by
  by_cases hloop : n.node.kind = .loopExpr
  · have hcond : loopExprCondition n = some c := by
      simpa [parts, hloop] using hc
    cases o with
    | normal => exact absurd rfl ho
    | breaks label =>
        have hnone := hscoped.condition hloop
        rw [hcond, holdsBreaks, Option.all_some, h.2] at hnone
        cases hnone
    | continues | returns => trivial
  · by_cases hlambda : n.node.kind = .lambdaExpr
    · simp [parts, hlambda] at hc
    · exact sound_child (parts_mem hc) hloop hlambda ho h

theorem sound_sequence (hkind : n.node.kind ∈ [SyntaxKind.blockStmt, .exprStmt, .parenExpr]) (hs : s ∈ sequenceOf n)
    (ho : o ≠ .normal) (h : Sound t s o) : Sound t n o := by
  have hloop : n.node.kind ≠ .loopExpr := by
    rintro heq
    rw [heq] at hkind
    exact absurd hkind (by decide)
  have hlambda : n.node.kind ≠ .lambdaExpr := by
    rintro heq
    rw [heq] at hkind
    exact absurd hkind (by decide)
  rcases sequenceOf_mem hs with hs | ⟨stmts, hstmts, hlist, hs⟩
  · exact sound_child hs hloop hlambda ho h
  · exact sound_grandchild hstmts hs hloop hlambda (by rw [hlist]; decide) (by rw [hlist]; decide) ho h

theorem terminatesBy_sequence (go : Placed → Bool)
    (hkind : n.node.kind ∈ [SyntaxKind.blockStmt, .exprStmt, .parenExpr]) :
    terminatesBy t go n = (sequenceOf n).any go := by
  rw [terminatesBy]
  simp only [List.mem_cons, List.not_mem_nil, or_false] at hkind
  rcases hkind with hkind | hkind | hkind
  · rw [hkind]
  · rw [hkind]
  · rw [hkind]

theorem terminatesBy_plain (go : Placed → Bool) (hkind : isControl n.node.kind = false) :
    terminatesBy t go n = false := by
  rw [terminatesBy]
  split
  all_goals first
    | rfl
    | simp_all [isControl]

theorem terminatesBy_loop (go : Placed → Bool) (hkind : n.node.kind = .loopExpr) : terminatesBy t go n =
    ((loopExprCondition n).isNone && (loopExprBody n).any fun body => !loopHasReachableBreak body.node.green) := by
  rw [terminatesBy, hkind]

theorem WellScoped.sequence (h : WellScoped n) (hs : s ∈ sequenceOf n) : WellScoped s := by
  rcases sequenceOf_mem hs with hs | ⟨stmts, hstmts, -, hs⟩
  · exact h.child hs
  · exact (h.child hstmts).child hs

theorem ends_sound (hrecorded : Recorded t) (hexhaustive : Exhaustive t missed) (h : Ends t missed n o) :
    WellScoped n → Sound t n o := by
  induction h with
  | returns | continues => exact fun _ => trivial
  | @breaks n hkind =>
      intro hscoped
      refine ⟨hscoped.self.unlabelled hkind, ?_⟩
      show loopHasReachableBreak (.node n.node.kind n.node.children) = true
      rw [loopHasReachableBreak, if_pos hkind]
  | part hc _ ho ih => exact fun hscoped => sound_part hscoped.self hc ho (ih (hscoped.child (parts_mem hc)))
  | @plain n hkind hnoreturn =>
      intro _
      have hreturn : n.node.kind ≠ .returnStmt := by
        rintro heq
        rw [heq] at hkind
        cases hkind
      show blockAlwaysTerminates t n = false
      rw [blockAlwaysTerminates_eq, hnoreturn, terminatesBy_plain _ hkind]
      simp [hreturn]
  | @call n hkind hbody hnoreturn hcallee =>
      intro _
      show blockAlwaysTerminates t n = false
      rw [blockAlwaysTerminates_eq, hnoreturn, terminatesBy, hkind]
      simp [hbody, hcallee]
  | @withCall n body o hkind hbody hnoreturn hcallee _ ih =>
      intro hscoped
      obtain ⟨args, cont, hargs, hcont, hmem⟩ := continuationBody_mem hbody
      have hsound := ih (((hscoped.child hargs).child hcont).child hmem)
      cases o with
      | normal =>
          have hrest : blockAlwaysTerminates t body = false := hsound
          show blockAlwaysTerminates t n = false
          rw [blockAlwaysTerminates_eq, hnoreturn, terminatesBy, hkind]
          simp [hbody, hcallee, hrest]
      | breaks label =>
          have hnone := hscoped.self.continuation hkind
          rw [hbody, holdsBreaks, Option.all_some, hsound.2] at hnone
          cases hnone
      | continues | returns => trivial
  | @ifThen n branch o hkind hbranch _ ih =>
      intro hscoped
      have hmem := thenBranch_mem hbranch
      have hsound := ih (hscoped.child hmem)
      by_cases ho : o = .normal
      · subst o
        have hrest : blockAlwaysTerminates t branch = false := hsound
        apply sound_normal hrecorded _ (by rw [hkind]; decide)
        rw [terminatesBy, hkind]
        simp [hbranch, hrest]
      · exact sound_child hmem (by rw [hkind]; decide) (by rw [hkind]; decide) ho hsound
  | @ifElse n branch o hkind hbranch _ ih =>
      intro hscoped
      have hmem := elseBranch_mem hbranch
      have hsound := ih (hscoped.child hmem)
      by_cases ho : o = .normal
      · subst o
        have hrest : blockAlwaysTerminates t branch = false := hsound
        apply sound_normal hrecorded _ (by rw [hkind]; decide)
        rw [terminatesBy, hkind]
        simp [hbranch, hrest]
      · exact sound_child hmem (by rw [hkind]; decide) (by rw [hkind]; decide) ho hsound
  | @ifSkip n hkind hbranch =>
      intro _
      apply sound_normal hrecorded _ (by rw [hkind]; decide)
      rw [terminatesBy, hkind]
      simp [hbranch]
  | @switchArm n arm body o hkind harm hbody _ ih =>
      intro hscoped
      obtain ⟨arms, -, harms, hlist, hmem, harmKind⟩ := armsOf_mem harm
      have hbodyMem := nodeAfterToken_mem hbody
      have hsound := ih (((hscoped.child harms).child hmem).child hbodyMem)
      by_cases ho : o = .normal
      · subst o
        have hrest : blockAlwaysTerminates t body = false := hsound
        apply sound_normal hrecorded _ (by rw [hkind]; decide)
        have hall : (armsOf n).all (fun arm => (switchArmBody arm).any (blockAlwaysTerminates t)) = false := by
          rw [List.all_eq_false]
          exact ⟨arm, harm, by simp [hbody, hrest]⟩
        rw [terminatesBy, hkind]
        simp only [hall, Bool.and_false, Bool.false_and]
      · apply sound_grandchild harms hmem (by rw [hkind]; decide) (by rw [hkind]; decide) (by rw [hlist]; decide)
          (by rw [hlist]; decide) ho
        exact sound_child hbodyMem (by rw [harmKind]; decide) (by rw [harmKind]; decide) ho hsound
  | @switchEmpty n arm hkind harm hbody =>
      intro _
      apply sound_normal hrecorded _ (by rw [hkind]; decide)
      have hall : (armsOf n).all (fun arm => (switchArmBody arm).any (blockAlwaysTerminates t)) = false := by
        rw [List.all_eq_false]
        exact ⟨arm, harm, by simp [hbody]⟩
      rw [terminatesBy, hkind]
      simp only [hall, Bool.and_false, Bool.false_and]
  | @switchPast n hkind hpatterns hmissed =>
      intro _
      have hcovered : (switchExprScrutinee n).any t.covered = false := by
        by_contra hcovered
        rw [hexhaustive n hkind (by simpa using hcovered)] at hmissed
        cases hmissed
      apply sound_normal hrecorded _ (by rw [hkind]; decide)
      have hwildcard : (armsOf n).any (fun arm => (switchArmPattern arm).any patternIsWildcard) = false := by
        rw [List.any_eq_false]
        intro arm harm
        cases hpattern : switchArmPattern arm with
        | none => simp
        | some p => simp [hpatterns arm harm p (List.mem_of_head? hpattern)]
      rw [terminatesBy, hkind]
      simp only [hwildcard, hcovered, Bool.or_false, Bool.and_false]
  | @sequence n s pre post o hkind hsplit _ _ ho _ ih =>
      intro hscoped
      have hs : s ∈ sequenceOf n := by
        rw [hsplit]
        exact List.mem_append_right _ List.mem_cons_self
      exact sound_sequence hkind hs ho (ih (hscoped.sequence hs))
  | @sequenceEnd n hkind _ ih =>
      intro hscoped
      have hany : (sequenceOf n).any (blockAlwaysTerminates t) = false := by
        rw [List.any_eq_false]
        intro s hs
        have hrest : blockAlwaysTerminates t s = false := ih s hs (hscoped.sequence hs)
        rw [hrest]
        decide
      apply sound_normal hrecorded
      · rw [terminatesBy_sequence _ hkind, hany]
      · simp only [List.mem_cons, List.not_mem_nil, or_false] at hkind ⊢
        tauto
  | @blockCatch n s pre post label hkind hsplit _ _ _ _ ih =>
      intro hscoped
      have hs : s ∈ sequenceOf n := by
        rw [hsplit]
        exact List.mem_append_right _ List.mem_cons_self
      have hsound := ih (hscoped.sequence hs)
      exact absurd hsound.1 (Option.some_ne_none label)
  | @loopSkip n hkind hcond hbranch =>
      intro _
      apply sound_diverges hrecorded _ (by rw [hkind]; decide)
      obtain ⟨c, hc⟩ := Option.isSome_iff_exists.mp hcond
      rw [divergesBy, terminatesBy_loop _ hkind, hc, hbranch]
      simp
  | @loopElse n branch o hkind hcond hbranch _ ih =>
      intro hscoped
      have hsound := ih (hscoped.child (nodeAfterToken_mem hbranch))
      cases o with
      | normal =>
          have hrest : blockAlwaysTerminates t branch = false := hsound
          apply sound_diverges hrecorded _ (by rw [hkind]; decide)
          obtain ⟨c, hc⟩ := Option.isSome_iff_exists.mp hcond
          rw [divergesBy, terminatesBy_loop _ hkind, hc, hbranch, Option.any_some, hrest]
          simp
      | breaks label =>
          have hnone := hscoped.self.otherwise hkind
          rw [hbranch, holdsBreaks, Option.all_some, hsound.2] at hnone
          cases hnone
      | continues | returns => trivial
  | @loopCatch n c label hkind hc _ _ ih =>
      intro hscoped
      have hsound := ih (hscoped.child (turnParts_mem hc))
      rw [turnParts, List.mem_append, Option.mem_toList, Option.mem_toList] at hc
      rcases hc with hbody | hstep
      · apply sound_diverges hrecorded _ (by rw [hkind]; decide)
        rw [divergesBy, terminatesBy_loop _ hkind, hbody, holdsBreaks, Option.any_some, Option.all_some, hsound.2,
          Bool.not_true, Bool.and_false, Bool.and_false, Bool.or_false]
      · have hnone := hscoped.self.step hkind
        rw [hstep, holdsBreaks, Option.all_some, hsound.2] at hnone
        cases hnone
  | @loopEscape n c o hkind hc _ ho houter ih =>
      intro hscoped
      have hsound := ih (hscoped.child (turnParts_mem hc))
      cases o with
      | normal => exact absurd rfl ho
      | breaks label => exact absurd (.inl hsound.1) houter
      | continues | returns => trivial

/-- Control does not reach the end of what the check accepts, and does not break out of it
either where the scan for breaks sees none. -/
theorem terminates_sound {t : NodeTypes} {missed : Placed → Bool} {n : Placed} (hrecorded : Recorded t)
    (hexhaustive : Exhaustive t missed) (hscoped : WellScoped n) (h : blockAlwaysTerminates t n = true) :
    ¬ Ends t missed n .normal ∧
      (loopHasReachableBreak n.node.green = false → ∀ label, ¬ Ends t missed n (.breaks label)) := by
  constructor
  · intro hends
    have hfalse : blockAlwaysTerminates t n = false := ends_sound hrecorded hexhaustive hends hscoped
    rw [h] at hfalse
    cases hfalse
  · intro hnone label hends
    have hsound := ends_sound hrecorded hexhaustive hends hscoped
    rw [hsound.2] at hnone
    cases hnone

/-- Nothing is recorded. -/
def untyped : NodeTypes := ⟨fun _ => false, fun _ => false, fun _ => false⟩

def blockOf (stmts : List Green) : Green := .node .blockStmt [.node .stmtList stmts]

def arm (value : UInt8) (body : Green) : Green :=
  .node .switchArm [.node .switchPatternList [.node .literalExpr [.token ⟨.intLit, [value]⟩]],
    .token ⟨.fatarrow, [61, 62]⟩, body]

/-- The scrutinee is the only name, of a type that is checked for coverage. -/
def named : NodeTypes := ⟨fun _ => false, fun _ => false, fun n => n.node.kind = .refExpr⟩

/-- `{ switch (b) { 0 => { return } 1 => { loop { {} } } } }` -/
def chooses : Placed :=
  ⟨[], .blockStmt, [.node .stmtList [.node .switchExpr [.node .refExpr [],
    .node .stmtList [arm 48 (blockOf [.node .returnStmt []]),
      arm 49 (blockOf [.node .loopExpr [blockOf [.node .exprStmt [blockOf []]]]])]]]], 0⟩

theorem terminates_sound_chooses : ¬ Ends named (fun _ => false) chooses .normal :=
  (terminates_sound (by intro _ _ h; cases h) (by intro _ _ _; rfl) (by decide +kernel) (by decide +kernel)).1

/-- `{ switch (n) { 1 => { return } } }` -/
def choosesOne : Placed :=
  ⟨[], .blockStmt, [.node .stmtList [.node .switchExpr [.node .refExpr [],
    .node .stmtList [arm 49 (blockOf [.node .returnStmt []])]]]], 0⟩

/-- With another value of `n` control reaches the end. -/
theorem exhaustive_needed :
    blockAlwaysTerminates named choosesOne = true ∧ Ends named (fun _ => true) choosesOne .normal := by
  refine ⟨by decide +kernel, .sequenceEnd (by decide) fun p hp => ?_⟩
  obtain rfl := List.mem_singleton.mp hp
  exact .switchPast rfl (by decide +kernel) rfl

def leave : Green := blockOf [.node .breakStmt []]

/-- `loop (c) {} else { break }` -/
def innerParts : List Green :=
  [.token ⟨.lparen, [40]⟩, .node .refExpr [], .token ⟨.rparen, [41]⟩, blockOf [],
    .token ⟨.elseKw, [101, 108, 115, 101]⟩, leave]

def outer : Placed := ⟨[], .loopExpr, [blockOf [.node .loopExpr innerParts]], 0⟩

theorem Ends.first {post : List Placed} (hkind : n.node.kind ∈ [SyntaxKind.blockStmt, .exprStmt, .parenExpr])
    (hsplit : sequenceOf n = s :: post) (h : Ends t missed s o) (ho : o ≠ .normal) : Ends t missed n o := by
  have hsplit' : sequenceOf n = [] ++ s :: post := hsplit
  refine .sequence hkind hsplit' ?_ h ho
  intro p hp
  cases hp

/-- The scan for breaks passes over the `else` of an inner loop, whose break leaves the outer one. -/
theorem scoping_needed (missed : Placed → Bool) :
    blockAlwaysTerminates untyped outer = true ∧ Ends untyped missed outer .normal := by
  refine ⟨by decide +kernel, ?_⟩
  have hbreak : Ends untyped missed ⟨[0, 0, 0, 5, 0, 0], .breakStmt, [], 6⟩ (.breaks none) := .breaks rfl
  have hleave : Ends untyped missed ⟨[0, 0, 0, 5], .blockStmt, [.node .stmtList [.node .breakStmt []]], 6⟩
      (.breaks none) :=
    Ends.first (by decide) rfl hbreak (by rintro ⟨⟩)
  have hinner : Ends untyped missed ⟨[0, 0, 0], .loopExpr, innerParts, 0⟩ (.breaks none) :=
    .loopElse rfl rfl rfl hleave
  have hbody : Ends untyped missed ⟨[0], .blockStmt, [.node .stmtList [.node .loopExpr innerParts]], 0⟩
      (.breaks none) :=
    Ends.first (by decide) rfl hinner (by rintro ⟨⟩)
  exact .loopCatch rfl List.mem_cons_self hbody (.inl rfl)

end Soundness

end Ore.MissingReturn
