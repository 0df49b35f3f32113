import Ore.DeclAstPaths
import Ore.ParentLinks

namespace Ore.BodyScopes

open SyntaxKinds GreenTree RedTree DeclAstIds DeclAstPaths
open NamespaceItems (kindIsExprNode isBindRhsNode word)
open WorkspaceModel (Bytes)

section Accessors

/-- A child that is no trivia. -/
inductive Element where
  | token (tok : GreenToken)
  | node (p : Placed)

def elementsAt (start : Nat) (path : List Nat) (index : Nat) : List Green → List Element
  | [] => []
  | .token tok :: cs =>
      if tokenIsTrivia tok.kind then elementsAt (start + tok.text.length) path index cs
      else .token tok :: elementsAt (start + tok.text.length) path (index + 1) cs
  | .node kind children :: cs =>
      .node ⟨path ++ [index], ⟨kind, children, start⟩⟩ :: elementsAt (start + textLenAll children) path (index + 1) cs

def elements (n : Placed) : List Element := elementsAt n.node.start n.path 0 n.node.children

def nodesIn : List Element → List Placed
  | [] => []
  | .token _ :: es => nodesIn es
  | .node p :: es => p :: nodesIn es

def childNodes (n : Placed) : List Placed := nodesIn (elements n)

def afterToken (kind : SyntaxKind) : List Element → List Element
  | [] => []
  | .token tok :: es => if tok.kind = kind then es else afterToken kind es
  | .node _ :: es => afterToken kind es

/-- The node children that follow one of them. -/
def nextSiblings (p : Placed) : List Placed → List Placed
  | [] => []
  | q :: qs => if q.path = p.path then qs else nextSiblings p qs

def astFirstChild (n : Placed) (kind : SyntaxKind) : Option Placed := (childNodes n).find? (·.node.kind = kind)

def astFirstNodeAfterToken (n : Placed) (kind : SyntaxKind) : Option Placed :=
  (nodesIn (afterToken kind (elements n))).head?

def syntaxNodeNextSibling (n p : Placed) : Option Placed := (nextSiblings p (childNodes n)).head?

/-- The text of the first identifier; an empty text is no name. -/
def nameOf (n : Placed) : Option Bytes :=
  ((NamespaceItems.firstToken .ident n.node.children).map (·.text)).filter (· ≠ [])

def kindIsValueNode (kind : SyntaxKind) : Bool := kindIsExprNode kind || kind = .blockStmt

def bindDefValue (n : Placed) : Option Placed := (childNodes n).find? (isBindRhsNode ·.node.kind)

def ifExprCapture (n : Placed) : Option Placed := astFirstChild n .capture

def ifExprThenBranch (n : Placed) : Option Placed :=
  (astFirstNodeAfterToken n .rparen).bind fun t =>
    if t.node.kind = .capture then syntaxNodeNextSibling n t else some t

def ifExprElseBranch (n : Placed) : Option Placed := (ifExprThenBranch n).bind (syntaxNodeNextSibling n)

def loopExprElseBranch (n : Placed) : Option Placed := astFirstNodeAfterToken n .elseKw

def lambdaExprParams (n : Placed) : Option Placed := astFirstChild n .paramList

def paramNodes (lambda : Placed) : List Placed := ((lambdaExprParams lambda).map childNodes).getD []

/-- The first node after the parameters and an effect row, unless it is a block. -/
def lambdaExprReturnType (n : Placed) : Option Placed :=
  (lambdaExprParams n).bind fun params =>
    let rest := nextSiblings params (childNodes n)
    let rest := if (rest.head?.map (·.node.kind)) = some .effectRowType then rest.tail else rest
    rest.head?.filter (·.node.kind ≠ .blockStmt)

def lambdaExprBody (n : Placed) : Option Placed := (childNodes n).reverse.find? (kindIsValueNode ·.node.kind)

def callExprIsWith (n : Placed) : Bool := (NamespaceItems.firstToken .withKw n.node.children).isSome

def callExprWithContinuation (n : Placed) : Option Placed :=
  (astFirstChild n .argList).bind fun args => (childNodes args).reverse.find? (·.node.kind = .lambdaExpr)

def callExprWithBinder (n : Placed) : Option Placed := astFirstChild n .param

end Accessors

section Builder

/-- A scope: its parent and the node that opens it, which the source keeps by
its relative id. -/
structure ScopeRow where
  parent : Option Nat
  blockNode : Placed

structure ScopedBind where
  scopeId : Nat
  name : Bytes
  bindSite : Placed

/-- The tags are in the order in which the walk sets them. -/
structure BSBuilder where
  scopes : List ScopeRow
  binds : List ScopedBind
  tags : List (Placed × Nat)

def BSBuilder.empty : BSBuilder := ⟨[], [], []⟩

def scopePush (b : BSBuilder) (parent : Option Nat) (blockNode : Placed) : Nat × BSBuilder :=
  (b.scopes.length, { b with scopes := b.scopes ++ [⟨parent, blockNode⟩] })

def bindPush (b : BSBuilder) (scopeId : Nat) (name : Bytes) (bindNode : Placed) : BSBuilder :=
  { b with binds := b.binds ++ [⟨scopeId, name, bindNode⟩] }

def bindNamed (b : BSBuilder) (scopeId : Nat) (n : Placed) : BSBuilder := match nameOf n with
  | some name => bindPush b scopeId name n
  | none => b

/-- Binds the name of a node, if there is the node. -/
def bindOptional (b : BSBuilder) (scopeId : Nat) (n : Option Placed) : BSBuilder := n.elim b (bindNamed b scopeId)

/-- A scope inside another, if there is a node to open it. -/
def scopePushOptional (b : BSBuilder) (scope : Nat) (opener : Option Placed) : Nat × BSBuilder :=
  opener.elim (scope, b) (scopePush b (some scope))

def tagNode (b : BSBuilder) (n : Placed) (scopeId : Nat) : BSBuilder := { b with tags := b.tags ++ [(n, scopeId)] }

def bindParams (b : BSBuilder) (scopeId : Nat) (lambda : Placed) : BSBuilder :=
  (paramNodes lambda).foldl (fun b p => if p.node.kind = .param then bindNamed b scopeId p else b) b

end Builder

section Walk

/-- How the walk treats a node: not at all, in a scope, as the arguments of a
`with` call, or as a lambda of which only the body is walked. -/
inductive Visit where
  | skip
  | plain (scope : Nat)
  | withArgs (outer contScope : Nat) (cont : SyntaxNodePtr)
  | bodyOf (scope : Nat)

/-- The treatment of the children of a node, with the builder they start from. -/
abbrev Entry : Type := BSBuilder × (Placed → Visit)

def walkChildrenScoped (scope : Nat) (overrides : List (Option Placed × Nat)) (c : Placed) : Visit :=
  .plain (((overrides.find? fun o => o.1.any (·.ptr = c.ptr)).map (·.2)).getD scope)

def onlyBody (n : Placed) (scope : Nat) (c : Placed) : Visit :=
  if (lambdaExprBody n).any (·.path = c.path) then .plain scope else .skip

def enterIf (scope : Nat) (n : Placed) (b : BSBuilder) : Entry :=
  let capture := ifExprCapture n
  let thenBranch := ifExprThenBranch n
  let elseBranch := ifExprElseBranch n
  let thenPush := scopePushOptional b scope (capture.or thenBranch)
  let elsePush := scopePushOptional (bindOptional thenPush.2 thenPush.1 capture) scope elseBranch
  (elsePush.2,
    walkChildrenScoped scope [(capture, thenPush.1), (thenBranch, thenPush.1), (elseBranch, elsePush.1)])

def enterLoop (scope : Nat) (n : Placed) (b : BSBuilder) : Entry :=
  let loopPush := scopePush b (some scope) n
  (bindOptional loopPush.2 loopPush.1 (astFirstChild n .capture),
    walkChildrenScoped loopPush.1 [(loopExprElseBranch n, scope)])

def enterReturnClause (scope : Nat) (n : Placed) (b : BSBuilder) : Entry :=
  let clausePush := scopePush b (some scope) n
  (bindOptional clausePush.2 clausePush.1 ((astFirstChild n .paramList).bind (astFirstChild · .param)),
    fun c => .plain (if c.node.kind = .paramList then scope else clausePush.1))

/-- An operation clause or a nested lambda; `resume` is bound in a `ctl` clause. -/
def enterLambda (scope : Nat) (n : Placed) (b : BSBuilder) : Entry :=
  let lamPush := scopePush b (some scope) n
  let bound := bindParams lamPush.2 lamPush.1 n
  (if n.node.kind = .ctlLambda then bindPush bound lamPush.1 (word "resume") n else bound, onlyBody n lamPush.1)

def enterCall (scope : Nat) (n : Placed) (b : BSBuilder) : Entry :=
  match if callExprIsWith n then callExprWithContinuation n else none with
  | none => (b, fun _ => .plain scope)
  | some cont =>
      let contPush := scopePush b (some scope) cont
      (bindOptional contPush.2 contPush.1 (callExprWithBinder n),
        fun c => if c.node.kind = .argList then .withArgs scope contPush.1 cont.ptr else .plain scope)

def enterBlock (scope : Nat) (n : Placed) (b : BSBuilder) : Entry :=
  let push := scopePush b (some scope) n
  (push.2, fun _ => .plain push.1)

def enterPlain (scope : Nat) (n : Placed) (b : BSBuilder) : Entry :=
  match n.node.kind with
  | .blockStmt | .switchArm => enterBlock scope n b
  | .ifExpr => enterIf scope n b
  | .loopExpr => enterLoop scope n b
  | .returnClause => enterReturnClause scope n b
  | .ctlLambda | .finalCtlLambda | .directLambda | .lambdaExpr => enterLambda scope n b
  | .callExpr => enterCall scope n b
  | _ => (b, fun _ => .plain scope)

def enter (visit : Visit) (n : Placed) (b : BSBuilder) : Entry :=
  match visit with
  | .skip => (b, fun _ => .skip)
  | .plain scope => enterPlain scope n (tagNode b n scope)
  | .withArgs outer contScope cont => (b, fun c => if c.ptr = cont then .bodyOf contScope else .plain outer)
  | .bodyOf scope => (b, onlyBody n scope)

/-- A bind is pushed behind what its annotation and value push. -/
def leave (visit : Visit) (n : Placed) (b : BSBuilder) : BSBuilder :=
  match visit with
  | .plain scope => if n.node.kind = .bindDecl then bindNamed b scope n else b
  | _ => b

mutual

def walk (route : Placed → Visit) (start : Nat) (path : List Nat) : Green → BSBuilder → BSBuilder
  | .token _, b => b
  | .node kind children, b =>
      let n : Placed := ⟨path, ⟨kind, children, start⟩⟩
      let entry := enter (route n) n b
      leave (route n) n (walkChildren entry.2 start path 0 children entry.1)

def walkChildren (route : Placed → Visit) (start : Nat) (path : List Nat) (index : Nat) :
    List Green → BSBuilder → BSBuilder
  | [], b => b
  | c :: cs, b =>
      walkChildren route (start + textLen c) path (nextIndex index c) cs (walk route start (path ++ [index]) c b)

end

def walkNode (n : Placed) (scope : Nat) (b : BSBuilder) : BSBuilder :=
  walk (fun _ => .plain scope) n.node.start n.path n.node.green b

end Walk

section Query

structure FnBody where
  scopes : List ScopeRow
  binds : List ScopedBind
  scopeMap : Nat → Option Nat

def wrapperNode (wrapper : SyntaxNode) : Placed := ⟨[], wrapper⟩

def lambdaNode (wrapper : SyntaxNode) : Option Placed :=
  if wrapper.kind = .bindDecl then (bindDefValue (wrapperNode wrapper)).filter (·.node.kind = .lambdaExpr) else none

def walkParam (root : Nat) (b : BSBuilder) (p : Placed) : BSBuilder :=
  walkNode p root (if p.node.kind = .param then bindNamed b root p else b)

def walkOptional (root : Nat) (b : BSBuilder) (n : Option Placed) : BSBuilder := n.elim b (walkNode · root b)

/-- The scopes of the signature, and of the body. A lambda whose body is no block
and that has no return type has its body walked as the return type too. -/
def buildScopes (lambda : Placed) : BSBuilder :=
  let push := scopePush .empty none lambda
  let signature := (paramNodes lambda).foldl (walkParam push.1) (tagNode push.2 lambda push.1)
  walkOptional push.1 (walkOptional push.1 signature (lambdaExprReturnType lambda)) (lambdaExprBody lambda)

/-- The scope map as the tags leave it, keyed by relative ids. -/
def scopeMapOf (wrapper : SyntaxNode) (tags : List (Placed × Nat)) : Nat → Option Nat :=
  tags.foldl (fun m t rel => if relOf wrapper t.1 = some rel then some t.2 else m rel) fun _ => none

def dbQueryBodyScopes (wrapper : SyntaxNode) : Option FnBody :=
  (lambdaNode wrapper).map fun lambda =>
    let b := buildScopes lambda
    ⟨b.scopes, b.binds, scopeMapOf wrapper b.tags⟩

def FnBody.parent (fb : FnBody) (scope : Nat) : Option Nat := fb.scopes[scope]?.bind (·.parent)

def bindIn (binds : List ScopedBind) (name : Bytes) (scope : Nat) : Option ScopedBind :=
  binds.foldl (fun found b => if b.scopeId = scope ∧ b.name = name then some b else found) none

def bindFrom (fb : FnBody) (name : Bytes) (scope : Nat) : Option ScopedBind :=
  (ParentLinks.climb fb.parent (bindIn fb.binds name) (fb.scopes.length + 2) (some scope)).join

def dbBodyScopeLookup (wrapper : SyntaxNode) (fb : FnBody) (useNode : Placed) (name : Bytes) : Option SyntaxNodePtr :=
  if name = [] then none
  else ((relOf wrapper useNode).bind fb.scopeMap).bind fun scope =>
    (bindFrom fb name scope).bind fun bind =>
      (declAstIdResolve wrapper ((relOf wrapper bind.bindSite).getD 0)).map Placed.ptr

end Query

end Ore.BodyScopes
