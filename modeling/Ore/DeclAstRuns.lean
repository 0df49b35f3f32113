import Ore.DeclAstIds

namespace Ore.DeclAstRuns

open SyntaxKinds GreenTree RedTree DeclAstIds
open NamespaceItems (bindDefValue)

variable {φ Inst : Type}

/-- The queries about one function. `signatureRefs` and `bodyRefs` stand for what
else its signature and its bodies depend on. -/
inductive Query (Inst : Type)
  | fileAst
  | topLevelEntry
  | signatureRefs
  | bodyRefs
  | fnSignatureShape
  | bodyScopes
  | inferBody
  | inferInstance (inst : Inst)
  | declAstMap
  deriving DecidableEq

/-- A slot: the fingerprint of its result, the revision in which it was last verified,
and the dependencies with the fingerprints they had when it was computed. -/
structure Slot (φ Inst : Type) where
  fp : φ
  verified : Nat
  deps : List (Query Inst × φ)

/-- The fingerprints of the queries, each by what it is computed from. -/
structure Prints (φ : Type) where
  none : φ
  structural : Green → φ
  signature : Green → φ → φ
  scopes : Green → φ
  body : Green → φ → φ
  range : Nat → Nat → φ

/-- The inputs of a revision: the declaration as its file now has it, and what the
other dependencies answer; then the slots and the map of the declaration.
`mapped` is the declaration the map was last rebuilt from. -/
structure Db (φ Inst : Type) where
  rev : Nat
  decl : Option SyntaxNode
  file : φ
  signatureRefs : φ
  bodyRefs : φ
  slots : Query Inst → Option (Slot φ Inst)
  declMap : DeclAstIdMap
  mapped : Option SyntaxNode

def isLambda (wrapper : SyntaxNode) : Bool :=
  wrapper.kind = .bindDecl && bindDefValue wrapper.children = some .lambdaExpr

section Slots

variable [DecidableEq φ] [DecidableEq Inst]

def Db.fingerprint (s : Db φ Inst) (q : Query Inst) : Option φ := (s.slots q).map (·.fp)

def Db.succeed (s : Db φ Inst) (q : Query Inst) (fp : φ) (deps : List (Query Inst)) : Db φ Inst :=
  { s with slots := fun r =>
      if r = q then some ⟨fp, s.rev, deps.filterMap fun d => (s.fingerprint d).map (d, ·)⟩ else s.slots r }

def Db.verify (s : Db φ Inst) (q : Query Inst) : Db φ Inst :=
  { s with slots := fun r => if r = q then (s.slots q).map ({ · with verified := s.rev }) else s.slots r }

def Db.due (s : Db φ Inst) (q : Query Inst) : Bool :=
  match s.slots q with
  | none => true
  | some x => x.verified ≠ s.rev && x.deps.any fun d => s.fingerprint d.1 ≠ some d.2

def Db.refresh (s : Db φ Inst) : Db φ Inst :=
  match s.decl with
  | none => s
  | some wrapper => { s with declMap := declAstIdMapRefresh wrapper, mapped := some wrapper }

end Slots

section Queries

variable [DecidableEq φ] [DecidableEq Inst] (c : Prints φ)

def topLevelEntry (s : Db φ Inst) : Db φ Inst :=
  s.succeed .topLevelEntry ((s.decl.map fun wrapper => c.structural wrapper.green).getD c.none) []

/-- The dependencies of the signature shape are brought up to date. -/
def signatureDeps (s : Db φ Inst) : Db φ Inst := (topLevelEntry c s).succeed .signatureRefs s.signatureRefs []

def shapeDue (s : Db φ Inst) : Bool := (signatureDeps c s).due .fnSignatureShape

def needs (s : Db φ Inst) (deps more : List (Query Inst)) : List (Query Inst) :=
  if s.decl.any isLambda then deps ++ more else deps

def fnSignatureShape (s : Db φ Inst) : Db φ Inst :=
  if shapeDue c s then
    (signatureDeps c s).refresh.succeed .fnSignatureShape
      ((s.decl.map fun wrapper => c.signature wrapper.green s.signatureRefs).getD c.none)
      (needs s [.topLevelEntry] [.signatureRefs])
  else (signatureDeps c s).verify .fnSignatureShape

def bodyScopes (s : Db φ Inst) : Db φ Inst :=
  let s := topLevelEntry c s
  if s.due .bodyScopes then
    match s.decl.filter isLambda with
    | none => { s with declMap := .init, mapped := none }.succeed .bodyScopes c.none [.topLevelEntry]
    | some wrapper => s.succeed .bodyScopes (c.scopes wrapper.green) [.topLevelEntry]
  else s.verify .bodyScopes

/-- The dependencies of a body are brought up to date, the signature first. -/
def bodyDeps (s : Db φ Inst) : Db φ Inst :=
  (topLevelEntry c (bodyScopes c (fnSignatureShape c s))).succeed .bodyRefs s.bodyRefs []

def bodyDue (s : Db φ Inst) (q : Query Inst) : Bool := (bodyDeps c s).due q

def inferBody (s : Db φ Inst) (q : Query Inst) : Db φ Inst :=
  if bodyDue c s q then
    (bodyDeps c s).succeed q ((s.decl.map fun wrapper => c.body wrapper.green s.bodyRefs).getD c.none)
      (needs s [.fnSignatureShape, .bodyScopes, .topLevelEntry] [.bodyRefs])
  else (bodyDeps c s).verify q

def declAstMap (s : Db φ Inst) : Db φ Inst :=
  let s := (topLevelEntry c s).succeed .fileAst s.file []
  if s.due .declAstMap then
    s.refresh.succeed .declAstMap
      ((s.decl.map fun wrapper => c.range wrapper.start (textLenAll wrapper.children)).getD c.none)
      [.topLevelEntry, .fileAst]
  else s.verify .declAstMap

end Queries

/-- An edit of the program, or a demand from outside. The check of a namespace is
a demand of each type and then of each body. -/
inductive Op (φ Inst : Type)
  | edit (decl : Option SyntaxNode) (file signatureRefs bodyRefs : φ)
  | typeOfDef
  | bodyScopes
  | inferBody
  | inferInstance (inst : Inst)
  | declAstMap

section Runs

variable [DecidableEq φ] [DecidableEq Inst] (c : Prints φ)

def apply (s : Db φ Inst) : Op φ Inst → Db φ Inst
  | .edit decl file signatureRefs bodyRefs =>
    { s with
      rev := s.rev + 1
      decl := decl
      file := file
      signatureRefs := signatureRefs
      bodyRefs := bodyRefs }
  | .typeOfDef => fnSignatureShape c s
  | .bodyScopes => bodyScopes c s
  | .inferBody => inferBody c s .inferBody
  | .inferInstance inst => inferBody c s (.inferInstance inst)
  | .declAstMap => declAstMap c s

def types (s : Db φ Inst) : Op φ Inst → Bool
  | .inferBody => bodyDue c s .inferBody
  | .inferInstance inst => bodyDue c s (.inferInstance inst)
  | _ => false

inductive Run : Db φ Inst → Prop
  | start (file signatureRefs bodyRefs : φ) : Run ⟨0, none, file, signatureRefs, bodyRefs, fun _ => none, .init, none⟩
  | step {s : Db φ Inst} (op : Op φ Inst) (before : Run s) : Run (apply c s op)

/-- The declaration's nodes have distinct hashes, and they stand where they stood when
the map was last rebuilt, or a dependency of the signature has another fingerprint than
the one recorded with the signature. -/
def Safe (s : Db φ Inst) : Prop :=
  ∀ wrapper, s.decl = some wrapper → Distinct wrapper ∧
    (s.mapped.map ptrsOf = some (ptrsOf wrapper) ∨ shapeDue c s = true)

end Runs

section Map

variable {c : Prints φ} {s : Db φ Inst} {wrapper : SyntaxNode}

def Mapped (s : Db φ Inst) : Prop := s.declMap = (s.mapped.map declAstIdMapRefresh).getD .init

theorem refresh_mapped (h : Mapped s) : Mapped s.refresh := by
  rw [Db.refresh]
  cases s.decl with
  | none => exact h
  | some wrapper => rfl

theorem refresh_decl (s : Db φ Inst) : s.refresh.decl = s.decl := by
  rw [Db.refresh]
  split <;> rfl

theorem refresh_declMap (h : s.decl = some wrapper) : s.refresh.declMap = declAstIdMapRefresh wrapper := by
  rw [Db.refresh, h]

variable [DecidableEq φ] [DecidableEq Inst]

theorem fnSignatureShape_mapped (h : Mapped s) : Mapped (fnSignatureShape c s) := by
  have hdeps : Mapped (signatureDeps c s) := h
  rw [fnSignatureShape]
  split_ifs
  · exact refresh_mapped hdeps
  · exact h

theorem bodyScopes_mapped (h : Mapped s) : Mapped (bodyScopes c s) := by
  rw [bodyScopes]
  split_ifs
  · split
    · rfl
    · exact h
  · exact h

theorem inferBody_mapped (h : Mapped s) (q : Query Inst) : Mapped (inferBody c s q) := by
  have hdeps : Mapped (bodyDeps c s) := bodyScopes_mapped (c := c) (fnSignatureShape_mapped (c := c) h)
  rw [inferBody]
  split_ifs <;> exact hdeps

theorem declAstMap_mapped (h : Mapped s) : Mapped (declAstMap c s) := by
  have hdeps : Mapped ((topLevelEntry c s).succeed .fileAst s.file []) := h
  rw [declAstMap]
  split_ifs
  · exact refresh_mapped hdeps
  · exact h

/-- The map of a reached state is always that of some declaration, but maybe not
of the one there is now. -/
theorem Run.mapped (h : Run c s) : Mapped s := by
  induction h with
  | start => rfl
  | step op _ ih =>
      cases op with
      | edit => exact ih
      | typeOfDef => exact fnSignatureShape_mapped ih
      | bodyScopes => exact bodyScopes_mapped ih
      | inferBody => exact inferBody_mapped ih _
      | inferInstance inst => exact inferBody_mapped ih _
      | declAstMap => exact declAstMap_mapped ih

theorem fnSignatureShape_decl : (fnSignatureShape c s).decl = s.decl := by
  rw [fnSignatureShape]
  split_ifs
  · exact refresh_decl (signatureDeps c s)
  · rfl

theorem fnSignatureShape_declMap (hdecl : s.decl = some wrapper) :
    (fnSignatureShape c s).declMap = if shapeDue c s then declAstIdMapRefresh wrapper else s.declMap := by
  rw [fnSignatureShape]
  split_ifs
  · have hdeps : (signatureDeps c s).decl = some wrapper := hdecl
    exact refresh_declMap hdeps
  · rfl

theorem bodyScopes_declMap (hdecl : s.decl = some wrapper) (hlambda : isLambda wrapper = true) :
    (bodyScopes c s).declMap = s.declMap := by
  have hd : (topLevelEntry c s).decl.filter isLambda = some wrapper := by
    rw [show (topLevelEntry c s).decl = s.decl from rfl, hdecl, Option.filter_some, if_pos hlambda]
  rw [bodyScopes]
  rw [hd]
  split_ifs <;> rfl

theorem inferBody_declMap (hdecl : s.decl = some wrapper) (hlambda : isLambda wrapper = true) (q : Query Inst) :
    (inferBody c s q).declMap = if shapeDue c s then declAstIdMapRefresh wrapper else s.declMap := by
  have hdeps : (inferBody c s q).declMap = (bodyScopes c (fnSignatureShape c s)).declMap := by
    rw [inferBody]
    split_ifs <;> rfl
  rw [hdeps, bodyScopes_declMap (fnSignatureShape_decl.trans hdecl) hlambda, fnSignatureShape_declMap hdecl]

end Map

section Typing

variable [DecidableEq φ] [DecidableEq Inst] {c : Prints φ} {s : Db φ Inst} {wrapper : SyntaxNode}

/-- `f :: fn() i32 k`, with the words of the structural hash as its fingerprint. -/
def sample (start : Nat) : SyntaxNode where
  kind := .bindDecl
  children := [.token ⟨.ident, [102]⟩, .token ⟨.colonColon, [58, 58]⟩, .node .lambdaExpr
    [.token ⟨.fnKw, [102, 110]⟩, .node .paramList [.token ⟨.lparen, [40]⟩, .token ⟨.rparen, [41]⟩],
      .node .pathType [.token ⟨.ident, [105, 51, 50]⟩], .node .pathExpr [.token ⟨.ident, [107]⟩]]]
  start := start

def samplePrints : Prints (List Word) where
  none := []
  structural := structuralHashRec
  signature g refs := structuralHashRec g ++ refs
  scopes := structuralHashRec
  body g refs := structuralHashRec g ++ refs
  range start length := [.token ⟨.none, List.replicate start 0 ++ List.replicate length 1⟩]

def firstRead : Db (List Word) Empty :=
  apply samplePrints ⟨0, none, [], [], [], fun _ => none, .init, none⟩ (.edit (some (sample 7)) [] [] [])

/-- The body has been typed, and an edit moves the function and changes what its signature
and its body refer to. -/
def retyped : Db (List Word) Empty :=
  apply samplePrints (apply samplePrints firstRead .inferBody) (.edit (some (sample 8)) [.kind .none] [.kind .ident]
    [.kind .none])

theorem retyped_run : Run samplePrints retyped := .step _ (.step _ (.step _ (.start [] [] [])))

/-- None of the nodes of a function is found when its body is typed. -/
def Lost (s : Db (List Word) Empty) (wrapper : SyntaxNode) : Prop :=
  s.decl = some wrapper ∧ isLambda wrapper = true ∧ types samplePrints s .inferBody = true ∧
    ∀ ptr ∈ ptrsOf wrapper, declAstIdLookup (apply samplePrints s .inferBody).declMap ptr = none

theorem Lost.not_current {s : Db (List Word) Empty} {wrapper : SyntaxNode} (h : Lost s wrapper) {ptr : SyntaxNodePtr}
    {rest : List SyntaxNodePtr} (hptrs : ptrsOf wrapper = ptr :: rest) :
    ¬ Current (apply samplePrints s .inferBody).declMap wrapper := by
  intro hcurrent
  have hfound := hcurrent 0 ptr (by rw [hptrs]; rfl)
  rw [h.2.2.2 ptr (by rw [hptrs]; exact List.mem_cons_self)] at hfound
  cases hfound

end Typing

end Ore.DeclAstRuns
