import Ore.Lexer
import Ore.RedTree

namespace Ore.NamespaceItems

open SyntaxKinds GreenTree RedTree
open WorkspaceModel (Bytes FileId)

inductive DefKind
  | none | function | struct | union | enum | effect | variable | constant | distinct
  deriving DecidableEq, Repr

def DefKind.toNat : DefKind → Nat
  | .none => 0 | .function => 1 | .struct => 2 | .union => 3 | .enum => 4 | .effect => 5
  | .variable => 6 | .constant => 7 | .distinct => 8

theorem DefKind.toNat_inj {k k' : DefKind} (h : k.toNat = k'.toNat) : k = k' := by
  cases k <;> cases k' <;> first | rfl | cases h

def metaVisMask : UInt8 := 0x03
def metaComptime : UInt8 := 0x04
def metaScoped : UInt8 := 0x08
def metaNamed : UInt8 := 0x10
def metaLinear : UInt8 := 0x20

def visPrivate : UInt8 := 0
def visPublic : UInt8 := 1
def visAbstract : UInt8 := 2

def kindIsExprNode : SyntaxKind → Bool
  | .literalExpr | .pathExpr | .fieldExpr | .refExpr | .parenExpr | .binExpr | .assignExpr | .prefixExpr | .postfixExpr
  | .callExpr | .indexExpr | .sliceExpr | .ifExpr | .switchExpr | .loopExpr | .lambdaExpr | .ctlLambda | .finalCtlLambda
  | .directLambda | .handlerExpr | .maskExpr | .productExpr | .enumRefExpr | .builtinExpr | .comptimeExpr => true
  | _ => false

def isBindRhsNode : SyntaxKind → Bool
  | .structDecl | .unionDecl | .enumDecl | .effectDecl | .distinctType | .bitFieldType => true
  | kind => kindIsExprNode kind

def firstToken (kind : SyntaxKind) : List Green → Option GreenToken
  | [] => none
  | .token tok :: cs => if tok.kind = kind then some tok else firstToken kind cs
  | .node k _ :: cs => if k = kind then none else firstToken kind cs

def bindDefValue : List Green → Option SyntaxKind
  | [] => none
  | .token _ :: cs => bindDefValue cs
  | .node kind _ :: cs => if isBindRhsNode kind then some kind else bindDefValue cs

/-- A const bind has `::`, or `:` twice. -/
def bindDefIsConst (colons : Nat) : List Green → Bool
  | [] => false
  | .token tok :: cs =>
      if tok.kind = .colonColon then true
      else if tok.kind = .colon then colons + 1 == 2 || bindDefIsConst (colons + 1) cs
      else bindDefIsConst colons cs
  | .node _ _ :: cs => bindDefIsConst colons cs

def semanticKind (value : SyntaxKind) (kind : DefKind) : DefKind :=
  match value with
  | .structDecl => .struct
  | .unionDecl => .union
  | .enumDecl => .enum
  | .lambdaExpr => .function
  | .effectDecl => .effect
  | .distinctType => .distinct
  | _ => kind

def word (s : String) : Bytes := s.toList.map Lexer.ch

def modifier (text : Bytes) (flags : UInt8) : UInt8 :=
  if text = word "pub" then flags &&& ~~~metaVisMask ||| visPublic
  else if text = word "pvt" then flags &&& ~~~metaVisMask ||| visPrivate
  else if text = word "abstract" then flags &&& ~~~metaVisMask ||| visAbstract
  else if text = word "scoped" then flags ||| metaScoped
  else if text = word "linear" then flags ||| metaLinear
  else if text = word "named" then flags ||| metaNamed
  else flags

def isBindOp : SyntaxKind → Bool
  | .colonColon | .colonEq | .colon => true
  | _ => false

def scanModifiers (pastBind : Bool) (flags : UInt8) : List Green → UInt8
  | [] => flags
  | .node _ _ :: cs => scanModifiers pastBind flags cs
  | .token tok :: cs =>
      if pastBind = false then scanModifiers (isBindOp tok.kind) flags cs
      else if tok.kind = .comptimeKw then scanModifiers true (flags ||| metaComptime) cs
      else if tok.kind = .ident then scanModifiers true (modifier tok.text flags) cs
      else scanModifiers true flags cs

/-- What a declaration gives a name. -/
structure Member where
  name : Bytes
  defMeta : UInt8
  kind : DefKind
  deriving DecidableEq, Repr

def declClassify (kind : SyntaxKind) (cs : List Green) : Option Member :=
  match kind with
  | .bindDecl => (firstToken .ident cs).map fun tok =>
      let kind := if bindDefIsConst 0 cs then DefKind.constant else .variable
      ⟨tok.text, scanModifiers false visPrivate cs, ((bindDefValue cs).map (semanticKind · kind)).getD kind⟩
  | _ => none

def hasColonColon : List Green → Bool
  | [] => false
  | .token tok :: cs => tok.kind = .colonColon || hasColonColon cs
  | .node _ _ :: cs => hasColonColon cs

def firstProduct : List Green → Option (List Green)
  | [] => none
  | .node .productExpr ps :: _ => some ps
  | _ :: cs => firstProduct cs

def targetNames : List Green → List Bytes
  | [] => []
  | .node .refExpr cs :: ps => ((firstToken .ident cs).map (·.text)).toList ++ targetNames ps
  | _ :: ps => targetNames ps

def destructureMembers (cs : List Green) : List Member :=
  (targetNames ((firstProduct cs).getD [])).map fun name => ⟨name, 0, if hasColonColon cs then .constant else .variable⟩

/-- What a child of the root declares. The empty name is not interned. -/
def members (kind : SyntaxKind) (cs : List Green) : List Member :=
  (if kind = .destructureDecl then destructureMembers cs else (declClassify kind cs).toList).filter (·.name ≠ [])

structure NamespaceItem where
  id : Nat
  name : Bytes
  file : FileId
  ptr : SyntaxNodePtr
  defMeta : UInt8
  kind : DefKind

/-- The hashes: of a name, of a word, of two fingerprints, and of a tree. -/
structure ItemHashes (φ : Type) where
  astIdCompute : Bytes → Nat
  none : φ
  u64 : Nat → φ
  combine : φ → φ → φ
  structural : Green → Nat

structure Namespace where
  files : List FileId
  fileAst : FileId → Option Green

/-- Sorting by a key. How ties are broken depends on the keys only. -/
structure Qsort where
  places : List Nat → List Nat
  perm : ∀ keys, (places keys).Perm (List.range keys.length)
  sorted : ∀ keys, ((places keys).map (keys.getD · 0)).Pairwise (· ≤ ·)

def Qsort.sort {α : Type} (q : Qsort) (key : α → Nat) (items : List α) : List α :=
  (q.places (items.map key)).filterMap (items[·]?)

def childNodes (start : Nat) : List Green → List SyntaxNode
  | [] => []
  | .token tok :: cs => childNodes (start + tok.text.length) cs
  | .node kind children :: cs => ⟨kind, children, start⟩ :: childNodes (start + textLenAll children) cs

variable {φ : Type} (q : Qsort) (h : ItemHashes φ) (ns : Namespace)

def nodeItems (file : FileId) (n : SyntaxNode) : List NamespaceItem :=
  (members n.kind n.children).map fun m => ⟨h.astIdCompute m.name, m.name, file, syntaxNodePtrNew n, m.defMeta, m.kind⟩

def Namespace.root (file : FileId) : Option SyntaxNode := (ns.fileAst file).bind syntaxTreeRoot

def Namespace.declarations (file : FileId) : List SyntaxNode :=
  ((ns.root file).map fun root => childNodes root.start root.children).getD []

def found : List NamespaceItem := ns.files.flatMap fun file => (ns.declarations file).flatMap (nodeItems h file)

def dbQueryNamespaceItems : List NamespaceItem := q.sort (·.id) (found h ns)

def itemFp (item : NamespaceItem) : φ :=
  h.combine (h.u64 item.id) (h.combine (h.u64 item.defMeta.toNat) (h.u64 item.kind.toNat))

def namespaceItemsFp : φ := (dbQueryNamespaceItems q h ns).foldl (fun fp item => h.combine fp (itemFp h item)) h.none

structure TopLevelEntry where
  id : Nat
  name : Bytes
  file : FileId
  nodePtr : SyntaxNodePtr
  defMeta : UInt8

def itemNode (item : NamespaceItem) : Option SyntaxNode := (ns.root item.file).bind (syntaxNodePtrResolve item.ptr)

/-- The first item of a name, with its fingerprint. Without one the entry is
empty. -/
def dbQueryTopLevelEntry (name : Bytes) : Option TopLevelEntry × φ :=
  match (dbQueryNamespaceItems q h ns).find? (·.name = name) with
  | none => (none, h.none)
  | some item =>
      let node := itemNode ns item
      let sh := (node.map fun n => h.structural n.green).getD 0
      (some ⟨item.id, name, item.file, (node.map syntaxNodePtrNew).getD item.ptr, item.defMeta⟩,
        if sh = 0 then h.none else h.u64 sh)

end Ore.NamespaceItems
