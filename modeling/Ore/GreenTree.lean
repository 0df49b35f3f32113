import Ore.RoseTree
import Ore.SyntaxKinds
import Ore.WorkspaceModel

namespace Ore.GreenTree

open RoseTree SyntaxKinds
open WorkspaceModel (Bytes)

structure GreenToken where
  kind : SyntaxKind
  text : Bytes
  deriving DecidableEq, Repr

/-- What a green element unfolds to. -/
inductive Green where
  | token (tok : GreenToken)
  | node (kind : SyntaxKind) (children : List Green)

/-- A word that the hash mixes in: the kind of a node, or a token, whose
address stands for its kind and text. -/
inductive Word where
  | kind (kind : SyntaxKind)
  | token (tok : GreenToken)
  deriving DecidableEq, Repr

mutual

def structuralHashRec : Green → List Word
  | .node kind children => .kind kind :: structuralHashChildren children
  | .token tok => if tokenIsTrivia tok.kind then [] else [.token tok]

def structuralHashChildren : List Green → List Word
  | [] => []
  | c :: cs => structuralHashRec c ++ structuralHashChildren cs

end

def isTrivia : Green → Bool
  | .token tok => tokenIsTrivia tok.kind
  | .node _ _ => false

mutual

/-- The element without the trivia tokens below it. -/
def strip : Green → Green
  | .node kind children => .node kind (stripAll children)
  | .token tok => .token tok

def stripAll : List Green → List Green
  | [] => []
  | c :: cs => if isTrivia c then stripAll cs else strip c :: stripAll cs

end

mutual

def rose : Green → Rose Word
  | .node kind children => .node (.kind kind) (roseAll children)
  | .token tok => .node (.token tok) []

def roseAll : List Green → List (Rose Word)
  | [] => []
  | c :: cs => rose c :: roseAll cs

end

mutual

theorem rose_inj : {t u : Green} → rose t = rose u → t = u
  | .token t, .token u => fun h => by
      simp only [rose, Rose.node.injEq, Word.token.injEq, and_true] at h
      rw [h]
  | .token t, .node kind children => fun h => by simp [rose] at h
  | .node kind children, .token t => fun h => by simp [rose] at h
  | .node kind children, .node kind' children' => fun h => by
      simp only [rose, Rose.node.injEq, Word.kind.injEq] at h
      rw [h.1, roseAll_inj h.2]

theorem roseAll_inj : {ts us : List Green} → roseAll ts = roseAll us → ts = us
  | [], [] => fun _ => rfl
  | [], _ :: _ => fun h => by simp [roseAll] at h
  | _ :: _, [] => fun h => by simp [roseAll] at h
  | t :: ts, u :: us => fun h => by
      rw [roseAll, roseAll, List.cons.injEq] at h
      rw [rose_inj h.1, roseAll_inj h.2]

end

mutual

theorem structuralHashRec_eq : (t : Green) → isTrivia t = false → structuralHashRec t = preorder (rose (strip t))
  | .token tok => fun h => by
      have hplain : tokenIsTrivia tok.kind = false := h
      simp [structuralHashRec, hplain, strip, rose, preorder, preorderAll]
  | .node kind children => fun _ => by
      rw [structuralHashRec, strip, rose, preorder, structuralHashChildren_eq children]

theorem structuralHashChildren_eq : (ts : List Green) → structuralHashChildren ts = preorderAll (roseAll (stripAll ts))
  | [] => rfl
  | t :: ts => by
      rw [structuralHashChildren, stripAll, structuralHashChildren_eq ts]
      cases ht : isTrivia t with
      | true =>
          rw [if_pos rfl]
          cases t with
          | token tok =>
              have hplain : tokenIsTrivia tok.kind = true := ht
              simp [structuralHashRec, hplain]
          | node kind children => simp [isTrivia] at ht
      | false => rw [if_neg (by decide), structuralHashRec_eq t ht, roseAll, preorderAll]

end

/-- The hash tells two trees apart exactly when they differ in more than
trivia. -/
def Separates (t u : Green) : Prop := structuralHashRec t = structuralHashRec u ↔ strip t = strip u

/-- Trees with the same kinds and tokens in preorder have the same numbers of
children, trivia left out. -/
def SameArities (t u : Green) : Prop :=
  preorder (rose (strip t)) = preorder (rose (strip u)) → arities (rose (strip t)) = arities (rose (strip u))

theorem structuralHash_separates (kind kind' : SyntaxKind) (ts us : List Green) :
    Separates (.node kind ts) (.node kind' us) ↔ SameArities (.node kind ts) (.node kind' us) := by
  have hstrip : strip (.node kind ts) = strip (.node kind' us) ↔
    rose (strip (.node kind ts)) = rose (strip (.node kind' us)) :=
    ⟨congrArg rose, rose_inj⟩
  rw [Separates, SameArities, structuralHashRec_eq _ rfl, structuralHashRec_eq _ rfl, hstrip, RoseTree.eq_iff]
  exact ⟨fun h hlabels => (h.mp hlabels).2, fun h => ⟨fun hlabels => ⟨hlabels, h hlabels⟩, And.left⟩⟩

theorem structuralHashChildren_append (ts us : List Green) :
    structuralHashChildren (ts ++ us) = structuralHashChildren ts ++ structuralHashChildren us := by
  induction ts with
  | nil => rfl
  | cons t ts ih => rw [List.cons_append, structuralHashChildren, structuralHashChildren, ih, List.append_assoc]

theorem structuralHash_moved (kind kind' : SyntaxKind) (before inside after : List Green) (c : Green) :
    structuralHashRec (.node kind (before ++ .node kind' (inside ++ [c]) :: after)) =
      structuralHashRec (.node kind (before ++ .node kind' inside :: c :: after)) := by
  simp [structuralHashRec, structuralHashChildren_append, structuralHashChildren]

/-- A name in a statement, and behind an empty statement. -/
theorem structuralHash_collides :
    ¬Separates (.node .stmtList [.node .exprStmt [.token ⟨.ident, [97]⟩]])
      (.node .stmtList [.node .exprStmt [], .token ⟨.ident, [97]⟩]) := by
  intro h
  have heq := h.mp (structuralHash_moved .stmtList .exprStmt [] [] [] (.token ⟨.ident, [97]⟩))
  simp [strip, stripAll, isTrivia, tokenIsTrivia] at heq

end Ore.GreenTree
