import Ore.NamespaceItems

namespace Ore.DeclAstIds

open SyntaxKinds GreenTree RedTree
open NamespaceItems (bindDefValue)

section Hash

def fxhashSeed : UInt64 := 0xcbf29ce484222325

def fxhashU64 (h v : UInt64) : UInt64 := (h ^^^ v) * 0x517cc1b727220a95

def kindNumber (kind : SyntaxKind) : Nat := 257 + (kind.ctorIdx - SyntaxKind.sourceFile.ctorIdx)

def syntaxNodePtrHash (ptr : SyntaxNodePtr) : UInt64 :=
  fxhashU64 (fxhashU64 (fxhashU64 fxhashSeed (.ofNat (kindNumber ptr.kind))) (.ofNat ptr.range.start))
    (.ofNat ptr.range.length)

end Hash

section Walks

/-- The node pointers of a declaration to their preorder indices, by hash. -/
structure DeclAstIdMap where
  rev : UInt64 → Option Nat
  nextId : Nat

def DeclAstIdMap.init : DeclAstIdMap := ⟨fun _ => none, 0⟩

def DeclAstIdMap.put (m : DeclAstIdMap) (ptr : SyntaxNodePtr) : DeclAstIdMap :=
  ⟨fun h => if h = syntaxNodePtrHash ptr then some m.nextId else m.rev h, m.nextId + 1⟩

mutual

def declAstIdMapWalk (start : Nat) : Green → DeclAstIdMap → DeclAstIdMap
  | .token _, m => m
  | .node kind children, m => declAstIdMapWalkAll start children (m.put ⟨kind, ⟨start, textLenAll children⟩⟩)

def declAstIdMapWalkAll (start : Nat) : List Green → DeclAstIdMap → DeclAstIdMap
  | [], m => m
  | c :: cs, m => declAstIdMapWalkAll (start + textLen c) cs (declAstIdMapWalk start c m)

end

def declAstIdMapRefresh (wrapper : SyntaxNode) : DeclAstIdMap := declAstIdMapWalk wrapper.start wrapper.green .init

def declAstIdLookup (m : DeclAstIdMap) (ptr : SyntaxNodePtr) : Option Nat := m.rev (syntaxNodePtrHash ptr)

mutual

/-- The pointers to the nodes of a tree in preorder. -/
def nodePtrs (start : Nat) : Green → List SyntaxNodePtr
  | .token _ => []
  | .node kind children => ⟨kind, ⟨start, textLenAll children⟩⟩ :: nodePtrsAll start children

def nodePtrsAll (start : Nat) : List Green → List SyntaxNodePtr
  | [] => []
  | c :: cs => nodePtrs start c ++ nodePtrsAll (start + textLen c) cs

end

def ptrsOf (wrapper : SyntaxNode) : List SyntaxNodePtr := nodePtrs wrapper.start wrapper.green

/-- Every node of a declaration is found at its preorder index. -/
def Current (m : DeclAstIdMap) (wrapper : SyntaxNode) : Prop :=
  ∀ i ptr, (ptrsOf wrapper)[i]? = some ptr → declAstIdLookup m ptr = some i

def Distinct (wrapper : SyntaxNode) : Prop := ((ptrsOf wrapper).map syntaxNodePtrHash).Nodup

instance (wrapper : SyntaxNode) : Decidable (Distinct wrapper) := inferInstanceAs (Decidable (List.Nodup _))

end Walks

section Maps

mutual

theorem walk_eq (start : Nat) : ∀ (g : Green) (m : DeclAstIdMap),
    declAstIdMapWalk start g m = (nodePtrs start g).foldl .put m
  | .token _, m => by rw [declAstIdMapWalk, nodePtrs, List.foldl_nil]
  | .node kind children, m => by
      rw [declAstIdMapWalk, nodePtrs, List.foldl_cons]
      exact walkAll_eq start children _

theorem walkAll_eq (start : Nat) : ∀ (gs : List Green) (m : DeclAstIdMap),
    declAstIdMapWalkAll start gs m = (nodePtrsAll start gs).foldl .put m
  | [], m => by rw [declAstIdMapWalkAll, nodePtrsAll, List.foldl_nil]
  | g :: gs, m => by
      rw [declAstIdMapWalkAll, nodePtrsAll, List.foldl_append, walk_eq start g m]
      exact walkAll_eq (start + textLen g) gs _

end

variable {ptrs : List SyntaxNodePtr} {m : DeclAstIdMap}

theorem foldl_put_other {h : UInt64} (hn : h ∉ ptrs.map syntaxNodePtrHash) : (ptrs.foldl .put m).rev h = m.rev h := by
  induction ptrs generalizing m with
  | nil => rfl
  | cons ptr ptrs ih =>
      simp only [List.map_cons, List.mem_cons, not_or] at hn
      rw [List.foldl_cons, ih hn.2]
      exact if_neg hn.1

theorem foldl_put_at (hd : (ptrs.map syntaxNodePtrHash).Nodup) {i : Nat} {ptr : SyntaxNodePtr}
    (hi : ptrs[i]? = some ptr) : (ptrs.foldl .put m).rev (syntaxNodePtrHash ptr) = some (m.nextId + i) := by
  induction ptrs generalizing m i with
  | nil => simp at hi
  | cons first ptrs ih =>
      rw [List.map_cons, List.nodup_cons] at hd
      rw [List.foldl_cons]
      cases i with
      | zero =>
          simp only [List.getElem?_cons_zero, Option.some.injEq] at hi
          subst hi
          rw [foldl_put_other hd.1]
          exact if_pos rfl
      | succ i =>
          rw [List.getElem?_cons_succ] at hi
          rw [ih hd.2 hi]
          exact congrArg some (by simp only [DeclAstIdMap.put]; omega)

theorem foldl_put_lt {h : UInt64} {i : Nat} (hi : (ptrs.foldl .put m).rev h = some i) :
    m.rev h = some i ∨ i < m.nextId + ptrs.length := by
  induction ptrs generalizing m with
  | nil => exact .inl hi
  | cons ptr ptrs ih =>
      rw [List.length_cons]
      rcases ih hi with hput | hlt
      · simp only [DeclAstIdMap.put] at hput
        split at hput
        · exact .inr (by rw [← Option.some.inj hput]; omega)
        · exact .inl hput
      · exact .inr (by simp only [DeclAstIdMap.put] at hlt; omega)

/-- A map rebuilt from a declaration is current for it, and for one whose nodes
stand at the same places. -/
theorem current_of_refresh {wrapper mapped : SyntaxNode} (hsame : ptrsOf mapped = ptrsOf wrapper)
    (hd : Distinct wrapper) : Current (declAstIdMapRefresh mapped) wrapper := by
  intro i ptr hi
  rw [declAstIdLookup, declAstIdMapRefresh, walk_eq]
  rw [← hsame] at hi
  rw [Distinct, ← hsame] at hd
  simpa [DeclAstIdMap.init, ptrsOf] using foldl_put_at (m := .init) hd hi

end Maps

end Ore.DeclAstIds
