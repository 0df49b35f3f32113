import Mathlib.Tactic.Common

namespace Ore.RoseTree

/-- Ordered trees with any number of children at each node. -/
inductive Rose (α : Type*) where
  | node (label : α) (children : List (Rose α))

variable {α : Type*}

mutual

/-- The labels, each before those below it. -/
def preorder : Rose α → List α
  | .node a children => a :: preorderAll children

def preorderAll : List (Rose α) → List α
  | [] => []
  | t :: ts => preorder t ++ preorderAll ts

end

mutual

/-- The numbers of children, in the order of the labels. -/
def arities : Rose α → List Nat
  | .node _ children => children.length :: aritiesAll children

def aritiesAll : List (Rose α) → List Nat
  | [] => []
  | t :: ts => arities t ++ aritiesAll ts

end

mutual

/-- Labels and arities are read off from the left: they determine a tree, and
what follows it. -/
theorem read_tree {as bs : List α} {ms ns : List Nat} : (t u : Rose α) → preorder t ++ as = preorder u ++ bs →
    arities t ++ ms = arities u ++ ns → t = u ∧ as = bs ∧ ms = ns
  | .node a ts, .node b us => by
      intro hlabels harities
      rw [preorder, preorder, List.cons_append, List.cons_append, List.cons.injEq] at hlabels
      rw [arities, arities, List.cons_append, List.cons_append, List.cons.injEq] at harities
      obtain ⟨hts, has, hms⟩ := read_forest ts us harities.1 hlabels.2 harities.2
      exact ⟨by rw [hlabels.1, hts], has, hms⟩

theorem read_forest {as bs : List α} {ms ns : List Nat} : (ts us : List (Rose α)) → ts.length = us.length →
    preorderAll ts ++ as = preorderAll us ++ bs → aritiesAll ts ++ ms = aritiesAll us ++ ns → ts = us ∧ as = bs ∧
      ms = ns
  | [], [] => fun _ hlabels harities => ⟨rfl, hlabels, harities⟩
  | [], _ :: _ => fun hlength => by simp at hlength
  | _ :: _, [] => fun hlength => by simp at hlength
  | t :: ts, u :: us => by
      intro hlength hlabels harities
      rw [preorderAll, preorderAll, List.append_assoc, List.append_assoc] at hlabels
      rw [aritiesAll, aritiesAll, List.append_assoc, List.append_assoc] at harities
      obtain ⟨ht, hlabels', harities'⟩ := read_tree t u hlabels harities
      obtain ⟨hts, has, hms⟩ := read_forest ts us (Nat.succ.inj hlength) hlabels' harities'
      exact ⟨by rw [ht, hts], has, hms⟩

end

theorem eq_iff (t u : Rose α) : t = u ↔ preorder t = preorder u ∧ arities t = arities u := by
  constructor
  · rintro rfl
    exact ⟨rfl, rfl⟩
  · rintro ⟨hlabels, harities⟩
    exact (read_tree t u (congrArg (· ++ []) hlabels) (congrArg (· ++ []) harities)).1

end Ore.RoseTree
