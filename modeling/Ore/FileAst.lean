import Ore.GreenBuilderTrees

namespace Ore.FileAst

open SyntaxKinds GreenTree GreenCache GreenCacheTable GreenCacheSteps GreenDenotes GreenCacheCanonical GreenBuilder
    GreenBuilderTrees

variable {η : Type}

/-- The cache, the column of the files' roots, and what readers of the trees
hold. -/
structure Asts (η : Type) where
  world : World η
  greenRoots : List (Option Nat)
  readers : List ElemRef

def Asts.start : Asts η := ⟨World.start, [], []⟩

/-- A result of FILE_AST, with the objects as they are then. -/
structure Published (η : Type) where
  file : Nat
  fp : Option η
  root : Option Nat
  obj : ElemRef → Option (GreenObj η)

inductive Event where
  | createFile
  | fileAst (file : Nat) (script : List (BuilderOp × Nat))
  | sourceMissing (file : Nat)
  | evict (file : Nat)
  | retain (ref : ElemRef)
  | release (ref : ElemRef)

variable [DecidableEq η] (H : Hashing η)

def releaseRoot (w : World η) (old : Option Nat) : Option (World η) := releaseAll H w (old.map ElemRef.node).toList

def dbQueryFileAst (s : Asts η) (file : Nat) (script : List (BuilderOp × Nat)) : Option (Asts η × Published η) :=
  s.greenRoots[file]?.bind fun old =>
    (buildAll H s.world (greenBuilderNew ElemRef) script).bind fun (w, b) =>
      match b.finish with
      | some (.node root) => (releaseRoot H w old).bind fun w =>
          match w.heap.store.obj (.node root) with
          | some (.node _ _ contentHash _) =>
              some (⟨w, s.greenRoots.set file (some root), s.readers⟩,
                ⟨file, some contentHash, some root, w.heap.store.obj⟩)
          | _ => none
      | _ => none

def clearRoot (s : Asts η) (file : Nat) : Option (Asts η) :=
  s.greenRoots[file]?.bind fun old => (releaseRoot H s.world old).map fun w =>
    ⟨w, s.greenRoots.set file none, s.readers⟩

def eventStep (s : Asts η) : Event → Option (Asts η × Option (Published η))
  | .createFile => some ({ s with greenRoots := s.greenRoots ++ [none] }, none)
  | .fileAst file script => (dbQueryFileAst H s file script).map fun (s, p) => (s, some p)
  | .sourceMissing file => (clearRoot H s file).map fun s => (s, some ⟨file, none, none, s.world.heap.store.obj⟩)
  | .evict file => (clearRoot H s file).map fun s => (s, none)
  | .retain r => (step H s.world (.retain r)).map fun (w, _) => (⟨w, s.greenRoots, r :: s.readers⟩, none)
  | .release r => (step H s.world (.release r)).map fun (w, _) => (⟨w, s.greenRoots, s.readers.erase r⟩, none)

/-- Runs whose events are all of a kind, with the results of FILE_AST in their
order. -/
inductive Runs (ok : Asts η → Event → Prop) : Asts η → List (Published η) → Prop
  | start : Runs ok .start []
  | step {s s' : Asts η} {log : List (Published η)} {e : Event} {p : Option (Published η)} (h : Runs ok s log)
        (hok : ok s e)
      (hstep : eventStep H s e = some (s', p)) : Runs ok s' (log ++ p.toList)

/-- Parses ask for what is allowed, with `ok` for their requests; readers
retain what is there and release what they retained. -/
def Meets (ok : World η → Request → Prop) (s : Asts η) : Event → Prop
  | .fileAst _ script => ScriptMeets H ok s.world (greenBuilderNew ElemRef) script
  | .retain r => (s.world.heap.store.obj r).isSome ∧ ok s.world (.retain r)
  | .release r => r ∈ s.readers
  | _ => True

def childCount : Green → Nat
  | .node _ cs => cs.length
  | .token _ => 0

/-- The allocator hands out addresses that are free. -/
def Fresh (w : World η) : Request → Prop
  | .token addr _ _ => w.heap.store.obj (.token addr) = none
  | .node addr _ _ => w.heap.store.obj (.node addr) = none
  | _ => True

instance (w : World η) : DecidablePred (Fresh w)
  | .token addr _ _ => inferInstanceAs (Decidable (w.heap.store.obj (.token addr) = none))
  | .node addr _ _ => inferInstanceAs (Decidable (w.heap.store.obj (.node addr) = none))
  | .retain _ => .isTrue trivial
  | .release _ => .isTrue trivial

def decidableScriptMeets : (w : World η) → (b : Builder ElemRef) → (script : List (BuilderOp × Nat)) →
    Decidable (ScriptMeets H Fresh w b script)
  | _, _, [] => .isTrue trivial
  | w, b, (op, addr) :: script =>
      have : DecidablePred fun s : World η × Builder ElemRef => ScriptMeets H Fresh s.1 s.2 script :=
        fun s => decidableScriptMeets s.1 s.2 script
      inferInstanceAs (Decidable ((∀ req ∈ opRequest b addr op, Fresh w req) ∧
        ∀ s ∈ builderStep H w b addr op, ScriptMeets H Fresh s.1 s.2 script))

instance (s : Asts η) : DecidablePred (Meets H Fresh s)
  | .fileAst _ script => decidableScriptMeets H s.world (greenBuilderNew ElemRef) script
  | .retain r => inferInstanceAs (Decidable ((s.world.heap.store.obj r).isSome ∧ Fresh s.world (.retain r)))
  | .release r => inferInstanceAs (Decidable (r ∈ s.readers))
  | .createFile | .sourceMissing _ | .evict _ => .isTrue trivial

def runEvents : Asts η → List (Published η) → List Event → Option (Asts η × List (Published η))
  | s, log, [] => some (s, log)
  | s, log, e :: es =>
      if Meets H Fresh s e then (eventStep H s e).bind fun (s, p) => runEvents s (log ++ p.toList) es else none

variable {H} in
theorem Runs.of_runEvents {s s' : Asts η} {log log' : List (Published η)} {es : List Event}
    (h : Runs H (Meets H Fresh) s log)
    (hrun : runEvents H s log es = some (s', log')) : Runs H (Meets H Fresh) s' log' := by
  induction es generalizing s log with
  | nil =>
      obtain ⟨rfl, rfl⟩ := Prod.mk.inj (Option.some.inj hrun)
      exact h
  | cons e es ih =>
      rw [runEvents] at hrun
      by_cases hok : Meets H Fresh s e
      · rw [if_pos hok] at hrun
        obtain ⟨⟨s1, p⟩, hstep, hrest⟩ := Option.bind_eq_some_iff.mp hrun
        exact ih (.step h hok hstep) hrest
      · rw [if_neg hok] at hrun
        simp at hrun

/-- The root of the tree has few children, or each of its children has. -/
def Separable : Event → Prop
  | .fileAst _ script => ∀ kind ts, treeOf (script.map Prod.fst) = some (.node kind ts) →
      ts.length ≤ dedupMaxChildren ∨ ∀ t ∈ ts, childCount t ≤ dedupMaxChildren
  | _ => True

/-- Two results without a tree, or whose trees are structurally equal. -/
def SameTree (p q : Published η) : Prop :=
  p.root = none ∧ q.root = none ∨
    ∃ a b t, p.root = some a ∧ q.root = some b ∧ Denotes p.obj (.node a) t ∧ Denotes q.obj (.node b) t

end Ore.FileAst
