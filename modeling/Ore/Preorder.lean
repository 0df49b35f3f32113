import Ore.RedHandles

namespace Ore.Preorder

open SyntaxKinds GreenTree RedTree RedHandles

inductive WalkEvent where
  | enter (element : Red)
  | leave (element : Red)

structure SyntaxPreorder where
  root : Red
  current : Option Red
  started : Bool
  finished : Bool
  descending : Bool
  skipPending : Bool

def syntaxPreorderInit (root : Red) : SyntaxPreorder := ⟨root, none, false, false, false, false⟩

def syntaxPreorderSkipSubtree (it : SyntaxPreorder) : SyntaxPreorder :=
  if it.descending && !it.finished && it.current.isSome then { it with skipPending := true } else it

def preorderFirstChild (e : Red) : Option Red := wrapChild e 0

def preorderParent (it : SyntaxPreorder) (e : Red) : Option Red :=
  if !e.isToken && e.path == it.root.path then none else e.parent

def preorderIsRoot (it : SyntaxPreorder) (e : Red) : Bool :=
  !e.isToken && e.kind == it.root.kind && e.textRange == it.root.textRange

def syntaxPreorderNext (it : SyntaxPreorder) : SyntaxPreorder × Option WalkEvent :=
  if it.finished then (it, none)
  else if !it.started then
    ({ it with started := true, current := some it.root, descending := true }, some (.enter it.root))
  else match it.current with
    | none => ({ it with finished := true }, none)
    | some e =>
        if it.descending then
          if it.skipPending then ({ it with skipPending := false, descending := false }, some (.leave e))
          else match preorderFirstChild e with
            | some c => ({ it with current := some c }, some (.enter c))
            | none => ({ it with descending := false }, some (.leave e))
        else if preorderIsRoot it e then ({ it with current := none, finished := true }, none)
        else match nextSiblingOrToken e with
          | some s => ({ it with current := some s, descending := true }, some (.enter s))
          | none => match preorderParent it e with
            | none => ({ it with current := none, finished := true }, none)
            | some p => ({ it with current := some p }, some (.leave p))

def drain (skip : Red → Bool) : Nat → SyntaxPreorder → List WalkEvent
  | 0, _ => []
  | fuel + 1, it => match syntaxPreorderNext it with
    | (_, none) => []
    | (it', some (.enter e)) => .enter e :: drain skip fuel (if skip e then syntaxPreorderSkipSubtree it' else it')
    | (it', some (.leave e)) => .leave e :: drain skip fuel it'

mutual

/-- The events of a whole walk over a subtree, without what is below skipped elements. -/
def visitsIn (skip : Red → Bool) (e : Red) : Green → List WalkEvent
  | .token _ => [.enter e, .leave e]
  | .node _ cs => .enter e :: ((if skip e then [] else visitsAmong skip e 0 e.offset cs) ++ [.leave e])

def visitsAmong (skip : Red → Bool) (p : Red) (i o : Nat) : List Green → List WalkEvent
  | [] => []
  | g :: gs => visitsIn skip (.child p i g o) g ++ visitsAmong skip p (i + 1) (o + textLen g) gs

end

def visits (skip : Red → Bool) (e : Red) : List WalkEvent := visitsIn skip e e.green

/-- An element that a walk from a node enters. -/
inductive Entered (skip : Red → Bool) (start : Red) : Red → Prop
  | start : Entered skip start start
  | child {p c : Red} (i : Nat) (h : Entered skip start p) (hskip : skip p = false) (hchild : wrapChild p i = some c) :
      Entered skip start c

/-- The events between entering an element and leaving it. -/
def inside (skip : Red → Bool) (e : Red) : List WalkEvent :=
  if skip e then [] else (childHandles e).flatMap (visits skip)

/-- The events after an element has been left. -/
inductive Rest (skip : Red → Bool) (start : Red) : Red → List WalkEvent → Prop
  | start : Rest skip start start []
  | child {p c : Red} {rest : List WalkEvent} (i : Nat) (h : Rest skip start p rest) (hchild : wrapChild p i = some c) :
      Rest skip start c (((childHandles p).drop (i + 1)).flatMap (visits skip) ++ .leave p :: rest)

def looksLike (start e : Red) : Bool := !e.isToken && e.kind == start.kind && e.textRange == start.textRange

def upTo (start : Red) : List WalkEvent → List WalkEvent
  | [] => []
  | .enter e :: evs => .enter e :: upTo start evs
  | .leave e :: evs => .leave e :: if looksLike start e then [] else upTo start evs

variable {skip : Red → Bool} {start e p c : Red} {rest evs : List WalkEvent} {i : Nat}

theorem visitsAmong_eq (skip : Red → Bool) (p : Red) (i o : Nat) (gs : List Green) :
    visitsAmong skip p i o gs = (sideBySide p i o gs).flatMap (visits skip) := by
  induction gs generalizing i o with
  | nil => rfl
  | cons g gs ih =>
      rw [visitsAmong, ih, sideBySide, List.flatMap_cons]
      rfl

theorem visits_eq (skip : Red → Bool) (e : Red) : visits skip e = .enter e :: (inside skip e ++ [.leave e]) := by
  rw [visits, inside]
  cases hgreen : e.green with
  | token tok =>
      have htoken : e.isToken = true := by rw [Red.isToken, hgreen]
      rw [visitsIn, childHandles_of_token htoken]
      simp
  | node kind cs =>
      rw [visitsIn, visitsAmong_eq, childHandles, Red.children, hgreen]

theorem drop_childHandles (p : Red) (i : Nat) :
    (childHandles p).drop i = match wrapChild p i with
      | some c => c :: (childHandles p).drop (i + 1)
      | none => [] := by
  rw [← childHandles_getElem?]
  cases h : (childHandles p)[i]? with
  | none => exact List.drop_eq_nil_of_le (List.getElem?_eq_none_iff.mp h)
  | some c =>
      obtain ⟨hlt, rfl⟩ := List.getElem?_eq_some_iff.mp h
      exact List.drop_eq_getElem_cons hlt

theorem drop_visits (p : Red) (i : Nat) (evs : List WalkEvent) :
    ((childHandles p).drop i).flatMap (visits skip) ++ evs = match wrapChild p i with
      | some c => .enter c :: (inside skip c ++
          .leave c :: (((childHandles p).drop (i + 1)).flatMap (visits skip) ++ evs))
      | none => evs := by
  rw [drop_childHandles]
  cases wrapChild p i with
  | none => rfl
  | some c => simp [visits_eq]

theorem Rest.inSubtree (h : Rest skip start e rest) : Below start e := by
  induction h with
  | start => exact .self
  | child i _ hchild ih => exact .child i ih hchild

theorem path_ne (h : Below start p) (hchild : wrapChild p i = some c) : c.path ≠ start.path := by
  obtain ⟨g, -, rfl⟩ := wrapChild_eq hchild
  intro heq
  have hlen := h.path_suffix.length_le
  rw [← heq, Red.path, List.length_cons] at hlen
  omega

/-- Where the iterator stands after it has entered an element. -/
def atEntered (skip : Red → Bool) (start e : Red) : SyntaxPreorder := ⟨start, some e, true, false, true, skip e⟩

/-- Where the iterator stands after it has left an element. -/
def atLeft (start e : Red) : SyntaxPreorder := ⟨start, some e, true, false, false, false⟩

theorem drain_left_root (fuel : Nat) (h : looksLike start e = true) : drain skip fuel (atLeft start e) = [] := by
  cases fuel with
  | zero => rfl
  | succ fuel =>
      have hroot : preorderIsRoot (atLeft start e) e = true := h
      have hnext : (syntaxPreorderNext (atLeft start e)).2 = none := by
        simp only [syntaxPreorderNext, atLeft] at hroot ⊢
        simp only [hroot, Bool.false_eq_true, Bool.not_true, if_false, if_true]
      rw [drain]
      cases hres : syntaxPreorderNext (atLeft start e) with
      | mk it ev =>
          rw [hres] at hnext
          obtain rfl : ev = none := hnext
          rfl

theorem next_entered (skip : Red → Bool) (start e : Red) :
    syntaxPreorderNext (atEntered skip start e) = match if skip e then none else wrapChild e 0 with
      | some c => (⟨start, some c, true, false, true, false⟩, some (.enter c))
      | none => (atLeft start e, some (.leave e)) := by
  cases hskip : skip e with
  | true => simp [syntaxPreorderNext, atEntered, atLeft, hskip]
  | false =>
      simp only [syntaxPreorderNext, atEntered, atLeft, hskip, preorderFirstChild,
        Bool.false_eq_true, if_false, if_true,
        Bool.not_true]

theorem next_left (hp : Below start p) (hchild : wrapChild p i = some c) (hlook : looksLike start c = false) :
    syntaxPreorderNext (atLeft start c) = match wrapChild p (i + 1) with
      | some s => (⟨start, some s, true, false, true, false⟩, some (.enter s))
      | none => (atLeft start p, some (.leave p)) := by
  have hne := path_ne hp hchild
  have hroot : preorderIsRoot (atLeft start c) c = false := hlook
  have hparent : preorderParent (atLeft start c) c = some p := by
    have hpath : (c.path == (atLeft start c).root.path) = false := beq_eq_false_iff_ne.mpr hne
    rw [preorderParent, hpath, Bool.and_false]
    obtain ⟨g, -, rfl⟩ := wrapChild_eq hchild
    rfl
  have hnext : nextSiblingOrToken c = wrapChild p (i + 1) := by
    obtain ⟨g, -, rfl⟩ := wrapChild_eq hchild
    rfl
  simp only [syntaxPreorderNext, atLeft] at hroot hparent ⊢
  simp only [hroot, hnext, hparent, Bool.false_eq_true, if_false, Bool.not_true]

theorem entered_skip (skip : Red → Bool) (start c : Red) :
    (if skip c then syntaxPreorderSkipSubtree ⟨start, some c, true, false, true, false⟩
      else ⟨start, some c, true, false, true, false⟩) = atEntered skip start c := by
  unfold atEntered
  cases skip c <;> rfl

/-- The iterator gives the events to come, up to the first that leaves a look-alike. -/
theorem drain_upTo (hstart : start.isToken = false) (fuel : Nat) :
    (∀ e rest, Rest skip start e rest → (inside skip e ++ .leave e :: rest).length < fuel →
      drain skip fuel (atEntered skip start e) = upTo start (inside skip e ++ .leave e :: rest)) ∧
    (∀ e rest, Rest skip start e rest → looksLike start e = false → rest.length < fuel →
      drain skip fuel (atLeft start e) = upTo start rest) := by
  induction fuel with
  | zero => exact ⟨fun _ _ _ h => absurd h (Nat.not_lt_zero _), fun _ _ _ _ h => absurd h (Nat.not_lt_zero _)⟩
  | succ fuel ih =>
      obtain ⟨ihEntered, ihLeft⟩ := ih
      have hleave (e : Red) (rest : List WalkEvent) (hrest : Rest skip start e rest) (hlen : rest.length < fuel) :
          .leave e :: drain skip fuel (atLeft start e) = upTo start (.leave e :: rest) := by
        rw [upTo]
        cases hlook : looksLike start e with
        | true => rw [drain_left_root fuel hlook, if_pos rfl]
        | false => rw [ihLeft e rest hrest hlook hlen, if_neg Bool.false_ne_true]
      have henter (p c : Red) (i : Nat) (rest : List WalkEvent) (hrest : Rest skip start p rest)
          (hchild : wrapChild p i = some c)
          (hlen : (((childHandles p).drop i).flatMap (visits skip) ++ .leave p :: rest).length < fuel + 1) :
          .enter c :: drain skip fuel (atEntered skip start c) =
            upTo start (((childHandles p).drop i).flatMap (visits skip) ++ .leave p :: rest) := by
        rw [drop_visits, hchild] at hlen ⊢
        rw [upTo, ihEntered c _ (.child i hrest hchild) (Nat.lt_of_succ_lt_succ hlen)]
      constructor
      · intro e rest hrest hlen
        rw [drain, next_entered]
        cases hskip : skip e with
        | true =>
            rw [inside, hskip, if_pos rfl] at hlen ⊢
            exact hleave e rest hrest (Nat.lt_of_succ_lt_succ hlen)
        | false =>
            rw [inside, hskip, if_neg Bool.false_ne_true, ← List.drop_zero (l := childHandles e)] at hlen ⊢
            rw [if_neg Bool.false_ne_true]
            cases hchild : wrapChild e 0 with
            | some c =>
                simp only [entered_skip]
                exact henter e c 0 rest hrest hchild hlen
            | none =>
                rw [drop_visits, hchild] at hlen ⊢
                exact hleave e rest hrest (Nat.lt_of_succ_lt_succ hlen)
      · intro e rest hrest hlook hlen
        cases hrest with
        | start =>
            simp [looksLike, hstart] at hlook
        | @child p _ rest i hrest hchild =>
            rw [drain, next_left hrest.inSubtree hchild hlook]
            cases hnext : wrapChild p (i + 1) with
            | some s =>
                simp only [entered_skip]
                exact henter p s (i + 1) rest hrest hnext hlen
            | none =>
                rw [drop_visits, hnext] at hlen ⊢
                exact hleave p rest hrest (Nat.lt_of_succ_lt_succ hlen)

theorem drain_init (hstart : start.isToken = false) {fuel : Nat} (hfuel : (visits skip start).length < fuel) :
    drain skip fuel (syntaxPreorderInit start) = upTo start (visits skip start) := by
  obtain ⟨fuel, rfl⟩ := Nat.exists_eq_succ_of_ne_zero (Nat.ne_of_gt (Nat.zero_lt_of_lt hfuel))
  have hnext : syntaxPreorderNext (syntaxPreorderInit start) =
      (⟨start, some start, true, false, true, false⟩, some (.enter start)) := rfl
  rw [visits_eq] at hfuel ⊢
  rw [drain, hnext]
  simp only [entered_skip]
  rw [upTo, (drain_upTo hstart fuel).1 start [] .start (Nat.lt_of_succ_lt_succ hfuel)]

theorem upTo_eq_iff (start : Red) (last : WalkEvent) (evs : List WalkEvent) :
    upTo start (evs ++ [last]) = evs ++ [last] ↔ ∀ e, .leave e ∈ evs → looksLike start e = false := by
  induction evs with
  | nil =>
      cases last <;> simp [upTo]
  | cons ev evs ih =>
      cases ev with
      | enter e =>
          rw [List.cons_append, upTo, List.cons.injEq, ih]
          simp
      | leave e =>
          rw [List.cons_append, upTo, List.cons.injEq]
          cases hlook : looksLike start e with
          | true => simp [hlook]
          | false => simp [hlook, ih]

theorem Entered.of_child {d : Red} (hskip : skip e = false) (hchild : wrapChild e i = some c) (h : Entered skip c d) :
    Entered skip e d := by
  induction h with
  | start => exact .child i .start hskip hchild
  | child j _ hskip hchild ih => exact .child j ih hskip hchild

theorem Entered.cases_child {d : Red} (h : Entered skip e d) :
    d = e ∨ skip e = false ∧ ∃ i c, wrapChild e i = some c ∧ Entered skip c d := by
  induction h with
  | start => exact .inl rfl
  | @child p c i _ hskip hchild ih =>
      rcases ih with rfl | ⟨hskip', j, d, hd, hentered⟩
      · exact .inr ⟨hskip, i, c, hchild, .start⟩
      · exact .inr ⟨hskip', j, d, hd, .child i hentered hskip hchild⟩

theorem Entered.inSubtree {d : Red} (h : Entered skip e d) : Below e d := by
  induction h with
  | start => exact .self
  | child i _ _ hchild ih => exact .child i ih hchild

theorem leave_mem_inside {d : Red} :
    .leave d ∈ inside skip e ↔ skip e = false ∧ ∃ i c, wrapChild e i = some c ∧ .leave d ∈ visits skip c := by
  rw [inside]
  cases skip e with
  | true => simp
  | false =>
      simp only [Bool.false_eq_true, if_false, List.mem_flatMap, mem_childHandles, true_and]
      constructor
      · rintro ⟨c, ⟨i, hchild⟩, hmem⟩
        exact ⟨i, c, hchild, hmem⟩
      · rintro ⟨i, c, hchild, hmem⟩
        exact ⟨c, ⟨i, hchild⟩, hmem⟩

theorem leave_mem_visits {d : Red} : .leave d ∈ visits skip e ↔ Entered skip e d := by
  induction e using Red.below_induction with
  | h e ih =>
      rw [visits_eq]
      simp only [List.mem_cons, List.mem_append, reduceCtorEq, false_or,
        WalkEvent.leave.injEq, List.not_mem_nil, or_false,
        leave_mem_inside]
      constructor
      · rintro (⟨hskip, i, c, hchild, hmem⟩ | rfl)
        · exact ((ih i c hchild).mp hmem).of_child hskip hchild
        · exact .start
      · intro h
        rcases h.cases_child with rfl | ⟨hskip, i, c, hchild, hentered⟩
        · exact .inr rfl
        · exact .inl ⟨hskip, i, c, hchild, (ih i c hchild).mpr hentered⟩

theorem leave_mem_inside_iff {d : Red} : .leave d ∈ inside skip e ↔ Entered skip e d ∧ d ≠ e := by
  rw [leave_mem_inside]
  constructor
  · rintro ⟨hskip, i, c, hchild, hmem⟩
    have hentered := leave_mem_visits.mp hmem
    refine ⟨hentered.of_child hskip hchild, ?_⟩
    rintro rfl
    obtain ⟨g, -, rfl⟩ := wrapChild_eq hchild
    have hlen := hentered.inSubtree.path_suffix.length_le
    rw [Red.path, List.length_cons] at hlen
    omega
  · rintro ⟨hentered, hne⟩
    rcases hentered.cases_child with rfl | ⟨hskip, i, c, hchild, hentered⟩
    · exact absurd rfl hne
    · exact ⟨hskip, i, c, hchild, leave_mem_visits.mpr hentered⟩

/-- When the iterator gives the events of a whole walk and ends, whatever the caller skips. -/
theorem preorder_events_iff (skip : Red → Bool) (start : Red) (hstart : start.isToken = false) (fuel : Nat)
    (hfuel : (visits skip start).length < fuel) :
    drain skip fuel (syntaxPreorderInit start) = visits skip start ↔
      ∀ e, Entered skip start e → e ≠ start → e.isToken = false →
        ¬ (e.kind = start.kind ∧ e.textRange = start.textRange) := by
  have hlook (e : Red) : looksLike start e = false ↔
      (e.isToken = false → ¬ (e.kind = start.kind ∧ e.textRange = start.textRange)) := by
    cases htoken : e.isToken with
    | true => simp [looksLike, htoken]
    | false => simp [looksLike, htoken]
  rw [drain_init hstart hfuel, visits_eq, ← List.cons_append, upTo_eq_iff]
  simp only [List.mem_cons, reduceCtorEq, false_or, leave_mem_inside_iff, hlook, and_imp]

section Example

def word : Green := .token ⟨.ident, [97]⟩

def statements : Green :=
  .node .stmtList [.node .stmtList [word, word], word, .node .callExpr [.node .refExpr [word], .node .argList [word]]]

/-- The list behind a token, below the root of its file. -/
def second : Red := .child (.root (.node .sourceFile [word, statements, word])) 1 statements 1

def skipArgs (e : Red) : Bool := e.kind == .argList

theorem preorder_events_second :
    drain skipArgs 19 (syntaxPreorderInit second) = visits skipArgs second ∧ (visits skipArgs second).length = 18 := by
  have hall : (inside skipArgs second).all (fun | .leave e => !looksLike second e | .enter _ => true) = true := by
    decide
  refine ⟨(preorder_events_iff skipArgs second rfl 19 (by decide)).mpr fun e he hne htoken hlook => ?_, by decide⟩
  have hleft := List.all_eq_true.mp hall (.leave e) (leave_mem_inside_iff.mpr ⟨he, hne⟩)
  simp [looksLike, htoken, hlook] at hleft

def nested : Red := .root (.node .stmtList [.node .stmtList [word]])

/-- The walk ends when it leaves the inner list. -/
theorem nested_cut : ∃ inner name, drain (fun _ => false) 100 (syntaxPreorderInit nested) =
      [.enter nested, .enter inner, .enter name, .leave name, .leave inner] ∧
    drain (fun _ => false) 100 (syntaxPreorderInit nested) ≠ visits (fun _ => false) nested :=
  ⟨.child nested 0 (.node .stmtList [word]) 0, .child (.child nested 0 (.node .stmtList [word]) 0) 0 word 0, rfl,
    fun h => absurd (congrArg List.length h) (by decide)⟩

end Example

end Ore.Preorder
