import Mathlib.Data.List.Induction

namespace Ore.PathStacks

variable {α : Type} [DecidableEq α]

section Components

variable (sep : α)

def components (path : List α) : List (List α) := (path.splitOn sep).filter (· ≠ [])

/-- A path from the root, for a stack whose last component comes first. -/
def rooted (stack : List (List α)) : List α := if stack = [] then [sep] else stack.reverse.flatMap (sep :: ·)

def IsComponent (c : List α) : Prop := c ≠ [] ∧ sep ∉ c

theorem components_append (xs ys : List α) :
    components sep (xs ++ sep :: ys) = components sep xs ++ components sep ys := by
  rw [components, List.splitOn_append_cons_self, List.filter_append]
  rfl

theorem components_nil : components sep [] = [] := rfl

theorem components_sep (ys : List α) : components sep (sep :: ys) = components sep ys :=
  components_append sep [] ys

theorem components_dropWhile (path : List α) :
    components sep (path.dropWhile (· = sep)) = components sep path := by
  induction path with
  | nil => rfl
  | cons c cs ih =>
      by_cases h : c = sep
      · subst h
        rw [List.dropWhile_cons_of_pos (by simp), ih, components_sep]
      · rw [List.dropWhile_cons_of_neg (by simpa using h)]

variable {sep}

theorem components_self {c : List α} (h : IsComponent sep c) : components sep c = [c] := by
  rw [components, List.splitOn_eq_singleton h.2, List.filter_cons_of_pos (by simpa using h.1), List.filter_nil]

theorem isComponent_takeWhile {c : α} (h : c ≠ sep) (cs : List α) :
    IsComponent sep ((c :: cs).takeWhile (· ≠ sep)) := by
  refine ⟨by simp [List.takeWhile_cons_of_pos, h], fun hmem => ?_⟩
  simpa using List.all_eq_true.mp List.all_takeWhile sep hmem

/-- The first component of a path that does not start with a separator. -/
theorem components_takeWhile {c : α} (h : c ≠ sep) (cs : List α) :
    components sep (c :: cs) =
      (c :: cs).takeWhile (· ≠ sep) :: components sep ((c :: cs).dropWhile (· ≠ sep)) := by
  have hfirst := components_self (isComponent_takeWhile h cs)
  have hsplit := List.takeWhile_append_dropWhile (p := (· ≠ sep)) (l := c :: cs)
  cases hdrop : (c :: cs).dropWhile (· ≠ sep) with
  | nil =>
      rw [hdrop, List.append_nil] at hsplit
      rw [components_nil, ← hfirst, hsplit]
  | cons d ds =>
      have hd : d = sep := by
        have hhead := List.head?_dropWhile_not (· ≠ sep) (c :: cs)
        rw [hdrop] at hhead
        simpa using hhead
      rw [hdrop, hd] at hsplit
      calc components sep (c :: cs)
          = components sep ((c :: cs).takeWhile (· ≠ sep) ++ sep :: ds) := by rw [hsplit]
        _ = (c :: cs).takeWhile (· ≠ sep) :: components sep (d :: ds) := by
            rw [components_append, hfirst, hd, components_sep, List.singleton_append]

theorem isComponent_of_mem {path c : List α} (h : c ∈ components sep path) : IsComponent sep c := by
  obtain ⟨hmem, hne⟩ := List.mem_filter.mp h
  refine ⟨by simpa using hne, ?_⟩
  clear h hne
  induction path generalizing c with
  | nil => simp_all
  | cons x xs ih =>
      rw [List.splitOn_cons_eq_if_modifyHead] at hmem
      split at hmem
      · rcases List.mem_cons.mp hmem with rfl | hmem
        · simp
        · exact ih hmem
      · rename_i hx
        cases hsplit : xs.splitOn sep with
        | nil => exact absurd hsplit (List.splitOn_ne_nil _ _)
        | cons d ds =>
            rw [hsplit] at ih hmem
            rcases List.mem_cons.mp hmem with rfl | hmem
            · have hd := ih (List.mem_cons_self ..)
              simp only [List.mem_cons, not_or]
              exact ⟨fun h => hx (by simp [h]), hd⟩
            · exact ih (List.mem_cons_of_mem _ hmem)

theorem components_flatMap {cs : List (List α)} (h : ∀ c ∈ cs, IsComponent sep c) :
    components sep (cs.flatMap (sep :: ·)) = cs := by
  induction cs using List.reverseRecOn with
  | nil => rfl
  | append_singleton cs c ih =>
      have hc := h c (by simp)
      rw [List.flatMap_append, List.flatMap_singleton, components_append, ih fun d hd => h d (by simp [hd]),
        components_self hc]

theorem components_rooted {stack : List (List α)} (h : ∀ c ∈ stack, IsComponent sep c) :
    components sep (rooted sep stack) = stack.reverse := by
  unfold rooted
  split
  · subst stack
    exact components_sep sep []
  · exact components_flatMap fun c hc => h c (List.mem_reverse.mp hc)

end Components

section Resolve

variable (skips back : List α → Bool)

def place (stack : List (List α)) (c : List α) : List (List α) :=
  if skips c then stack else if back c then stack.tail else c :: stack

def resolve (stack : List (List α)) (cs : List (List α)) : List (List α) := cs.foldl (place skips back) stack

def Kept (c : List α) : Prop := skips c = false ∧ back c = false

variable {skips back}

omit [DecidableEq α] in
theorem resolve_append (stack cs ds : List (List α)) :
    resolve skips back stack (cs ++ ds) = resolve skips back (resolve skips back stack cs) ds :=
  List.foldl_append

omit [DecidableEq α] in
theorem resolve_kept {cs : List (List α)} (h : ∀ c ∈ cs, Kept skips back c) (stack : List (List α)) :
    resolve skips back stack cs = cs.reverse ++ stack := by
  induction cs generalizing stack with
  | nil => rfl
  | cons c cs ih =>
      obtain ⟨hc, hcs⟩ := List.forall_mem_cons.mp h
      have hplace : place skips back stack c = c :: stack := by simp [place, hc.1, hc.2]
      rw [resolve, List.foldl_cons, hplace]
      exact (ih hcs _).trans (by simp)

omit [DecidableEq α] in
theorem resolve_invariant {P : List α → Prop} {stack cs : List (List α)}
    (hstack : ∀ c ∈ stack, Kept skips back c ∧ P c) (hcs : ∀ c ∈ cs, P c) :
    ∀ c ∈ resolve skips back stack cs, Kept skips back c ∧ P c := by
  induction cs generalizing stack with
  | nil => exact hstack
  | cons c cs ih =>
      obtain ⟨hc, hcs⟩ := List.forall_mem_cons.mp hcs
      refine ih ?_ hcs
      intro d hd
      unfold place at hd
      split at hd
      · exact hstack d hd
      · split at hd
        · exact hstack d (List.mem_of_mem_tail hd)
        · rcases List.mem_cons.mp hd with rfl | hd
          · exact ⟨⟨by simpa using ‹¬ skips d = true›, by simpa using ‹¬ back d = true›⟩, hc⟩
          · exact hstack d hd

variable (skips back) (sep : α)

def canonical (path : List α) : List α := rooted sep (resolve skips back [] (components sep path))

variable {skips back sep}

theorem resolve_components (path : List α) :
    ∀ c ∈ resolve skips back [] (components sep path), Kept skips back c ∧ IsComponent sep c :=
  resolve_invariant (by simp) fun _ h => isComponent_of_mem h

theorem components_canonical (path : List α) :
    components sep (canonical skips back sep path) = (resolve skips back [] (components sep path)).reverse :=
  components_rooted fun c hc => (resolve_components path c hc).2

theorem kept_of_canonical {path c : List α} (h : c ∈ components sep (canonical skips back sep path)) :
    Kept skips back c := by
  rw [components_canonical] at h
  exact (resolve_components path c (List.mem_reverse.mp h)).1

theorem resolve_canonical (path : List α) :
    resolve skips back [] (components sep (canonical skips back sep path)) =
      resolve skips back [] (components sep path) := by
  rw [components_canonical, resolve_kept, List.reverse_reverse, List.append_nil]
  exact fun c hc => (resolve_components path c (List.mem_reverse.mp hc)).1

theorem canonical_idem (path : List α) :
    canonical skips back sep (canonical skips back sep path) = canonical skips back sep path := by
  rw [canonical, resolve_canonical]
  rfl

end Resolve

end Ore.PathStacks
