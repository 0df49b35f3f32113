import Ore.Loop
import Ore.RedForestLinks
import Ore.Rings
import Mathlib.Algebra.Ring.Int.Defs

namespace Ore.SiblingRing

open RedForest (SllAdd)
open RedForestLinks (sllWalk_stops sllAdd_sorted sllLink_found sllLink_total insertAfter_append)
open Rings

structure SllNode where
  prev : Nat
  next : Nat
  key : Nat
  deriving DecidableEq, Repr

abbrev Heap := Nat → SllNode

namespace Heap

def setPrev (h : Heap) (a v : Nat) : Heap := Function.update h a { h a with prev := v }
def setNext (h : Heap) (a v : Nat) : Heap := Function.update h a { h a with next := v }
def setKey (h : Heap) (a v : Nat) : Heap := Function.update h a { h a with key := v }

def next (h : Heap) (a : Nat) : Nat := (h a).next
def prev (h : Heap) (a : Nat) : Nat := (h a).prev
def key (h : Heap) (a : Nat) : Nat := (h a).key

end Heap

/-- One turn of the walk backward from the largest element. -/
def linkTurn (h : Heap) (key curr : Nat) : Nat ⊕ SllAdd :=
  if h.key curr < key then .inr (.smallerThanNotHead curr)
  else if h.key curr = key then .inr (.alreadyInSll curr)
  else .inl (h.prev curr)

/-- Where an element with a given key goes. `fuel` bounds the turns of the walk; a walk
that does not end is `none`. -/
def sllLink (fuel : Nat) (h : Heap) (head : Option Nat) (key : Nat) : Option SllAdd :=
  match head with
  | none => some .emptyHead
  | some oldHead =>
      if key < h.key oldHead then some .smallerThanHead else Loop.run (linkTurn h key) fuel (h.prev oldHead)

/-- The element is linked to itself first. Without a head there is none to put it before. -/
def sllAdd (h : Heap) (head : Option Nat) (res : SllAdd) (elem : Nat) : Option (Heap × Option Nat) :=
  let h := (h.setPrev elem elem).setNext elem elem
  match res with
  | .emptyHead => some (h, some elem)
  | .smallerThanHead => head.map fun oldHead =>
      let prevOfHead := h.prev oldHead
      ((((h.setPrev elem prevOfHead).setNext elem oldHead).setNext prevOfHead elem).setPrev oldHead elem, some elem)
  | .smallerThanNotHead curr =>
      let next := h.next curr
      some ((((h.setPrev elem curr).setNext elem next).setNext curr elem).setPrev next elem, head)
  | .alreadyInSll _ => some (h, head)

/-- A failed assertion is `none`. -/
def sllUnlink (h : Heap) (head : Option Nat) (elem : Nat) : Option (Heap × Option Nat) :=
  if head = none then none
  else
    let prev := h.prev elem
    let next := h.next elem
    let h := (h.setPrev elem elem).setNext elem elem
    if prev = elem then if next = elem ∧ head = some elem then some (h, none) else none
    else if h.next prev = elem ∧ h.prev next = elem then
      some ((h.setNext prev next).setPrev next prev, if head = some elem then some next else head)
    else none

/-- One turn of the walk that shifts keys. A key below zero fails the assertion. -/
def adjustTurn (start : Nat) (delta : Int) (elem : Nat) (s : Heap × Nat) : (Heap × Nat) ⊕ Option Heap :=
  let (h, curr) := s
  let k : Int := h.key curr + delta
  if start ≤ h.key curr ∧ k < 0 then .inr none
  else
    let h := if start ≤ h.key curr then h.setKey curr (k % 2 ^ 32).toNat else h
    if h.next curr = elem then .inr (some h) else .inl (h, h.next curr)

def sllAdjust (fuel : Nat) (h : Heap) (elem start : Nat) (delta : Int) : Option Heap :=
  (Loop.run (adjustTurn start delta elem) fuel (h, elem)).join

/-- The ring of one parent, whose green node has `count` children. `members` is not in
the source: it lists the elements that were added and not unlinked since. -/
structure Ring where
  heap : Heap
  head : Option Nat
  count : Nat
  members : List Nat

/-- What the red tree does to the ring of a node: the lookup of a child with the element
of the handle that a miss allocates, the release of a last handle, and the two steps of a
splice. -/
inductive Op
  | child (elem index : Nat)
  | release (elem : Nat)
  | detach (elem : Nat)
  | attach (elem index : Nat)
  deriving DecidableEq, Repr

namespace Ring

/-- A walk around the ring takes no more turns. -/
def fuel (s : Ring) : Nat := s.members.length + 1

def unlink (s : Ring) (elem : Nat) : Option Ring :=
  (sllUnlink s.heap s.head elem).map fun (heap, head) => ⟨heap, head, s.count, s.members.erase elem⟩

def link (s : Ring) (key : Nat) : Option SllAdd := sllLink s.fuel s.heap s.head key

/-- A handle's element starts with its index as the key. -/
def add (s : Ring) (res : SllAdd) (elem : Nat) : Option Ring :=
  (sllAdd s.heap s.head res elem).map fun (heap, head) => ⟨heap, head, s.count, elem :: s.members⟩

def child (s : Ring) (elem index : Nat) : Option Ring :=
  (s.link index).bind fun
    | .alreadyInSll _ => some s
    | res => { s with heap := s.heap.setKey elem index }.add res elem

/-- Later siblings move down before the element leaves. The key of a handle's element is
the handle's index. -/
def detachAdjust (s : Ring) (elem : Nat) : Option Ring :=
  (sllAdjust s.fuel s.heap elem ((s.heap.key elem + 1) % 2 ^ 32) (-1)).map fun heap => { s with heap := heap }

def detach (s : Ring) (elem : Nat) : Option Ring :=
  ((s.detachAdjust elem).bind (·.unlink elem)).map fun s => { s with count := s.count - 1 }

def moveUp (s : Ring) (index : Nat) : Option Ring :=
  match s.head with
  | none => some s
  | some head => (sllAdjust s.fuel s.heap head index 1).map fun heap => { s with heap := heap }

def attachAdjust (s : Ring) (elem index : Nat) : Option Ring :=
  { s with heap := s.heap.setKey elem index }.moveUp index

/-- An index past the last child, or one that a sibling has, fails an assertion. -/
def attach (s : Ring) (elem index : Nat) : Option Ring :=
  if index ≤ s.count then
    (s.attachAdjust elem index).bind fun s => (s.link (s.heap.key elem)).bind fun
      | .alreadyInSll _ => none
      | res => (s.add res elem).map fun s => { s with count := s.count + 1 }
  else none

def step (s : Ring) : Op → Option Ring
  | .child elem index => s.child elem index
  | .release elem => s.unlink elem
  | .detach elem => s.detach elem
  | .attach elem index => s.attach elem index

def initial (heap : Heap) (count : Nat) : Ring := ⟨heap, none, count, []⟩

/-- What the red tree keeps to: it unlinks members and adds others, looks children up
that the green node has, and a green node counts its children in 32 bits. -/
def Allowed (s : Ring) : Op → Prop
  | .child elem index => elem ∉ s.members ∧ index < s.count
  | .release elem | .detach elem => elem ∈ s.members
  | .attach elem index => elem ∉ s.members ∧ index ≤ s.count ∧ s.count + 1 < 2 ^ 32

end Ring

/-- The rings that operations lead to, from an empty one in any memory. -/
inductive Reached : Ring → Prop
  | initial (heap : Heap) {count : Nat} (hcount : count < 2 ^ 32) : Reached (.initial heap count)
  | step {s s' : Ring} (op : Op) (h : Reached s) (hallowed : s.Allowed op) (hstep : s.step op = some s') : Reached s'

variable {h h' : Heap} {head : Option Nat} {es t : List Nat} {a b elem curr key start v n : Nat} {delta : Int}
  {f : RedForest.Forest} {r : SllAdd}

section Fields

@[simp] theorem setPrev_prev (h : Heap) (a v : Nat) : (h.setPrev a v).prev = Function.update h.prev a v := by
  funext b
  by_cases hb : b = a
  · simp [Heap.prev, Heap.setPrev, hb]
  · simp [Heap.prev, Heap.setPrev, hb]

@[simp] theorem setPrev_next (h : Heap) (a v : Nat) : (h.setPrev a v).next = h.next := by
  funext b
  by_cases hb : b = a
  · simp [Heap.next, Heap.setPrev, hb]
  · simp [Heap.next, Heap.setPrev, hb]

@[simp] theorem setPrev_key (h : Heap) (a v : Nat) : (h.setPrev a v).key = h.key := by
  funext b
  by_cases hb : b = a
  · simp [Heap.key, Heap.setPrev, hb]
  · simp [Heap.key, Heap.setPrev, hb]

@[simp] theorem setNext_prev (h : Heap) (a v : Nat) : (h.setNext a v).prev = h.prev := by
  funext b
  by_cases hb : b = a
  · simp [Heap.prev, Heap.setNext, hb]
  · simp [Heap.prev, Heap.setNext, hb]

@[simp] theorem setNext_next (h : Heap) (a v : Nat) : (h.setNext a v).next = Function.update h.next a v := by
  funext b
  by_cases hb : b = a
  · simp [Heap.next, Heap.setNext, hb]
  · simp [Heap.next, Heap.setNext, hb]

@[simp] theorem setNext_key (h : Heap) (a v : Nat) : (h.setNext a v).key = h.key := by
  funext b
  by_cases hb : b = a
  · simp [Heap.key, Heap.setNext, hb]
  · simp [Heap.key, Heap.setNext, hb]

@[simp] theorem setKey_prev (h : Heap) (a v : Nat) : (h.setKey a v).prev = h.prev := by
  funext b
  by_cases hb : b = a
  · simp [Heap.prev, Heap.setKey, hb]
  · simp [Heap.prev, Heap.setKey, hb]

@[simp] theorem setKey_next (h : Heap) (a v : Nat) : (h.setKey a v).next = h.next := by
  funext b
  by_cases hb : b = a
  · simp [Heap.next, Heap.setKey, hb]
  · simp [Heap.next, Heap.setKey, hb]

@[simp] theorem setKey_key (h : Heap) (a v : Nat) : (h.setKey a v).key = Function.update h.key a v := by
  funext b
  by_cases hb : b = a
  · simp [Heap.key, Heap.setKey, hb]
  · simp [Heap.key, Heap.setKey, hb]

end Fields

section Calls

structure Stands (h : Heap) (head : Option Nat) (es : List Nat) : Prop where
  ring : IsRing h.next h.prev es
  head : head = es.head?

theorem linkTurn_walk {before after : List Nat} (hring : IsRing h.next h.prev (before ++ curr :: after))
    (hkeys : ∀ a ∈ before ++ [curr], f.keyOf a = h.key a)
    (hwalk : RedForest.sllWalk f key (curr :: before.reverse) = some r) (hn : before.length < n) :
    Loop.run (linkTurn h key) n curr = some r := by
  induction before using List.reverseRecOn generalizing curr after n with
  | nil =>
      obtain ⟨n, rfl⟩ := Nat.exists_eq_add_of_lt hn
      rw [RedForest.sllWalk, hkeys curr (by simp)] at hwalk
      rw [Loop.run, linkTurn]
      split_ifs at hwalk ⊢ with hlt heq
      · exact hwalk
      · exact hwalk
      · cases hwalk
  | append_singleton before c ih =>
      rw [List.length_append, List.length_singleton] at hn
      obtain ⟨n, rfl⟩ : ∃ m, n = m + 1 := ⟨n - 1, by omega⟩
      rw [RedForest.sllWalk, hkeys curr (by simp), List.reverse_append] at hwalk
      have hprev : h.prev curr = c := by
        rw [List.append_assoc, List.singleton_append] at hring
        exact hring.next_of_mid.2
      rw [Loop.run, linkTurn]
      split_ifs at hwalk ⊢ with hlt heq
      · exact hwalk
      · exact hwalk
      · rw [hprev]
        have hturn : IsRing h.next h.prev (before ++ c :: curr :: after) := by
          rwa [List.append_assoc, List.singleton_append] at hring
        apply ih hturn
        · intro a ha
          exact hkeys a (List.mem_append_left _ ha)
        · exact hwalk
        · omega

theorem sllLink_eq (hs : Stands h head es) (hkeys : ∀ a ∈ es, f.keyOf a = h.key a)
    (hlink : RedForest.sllLink f es key = some r) (hn : es.length ≤ n) : sllLink n h head key = some r := by
  rw [hs.head]
  cases es with
  | nil => exact hlink
  | cons b t =>
      rw [RedForest.sllLink, hkeys b List.mem_cons_self] at hlink
      rw [List.head?_cons, sllLink]
      split_ifs at hlink ⊢ with hless
      · exact hlink
      · obtain ⟨before, last, hsplit⟩ := (List.eq_nil_or_concat (b :: t)).resolve_left (List.cons_ne_nil b t)
        have hring := hs.ring
        have hlast : h.prev b = last := by
          apply (hring.closed last _ b rfl).2
          rw [hsplit]
          simp
        rw [hlast]
        rw [List.concat_eq_append] at hsplit
        rw [hsplit] at hring hkeys hlink hn
        refine linkTurn_walk hring hkeys ?_ ?_
        · rwa [List.reverse_append] at hlink
        · rw [List.length_append, List.length_singleton] at hn
          omega

theorem sllLink_splits (hlink : RedForest.sllLink f es key = some (.smallerThanNotHead curr)) :
    ∃ before after, es = before ++ curr :: after := by
  cases es with
  | nil => cases hlink
  | cons b t =>
      rw [RedForest.sllLink] at hlink
      split_ifs at hlink with hless
      · cases hlink
      · obtain ⟨after, before, hreverse, -⟩ := sllWalk_stops hlink
        exact ⟨before.reverse, after.reverse, by simpa using congrArg List.reverse hreverse⟩

theorem sllAdd_spec (hs : Stands h head es) (helem : elem ∉ es) (hlink : RedForest.sllLink f es key = some r)
    (hnew : ∀ d, r ≠ .alreadyInSll d) :
    ∃ h' head', sllAdd h head r elem = some (h', head') ∧ Stands h' head' (RedForest.sllAdd es elem r) ∧
      h'.key = h.key := by
  cases r with
  | alreadyInSll d => exact absurd rfl (hnew d)
  | emptyHead =>
      refine ⟨_, _, rfl, ⟨isRing_single.mpr ?_, rfl⟩, by simp⟩
      simp
  | smallerThanHead =>
      cases es with
      | nil => cases hlink
      | cons b t =>
          obtain ⟨p, hp⟩ : ∃ p, (b :: t).getLast? = some p := ⟨_, List.getLast?_cons⟩
          have hprev : h.prev b = p := (hs.ring.closed p hp b rfl).2
          have hbe : b ≠ elem := fun heq => helem (heq ▸ List.mem_cons_self)
          rw [hs.head, List.head?_cons]
          refine ⟨_, _, rfl, ⟨?_, rfl⟩, by simp⟩
          have hinsert := hs.ring.insert helem rfl hp
          simpa [Function.update_of_ne hbe, hprev, RedForest.sllAdd] using hinsert
  | smallerThanNotHead curr =>
      obtain ⟨before, after, rfl⟩ := sllLink_splits hlink
      have hcurr : curr ∉ before := by
        have hnodup := hs.ring.nodup
        rw [List.nodup_append] at hnodup
        exact fun hmem => hnodup.2.2 curr hmem curr List.mem_cons_self rfl
      have hce : curr ≠ elem := fun heq => helem (by simp [heq])
      have hturned : IsRing h.next h.prev (after ++ (before ++ [curr])) := by
        apply IsRing.rotate
        simpa using hs.ring
      have hperm : (after ++ (before ++ [curr])).Perm (before ++ curr :: after) := by
        have hcomm : (after ++ (before ++ [curr])).Perm ((before ++ [curr]) ++ after) := List.perm_append_comm
        rwa [List.append_assoc, List.singleton_append] at hcomm
      obtain ⟨b, hb⟩ : ∃ b, (after ++ (before ++ [curr])).head? = some b := by
        cases after with
        | nil => cases before <;> exact ⟨_, rfl⟩
        | cons b after => exact ⟨b, rfl⟩
      have hlast : (after ++ (before ++ [curr])).getLast? = some curr := by
        rw [← List.append_assoc, List.getLast?_concat]
      have hnext : h.next curr = b := (hturned.closed curr hlast b hb).1
      have hinsert := hturned.insert (e := elem) (fun hmem => helem (hperm.mem_iff.mp hmem)) hb hlast
      refine ⟨_, _, rfl, ⟨?_, ?_⟩, by simp⟩
      · rw [RedForest.sllAdd, insertAfter_append hcurr]
        have hrotated := (List.cons_append ▸ hinsert : IsRing _ _ ((elem :: after) ++ (before ++ [curr]))).rotate
        simpa [Function.update_of_ne hce, hnext] using hrotated
      · rw [hs.head, RedForest.sllAdd, insertAfter_append hcurr]
        cases before <;> rfl

theorem sllUnlink_spec (hs : Stands h head es) (helem : elem ∈ es) :
    ∃ h' head', sllUnlink h head elem = some (h', head') ∧ Stands h' head' (es.erase elem) ∧ h'.key = h.key := by
  obtain ⟨before, after, rfl, hbefore⟩ := List.eq_append_cons_of_mem helem
  have hturned : IsRing h.next h.prev (elem :: (after ++ before)) := hs.ring.rotate
  have herase : (before ++ elem :: after).erase elem = before ++ after := by
    rw [List.erase_append_right _ hbefore, List.erase_cons_head]
  have hhead : head ≠ none := by
    rw [hs.head]
    cases before <;> nofun
  rw [herase, sllUnlink, if_neg hhead]
  rcases List.eq_nil_or_concat (after ++ before) with hnil | ⟨_, p, hlist⟩
  · obtain ⟨rfl, rfl⟩ := List.append_eq_nil_iff.mp hnil
    obtain ⟨hnext, hprev⟩ := isRing_single.mp hturned
    have hfirst : head = some elem := hs.head
    simp only [hprev, hnext, hfirst, if_pos, and_self]
    exact ⟨_, _, rfl, ⟨.nil _ _, rfl⟩, by simp⟩
  · have hlast : (after ++ before).getLast? = some p := by
      rw [hlist, List.concat_eq_append, List.getLast?_concat]
    obtain ⟨b, hb⟩ : ∃ b, (after ++ before).head? = some b := by
      apply Option.ne_none_iff_exists'.mp
      rw [Ne, List.head?_eq_none_iff, hlist, List.concat_eq_append]
      exact List.append_ne_nil_of_right_ne_nil _ (List.cons_ne_nil p [])
    obtain ⟨⟨hnext, hprev⟩, hnext', hprev'⟩ := hturned.neighbours hb hlast
    have hout := (List.nodup_cons.mp hturned.nodup).1
    have hpe : p ≠ elem := fun heq => hout (heq ▸ List.mem_of_getLast? hlast)
    have hbe : b ≠ elem := fun heq => hout (heq ▸ List.mem_of_head? hb)
    have hjoined : ((h.setPrev elem elem).setNext elem elem).next p = elem ∧
        ((h.setPrev elem elem).setNext elem elem).prev b = elem := by
      simp [Function.update_of_ne hpe, Function.update_of_ne hbe, hnext', hprev]
    simp only [hprev', hnext, if_neg hpe, if_pos hjoined]
    refine ⟨_, _, rfl, ⟨?_, ?_⟩, by simp⟩
    · apply IsRing.rotate
      refine (hturned.remove hb hlast).congr fun a ha => ?_
      have hae : a ≠ elem := fun heq => hout (heq ▸ ha)
      simp [Function.update_apply, hae]
    · rw [hs.head]
      cases before with
      | nil =>
          rw [List.append_nil] at hb
          rw [List.nil_append, List.head?_cons, if_pos rfl, List.nil_append, hb]
      | cons c before =>
          have hce : some c ≠ some elem := fun heq => hbefore (Option.some.inj heq ▸ List.mem_cons_self)
          rw [List.cons_append, List.head?_cons, if_neg hce, List.cons_append, List.head?_cons]

def shiftKeys (start : Nat) (delta : Int) (l : List Nat) (h : Heap) : Heap := fun a =>
  if a ∈ l ∧ start ≤ h.key a then { h a with key := ((h.key a + delta) % 2 ^ 32).toNat } else h a

@[simp] theorem shiftKeys_next (start : Nat) (delta : Int) (l : List Nat) (h : Heap) :
    (shiftKeys start delta l h).next = h.next := by
  funext a
  rw [Heap.next, shiftKeys]
  split_ifs <;> rfl

@[simp] theorem shiftKeys_prev (start : Nat) (delta : Int) (l : List Nat) (h : Heap) :
    (shiftKeys start delta l h).prev = h.prev := by
  funext a
  rw [Heap.prev, shiftKeys]
  split_ifs <;> rfl

theorem shiftKeys_key (start : Nat) (delta : Int) (l : List Nat) (h : Heap) (a : Nat) :
    (shiftKeys start delta l h).key a =
      if a ∈ l ∧ start ≤ h.key a then ((h.key a + delta) % 2 ^ 32).toNat else h.key a := by
  rw [Heap.key, shiftKeys]
  split_ifs <;> rfl

theorem shiftKeys_snoc {l : List Nat} (hcurr : curr ∉ l) : shiftKeys start delta (l ++ [curr]) h =
    if start ≤ h.key curr then (shiftKeys start delta l h).setKey curr ((h.key curr + delta) % 2 ^ 32).toNat
    else shiftKeys start delta l h := by
  funext a
  by_cases ha : a = curr
  · subst ha
    by_cases hle : start ≤ h.key a
    · simp [shiftKeys, Heap.setKey, hle, hcurr]
    · simp [shiftKeys, hle]
  · by_cases hle : start ≤ h.key curr
    · simp [shiftKeys, Heap.setKey, hle, ha]
    · simp [shiftKeys, hle, ha]

theorem adjustTurn_shift {l : List Nat} (hcurr : curr ∉ l)
    (hkey : start ≤ h.key curr → 0 ≤ (h.key curr : Int) + delta) :
    adjustTurn start delta elem (shiftKeys start delta l h, curr) =
      if h.next curr = elem then .inr (some (shiftKeys start delta (l ++ [curr]) h))
      else .inl (shiftKeys start delta (l ++ [curr]) h, h.next curr) := by
  have hsame : (shiftKeys start delta l h).key curr = h.key curr := by
    rw [shiftKeys_key, if_neg fun hmem => hcurr hmem.1]
  rw [adjustTurn, hsame]
  by_cases hle : start ≤ h.key curr
  · have hpositive := Int.not_lt.mpr (hkey hle)
    simp [shiftKeys_snoc hcurr, hle, hpositive]
  · simp [shiftKeys_snoc hcurr, hle]

/-- The elements before `curr` are shifted already. -/
theorem adjust_walk {l rest : List Nat} (hring : IsRing h.next h.prev (l ++ curr :: rest))
    (hfirst : (l ++ curr :: rest).head? = some elem)
    (hkeys : ∀ a ∈ curr :: rest, start ≤ h.key a → 0 ≤ (h.key a : Int) + delta) (hn : rest.length < n) :
    Loop.run (adjustTurn start delta elem) n (shiftKeys start delta l h, curr) =
      some (some (shiftKeys start delta (l ++ curr :: rest) h)) := by
  obtain ⟨n, rfl⟩ := Nat.exists_eq_add_of_lt hn
  induction rest generalizing curr l with
  | nil =>
      have hnodup := List.nodup_append.mp hring.nodup
      have hcurr : curr ∉ l := fun hmem => hnodup.2.2 curr hmem curr List.mem_cons_self rfl
      have hlast : h.next curr = elem := (hring.closed curr (by simp) elem hfirst).1
      rw [Loop.run, adjustTurn_shift hcurr (hkeys curr List.mem_cons_self), if_pos hlast]
  | cons b rest ih =>
      have hnodup := List.nodup_append.mp hring.nodup
      have hcurr : curr ∉ l := fun hmem => hnodup.2.2 curr hmem curr List.mem_cons_self rfl
      have hnext : h.next curr = b := hring.next_of_mid.1
      have hb : b ≠ elem := by
        rintro rfl
        cases l with
        | nil =>
            obtain rfl := Option.some.inj hfirst
            exact (List.nodup_cons.mp hnodup.2.1).1 List.mem_cons_self
        | cons c l =>
            obtain rfl := Option.some.inj hfirst
            exact hnodup.2.2 c List.mem_cons_self c (by simp) rfl
      have hsplit : l ++ curr :: b :: rest = (l ++ [curr]) ++ b :: rest := List.append_cons l curr (b :: rest)
      rw [Loop.run, adjustTurn_shift hcurr (hkeys curr List.mem_cons_self), hnext, if_neg hb]
      rw [hsplit] at hring hfirst ⊢
      have hwalk := ih hring hfirst (fun a ha => hkeys a (List.mem_cons_of_mem _ ha)) (by omega)
      have hfuel : (b :: rest).length + n = rest.length + n + 1 := by
        rw [List.length_cons]
        omega
      rwa [hfuel]

theorem sllAdjust_spec (hring : IsRing h.next h.prev (elem :: t))
    (hkeys : ∀ a ∈ elem :: t, start ≤ h.key a → 0 ≤ (h.key a : Int) + delta) (hn : t.length < n) :
    sllAdjust n h elem start delta = some (shiftKeys start delta (elem :: t) h) := by
  have hwalk := adjust_walk (l := []) hring rfl hkeys hn
  have hnone : shiftKeys start delta [] h = h := by
    funext a
    simp [shiftKeys]
  rw [hnone] at hwalk
  rw [sllAdjust, hwalk]
  rfl

end Calls

section Runs

/-- Memory as the search over a list of elements reads it. -/
def view (h : Heap) : RedForest.Forest := ⟨fun c => some ⟨1, none, 0, .node 0 .none [], h.key c, []⟩, 0, 0⟩

theorem view_keyOf (h : Heap) (a : Nat) : (view h).keyOf a = h.key a := rfl

/-- A ring whose keys increase strictly from its head. -/
structure Increasing (h : Heap) (head : Option Nat) (es : List Nat) : Prop extends Stands h head es where
  strict : es.Pairwise fun a b => h.key a < h.key b

theorem Increasing.key_ne (hs : Increasing h head es) (ha : a ∈ es) (hb : b ∈ es) (hne : a ≠ b) :
    h.key a ≠ h.key b := by
  have hpair : es.Pairwise fun a b => h.key a ≠ h.key b := hs.strict.imp Nat.ne_of_lt
  have : Std.Symm fun a b : Nat => h.key a ≠ h.key b := ⟨fun _ _ hab => hab.symm⟩
  exact hpair.forall ha hb hne

theorem sllWalk_meets {l : List Nat} (hstrict : l.Pairwise fun a b => h.key b < h.key a) (ha : a ∈ l) :
    RedForest.sllWalk (view h) (h.key a) l = some (.alreadyInSll a) := by
  induction l with
  | nil => cases ha
  | cons c l ih =>
      obtain ⟨hfirst, hrest⟩ := List.pairwise_cons.mp hstrict
      rw [RedForest.sllWalk, view_keyOf]
      rcases List.mem_cons.mp ha with rfl | ha
      · rw [if_neg (Nat.lt_irrefl _), if_pos rfl]
      · have hless := hfirst a ha
        rw [if_neg (by omega), if_neg (by omega)]
        exact ih hrest ha

theorem sllLink_meets (hs : Increasing h head es) (ha : a ∈ es) :
    RedForest.sllLink (view h) es (h.key a) = some (.alreadyInSll a) := by
  cases es with
  | nil => cases ha
  | cons b t =>
      have hle : h.key b ≤ h.key a := by
        rcases List.mem_cons.mp ha with rfl | ha
        · exact Nat.le_refl _
        · exact Nat.le_of_lt ((List.pairwise_cons.mp hs.strict).1 a ha)
      rw [RedForest.sllLink, view_keyOf, if_neg (Nat.not_lt.mpr hle)]
      exact sllWalk_meets (List.pairwise_reverse.mpr hs.strict) (List.mem_reverse.mpr ha)

/-- The search ends, and finds the element with the key if there is one. -/
theorem Increasing.link (hs : Increasing h head es) (hn : es.length ≤ n) (key : Nat) :
    ∃ r, sllLink n h head key = some r ∧ RedForest.sllLink (view h) es key = some r ∧
      ∀ d, r = .alreadyInSll d ↔ d ∈ es ∧ h.key d = key := by
  obtain ⟨r, hr⟩ := sllLink_total (view h) es key
  refine ⟨r, sllLink_eq hs.toStands (fun a _ => view_keyOf h a) hr hn, hr, fun d => ⟨?_, ?_⟩⟩
  · rintro rfl
    exact sllLink_found hr
  · rintro ⟨hd, rfl⟩
    exact Option.some.inj (hr.symm.trans (sllLink_meets hs hd))

theorem Increasing.add (hs : Increasing h head es) (helem : elem ∉ es)
    (hlink : RedForest.sllLink (view h) es (h.key elem) = some r) (hnew : ∀ d, r ≠ .alreadyInSll d) :
    ∃ h' head' es', sllAdd h head r elem = some (h', head') ∧ Increasing h' head' es' ∧ es'.Perm (elem :: es) ∧
      h'.key = h.key := by
  obtain ⟨h', head', hadd, hs', hkey⟩ := sllAdd_spec hs.toStands helem hlink hnew
  obtain ⟨hsorted, hperm⟩ := sllAdd_sorted (n := elem) hs.strict (fun a _ => view_keyOf h a) hlink hnew
  refine ⟨h', head', _, hadd, ⟨hs', ?_⟩, hperm, hkey⟩
  rwa [hkey]

theorem Stands.shift (hs : Stands h head es) (start : Nat) (delta : Int) (l : List Nat) :
    Stands (shiftKeys start delta l h) head es := by
  refine ⟨?_, hs.head⟩
  rw [shiftKeys_next, shiftKeys_prev]
  exact hs.ring

theorem Increasing.setKey (hs : Increasing h head es) (helem : elem ∉ es) (v : Nat) :
    Increasing (h.setKey elem v) head es := by
  refine ⟨⟨?_, hs.head⟩, hs.strict.imp_of_mem fun {a b} ha hb hlt => ?_⟩
  · rw [setKey_next, setKey_prev]
    exact hs.ring
  · have hae : a ≠ elem := fun heq => helem (heq ▸ ha)
    have hbe : b ≠ elem := fun heq => helem (heq ▸ hb)
    rwa [setKey_key, Function.update_of_ne hae, Function.update_of_ne hbe]

/-- What holds of a ring between operations, written from its head. -/
structure Sorted (s : Ring) (es : List Nat) : Prop extends Increasing s.heap s.head es where
  perm : es.Perm s.members
  below : ∀ d ∈ es, s.heap.key d < s.count
  counted : s.count < 2 ^ 32

variable {s s' : Ring} {index : Nat}

theorem fuel_enough (hperm : es.Perm s.members) : es.length < s.fuel := by
  rw [Ring.fuel, hperm.length_eq]
  exact Nat.lt_succ_self _

theorem unlink_spec (hs : Stands s.heap s.head es) (hperm : es.Perm s.members) (helem : elem ∈ es) :
    ∃ s', s.unlink elem = some s' ∧ Stands s'.heap s'.head (es.erase elem) ∧ (es.erase elem).Perm s'.members ∧
      s'.heap.key = s.heap.key ∧ s'.count = s.count := by
  obtain ⟨h', head', hunlink, hs', hkey⟩ := sllUnlink_spec hs helem
  refine ⟨⟨h', head', s.count, s.members.erase elem⟩, ?_, hs', hperm.erase elem, hkey, rfl⟩
  rw [Ring.unlink, hunlink]
  rfl

theorem Sorted.release (hs : Sorted s es) (helem : elem ∈ es) :
    ∃ s', s.unlink elem = some s' ∧ Sorted s' (es.erase elem) := by
  obtain ⟨s', hunlink, hstands, hperm, hkey, hcount⟩ := unlink_spec hs.toStands hs.perm helem
  refine ⟨s', hunlink, ⟨hstands, ?_⟩, hperm, fun d hd => ?_, hcount ▸ hs.counted⟩
  · rw [hkey]
    exact hs.strict.sublist List.erase_sublist
  · rw [hkey, hcount]
    exact hs.below d (List.mem_of_mem_erase hd)

theorem Sorted.link (hs : Sorted s es) (key : Nat) :
    ∃ r, s.link key = some r ∧ RedForest.sllLink (view s.heap) es key = some r ∧
      ∀ d, r = .alreadyInSll d ↔ d ∈ es ∧ s.heap.key d = key :=
  hs.toIncreasing.link (Nat.le_of_lt (fuel_enough hs.perm)) key

/-- A new element with a key below `count` that no element has. -/
theorem Sorted.add (hs : Sorted s es) (helem : elem ∉ es) (hbelow : s.heap.key elem < s.count)
    (hlink : RedForest.sllLink (view s.heap) es (s.heap.key elem) = some r) (hnew : ∀ d, r ≠ .alreadyInSll d) :
    ∃ s' es', s.add r elem = some s' ∧ Sorted s' es' := by
  obtain ⟨h', head', es', hadd, hs', hperm, hkey⟩ := hs.toIncreasing.add helem hlink hnew
  refine ⟨⟨h', head', s.count, elem :: s.members⟩, es', ?_, hs', hperm.trans (hs.perm.cons elem), fun d hd => ?_,
    hs.counted⟩
  · rw [Ring.add, hadd]
    rfl
  · change h'.key d < s.count
    rw [hkey]
    rcases List.mem_cons.mp (hperm.mem_iff.mp hd) with rfl | hd
    · exact hbelow
    · exact hs.below d hd

theorem Sorted.setKey (hs : Sorted s es) (helem : elem ∉ es) (v : Nat) :
    Sorted { s with heap := s.heap.setKey elem v } es := by
  refine ⟨hs.toIncreasing.setKey helem v, hs.perm, fun d hd => ?_, hs.counted⟩
  have hde : d ≠ elem := fun heq => helem (heq ▸ hd)
  change (s.heap.setKey elem v).key d < s.count
  rw [setKey_key, Function.update_of_ne hde]
  exact hs.below d hd

theorem Sorted.child (hs : Sorted s es) (helem : elem ∉ es) (hindex : index < s.count) :
    ∃ s' es', s.child elem index = some s' ∧ Sorted s' es' := by
  have hkey : (s.heap.setKey elem index).key elem = index := by
    rw [setKey_key, Function.update_self]
  have hkeys : ∀ a ∈ es, (view (s.heap.setKey elem index)).keyOf a = s.heap.key a := by
    intro a ha
    have hae : a ≠ elem := fun heq => helem (heq ▸ ha)
    rw [view_keyOf, setKey_key, Function.update_of_ne hae]
  obtain ⟨r, hview⟩ := sllLink_total (view (s.heap.setKey elem index)) es index
  have hlink : s.link index = some r := sllLink_eq hs.toStands hkeys hview (Nat.le_of_lt (fuel_enough hs.perm))
  rw [Ring.child, hlink, Option.bind_some]
  by_cases hin : ∃ d, r = .alreadyInSll d
  · obtain ⟨d, rfl⟩ := hin
    exact ⟨s, es, rfl, hs⟩
  · have hnew : ∀ d, r ≠ .alreadyInSll d := fun d heq => hin ⟨d, heq⟩
    have hadd := (hs.setKey helem index).add (r := r) helem
    rw [hkey] at hadd
    obtain ⟨s', es', hstep, hs'⟩ := hadd hindex hview hnew
    refine ⟨s', es', ?_, hs'⟩
    cases r with
    | alreadyInSll d => exact absurd rfl (hnew d)
    | emptyHead => exact hstep
    | smallerThanHead => exact hstep
    | smallerThanNotHead curr => exact hstep

theorem Stands.turned (hs : Stands h head es) (helem : elem ∈ es) :
    ∃ t, IsRing h.next h.prev (elem :: t) ∧ (elem :: t).Perm es := by
  obtain ⟨before, after, rfl⟩ := List.append_of_mem helem
  exact ⟨after ++ before, hs.ring.rotate,
    (List.perm_append_comm : (elem :: after ++ before).Perm (before ++ elem :: after))⟩

theorem adjust_spec (start : Nat) (delta : Int) (hs : Stands s.heap s.head es) (hperm : es.Perm s.members)
    (helem : elem ∈ es)
    (hkeys : ∀ a ∈ es, start ≤ s.heap.key a → 0 ≤ (s.heap.key a : Int) + delta) :
    ∃ h', sllAdjust s.fuel s.heap elem start delta = some h' ∧ Stands h' s.head es ∧ ∀ a, h'.key a =
      if a ∈ es ∧ start ≤ s.heap.key a then ((s.heap.key a + delta) % 2 ^ 32).toNat else s.heap.key a := by
  obtain ⟨t, hring, hturn⟩ := hs.turned helem
  have hbound : t.length < s.fuel := by
    have := fuel_enough (hturn.trans hperm)
    rw [List.length_cons] at this
    omega
  refine ⟨_, sllAdjust_spec hring (fun a ha => hkeys a (hturn.mem_iff.mp ha)) hbound, hs.shift _ _ _, fun a => ?_⟩
  simp only [shiftKeys_key, hturn.mem_iff]

theorem Sorted.detachAdjust (hs : Sorted s es) (helem : elem ∈ es) :
    ∃ s', s.detachAdjust elem = some s' ∧ Stands s'.heap s'.head es ∧ s'.members = s.members ∧ s'.count = s.count ∧
      (es.Pairwise fun a b => s'.heap.key a ≤ s'.heap.key b) ∧
      ((es.erase elem).Pairwise fun a b => s'.heap.key a < s'.heap.key b) ∧
      ∀ d ∈ es.erase elem, s'.heap.key d < s.count - 1 := by
  have hlast := hs.below elem helem
  have hcounted := hs.counted
  have hstart : (s.heap.key elem + 1) % 2 ^ 32 = s.heap.key elem + 1 := Nat.mod_eq_of_lt (by omega)
  obtain ⟨h', hadjust, hs', hkey⟩ := adjust_spec (s.heap.key elem + 1) (-1) hs.toStands hs.perm
    helem fun a _ hle => by omega
  have hmoved : ∀ a ∈ es, h'.key a = if s.heap.key elem < s.heap.key a then s.heap.key a - 1 else s.heap.key a := by
    intro a ha
    have hbelow := hs.below a ha
    rw [hkey]
    by_cases hlt : s.heap.key elem < s.heap.key a
    · rw [if_pos ⟨ha, hlt⟩, if_pos hlt]
      omega
    · rw [if_neg fun hle => hlt hle.2, if_neg hlt]
  have hother : ∀ a ∈ es.erase elem, a ∈ es ∧ s.heap.key a ≠ s.heap.key elem := by
    intro a ha
    obtain ⟨hne, hmem⟩ := hs.ring.nodup.mem_erase_iff.mp ha
    exact ⟨hmem, hs.key_ne hmem helem hne⟩
  refine ⟨{ s with heap := h' }, ?_, hs', rfl, rfl, ?_, ?_, fun d hd => ?_⟩
  · rw [Ring.detachAdjust, hstart, hadjust]
    rfl
  · refine hs.strict.imp_of_mem fun {a b} ha hb hlt => ?_
    change h'.key a ≤ h'.key b
    rw [hmoved a ha, hmoved b hb]
    split_ifs <;> omega
  · refine (hs.strict.sublist List.erase_sublist).imp_of_mem fun {a b} ha hb hlt => ?_
    obtain ⟨ha, hane⟩ := hother a ha
    obtain ⟨hb, hbne⟩ := hother b hb
    change h'.key a < h'.key b
    rw [hmoved a ha, hmoved b hb]
    split_ifs <;> omega
  · obtain ⟨hd, hdne⟩ := hother d hd
    have hbelow := hs.below d hd
    change h'.key d < s.count - 1
    rw [hmoved d hd]
    split_ifs <;> omega

theorem Sorted.detach (hs : Sorted s es) (helem : elem ∈ es) :
    ∃ s' es', s.detach elem = some s' ∧ Sorted s' es' := by
  obtain ⟨s₁, hadjust, hs₁, hmembers, hcount, -, hstrict, hbelow⟩ := hs.detachAdjust helem
  obtain ⟨s₂, hunlink, hs₂, hperm, hkey, hcount₂⟩ := unlink_spec hs₁ (hmembers ▸ hs.perm) helem
  have hcounted := hs.counted
  refine ⟨{ s₂ with count := s₂.count - 1 }, es.erase elem, ?_, ⟨hs₂, ?_⟩, hperm, fun d hd => ?_, ?_⟩
  · rw [Ring.detach, hadjust, Option.bind_some, hunlink]
    rfl
  · change (es.erase elem).Pairwise fun a b => s₂.heap.key a < s₂.heap.key b
    rwa [hkey]
  · change s₂.heap.key d < s₂.count - 1
    rw [hkey, hcount₂, hcount]
    exact hbelow d hd
  · change s₂.count - 1 < 2 ^ 32
    omega

/-- The siblings leave the index free, and what is not a sibling keeps its key. -/
theorem Sorted.moveUp (hs : Sorted s es) (index : Nat) (hcount : s.count + 1 < 2 ^ 32) :
    ∃ s', s.moveUp index = some s' ∧ Sorted { s' with count := s.count + 1 } es ∧ s'.count = s.count ∧
      (∀ d ∈ es, s'.heap.key d ≠ index) ∧ ∀ d, d ∉ es → s'.heap.key d = s.heap.key d := by
  cases es with
  | nil =>
      have hhead : s.head = none := hs.head
      refine ⟨s, ?_, ⟨hs.toIncreasing, hs.perm, nofun, hcount⟩, rfl, nofun, fun _ _ => rfl⟩
      rw [Ring.moveUp, hhead]
  | cons first rest =>
      have hhead : s.head = some first := hs.head
      obtain ⟨h', hadjust, hs', hkey⟩ := adjust_spec index 1 hs.toStands hs.perm
        List.mem_cons_self fun a _ _ => by omega
      have hmoved : ∀ a ∈ first :: rest, h'.key a =
          if index ≤ s.heap.key a then s.heap.key a + 1 else s.heap.key a := by
        intro a ha
        have hbelow := hs.below a ha
        rw [hkey]
        by_cases hle : index ≤ s.heap.key a
        · rw [if_pos ⟨ha, hle⟩, if_pos hle]
          omega
        · rw [if_neg fun hmem => hle hmem.2, if_neg hle]
      refine ⟨{ s with heap := h' }, ?_, ⟨⟨hs', ?_⟩, hs.perm, fun d hd => ?_, hcount⟩, rfl, fun d hd => ?_,
        fun d hd => ?_⟩
      · rw [Ring.moveUp]
        simp only [hhead, hadjust]
        rfl
      · refine hs.strict.imp_of_mem fun {a b} ha hb hlt => ?_
        change h'.key a < h'.key b
        rw [hmoved a ha, hmoved b hb]
        split_ifs <;> omega
      · have hbelow := hs.below d hd
        change h'.key d < s.count + 1
        rw [hmoved d hd]
        split_ifs <;> omega
      · change h'.key d ≠ index
        rw [hmoved d hd]
        split_ifs <;> omega
      · change h'.key d = s.heap.key d
        rw [hkey, if_neg fun hmem => hd hmem.1]

theorem Sorted.attachAdjust (hs : Sorted s es) (helem : elem ∉ es) (index : Nat) (hcount : s.count + 1 < 2 ^ 32) :
    ∃ s', s.attachAdjust elem index = some s' ∧ Sorted { s' with count := s.count + 1 } es ∧
      s'.count = s.count ∧ s'.heap.key elem = index ∧ ∀ d ∈ es, s'.heap.key d ≠ index := by
  obtain ⟨s', hmove, hs', hsame, hfree, hkept⟩ := (hs.setKey helem index).moveUp index hcount
  refine ⟨s', hmove, hs', hsame, ?_, hfree⟩
  rw [hkept elem helem]
  change (s.heap.setKey elem index).key elem = index
  rw [setKey_key, Function.update_self]

theorem Sorted.attach (hs : Sorted s es) (helem : elem ∉ es) (hindex : index ≤ s.count)
    (hcount : s.count + 1 < 2 ^ 32) : ∃ s' es', s.attach elem index = some s' ∧ Sorted s' es' := by
  obtain ⟨s₁, hadjust, hs₁, hsame, hkey, hfree⟩ := hs.attachAdjust helem index hcount
  obtain ⟨r, hlink, hview, hfound⟩ := hs₁.link index
  have hnew : ∀ d, r ≠ .alreadyInSll d := by
    intro d heq
    obtain ⟨hd, hdkey⟩ := (hfound d).mp heq
    exact hfree d hd hdkey
  have hadd := hs₁.add (r := r) helem
  rw [show ({ s₁ with count := s.count + 1 } : Ring).heap.key elem = index from hkey] at hadd
  obtain ⟨s', es', hstep, hs'⟩ := hadd (Nat.lt_succ_of_le hindex) hview hnew
  refine ⟨s', es', ?_, hs'⟩
  have hresult : (s₁.add r elem).map (fun s => { s with count := s.count + 1 }) = some s' := by
    rw [← hstep, Ring.add, Ring.add, Option.map_map, ← hsame]
    rfl
  rw [Ring.attach, if_pos hindex, hadjust, Option.bind_some, hkey,
    show s₁.link index = some r from hlink, Option.bind_some]
  cases r with
  | alreadyInSll d => exact absurd rfl (hnew d)
  | emptyHead => exact hresult
  | smallerThanHead => exact hresult
  | smallerThanNotHead curr => exact hresult

theorem Sorted.step {op : Op} (hs : Sorted s es) (hallowed : s.Allowed op) :
    ∃ s' es', s.step op = some s' ∧ Sorted s' es' := by
  cases op with
  | child elem index => exact hs.child (fun hmem => hallowed.1 (hs.perm.mem_iff.mp hmem)) hallowed.2
  | release elem =>
      obtain ⟨s', hunlink, hs'⟩ := hs.release (hs.perm.mem_iff.mpr hallowed)
      exact ⟨s', _, hunlink, hs'⟩
  | detach elem => exact hs.detach (hs.perm.mem_iff.mpr hallowed)
  | attach elem index =>
      exact hs.attach (fun hmem => hallowed.1 (hs.perm.mem_iff.mp hmem)) hallowed.2.1 hallowed.2.2

theorem Reached.sorted (hr : Reached s) : ∃ es, Sorted s es := by
  induction hr with
  | initial heap hcount => exact ⟨[], ⟨⟨.nil _ _, rfl⟩, .nil⟩, .nil, nofun, hcount⟩
  | step op _ hallowed hstep ih =>
      obtain ⟨es, hs⟩ := ih
      obtain ⟨s', es', hstep', hs'⟩ := hs.step hallowed
      obtain rfl := Option.some.inj (hstep.symm.trans hstep')
      exact ⟨es', hs'⟩

end Runs

section Claims

def Traversed (s : Ring) (es : List Nat) : Prop :=
  ∀ first ∈ s.head, List.iterate s.heap.next first es.length = es ∧ s.heap.next^[es.length] first = first ∧
    List.iterate s.heap.prev (s.heap.prev first) es.length = es.reverse

theorem Stands.traversed (hs : Stands s.heap s.head es) : Traversed s es := by
  intro first hfirst
  rw [hs.head] at hfirst
  obtain ⟨t, rfl⟩ := List.head?_eq_some_iff.mp hfirst
  obtain ⟨hforward, hback⟩ := hs.ring.forward
  exact ⟨hforward, hback, hs.ring.backward⟩

/-- In every run the ring is circular and doubly linked and lists each element that was
added and not unlinked once, by strictly increasing key. Every operation succeeds, and the
search ends and finds exactly the keys that are there. Between the two calls of a detach
the leaving element may share its key with the next one, and nothing else. -/
theorem ring_sorted {s : Ring} (h : Reached s) :
    ∃ es, es.Perm s.members ∧ Stands s.heap s.head es ∧ Traversed s es ∧
      (es.Pairwise fun a b => s.heap.key a < s.heap.key b) ∧
      (∀ op, s.Allowed op → ∃ s', s.step op = some s') ∧
      (∀ key, ∃ r, s.link key = some r ∧ ∀ d, r = .alreadyInSll d ↔ d ∈ es ∧ s.heap.key d = key) ∧
      (∀ elem ∈ es, ∃ s', s.detachAdjust elem = some s' ∧ Stands s'.heap s'.head es ∧ Traversed s' es ∧
        (es.Pairwise fun a b => s'.heap.key a ≤ s'.heap.key b) ∧
        (es.erase elem).Pairwise fun a b => s'.heap.key a < s'.heap.key b) ∧
      ∀ elem index, s.Allowed (.attach elem index) → ∃ s', s.attachAdjust elem index = some s' ∧
        Stands s'.heap s'.head es ∧ Traversed s' es ∧ (es.Pairwise fun a b => s'.heap.key a < s'.heap.key b) ∧
        ∀ d ∈ es, s'.heap.key d ≠ index := by
  obtain ⟨es, hs⟩ := h.sorted
  refine ⟨es, hs.perm, hs.toStands, hs.toStands.traversed, hs.strict, fun op hallowed => ?_, fun key => ?_,
    fun elem helem => ?_, fun elem index hallowed => ?_⟩
  · obtain ⟨s', _, hstep, -⟩ := hs.step hallowed
    exact ⟨s', hstep⟩
  · obtain ⟨r, hlink, -, hfound⟩ := hs.link key
    exact ⟨r, hlink, hfound⟩
  · obtain ⟨s', hadjust, hs', -, -, hkeys, hstrict, -⟩ := hs.detachAdjust helem
    exact ⟨s', hadjust, hs', hs'.traversed, hkeys, hstrict⟩
  · have helem : elem ∉ es := fun hmem => hallowed.1 (hs.perm.mem_iff.mp hmem)
    obtain ⟨s', hadjust, hs', -, -, hfree⟩ := hs.attachAdjust helem index hallowed.2.2
    have hstands : Stands s'.heap s'.head es := hs'.toStands
    exact ⟨s', hadjust, hstands, hstands.traversed, hs'.strict, hfree⟩

def pair : Ring :=
  ((((Ring.initial (fun _ => ⟨0, 0, 0⟩) 2).child 1 0).bind (·.child 2 1)).getD (.initial (fun _ => ⟨0, 0, 0⟩) 2))

theorem pair_reached : Reached pair := by
  have hfirst : Reached (((Ring.initial (fun _ => ⟨0, 0, 0⟩) 2).child 1 0).getD (.initial (fun _ => ⟨0, 0, 0⟩) 2)) :=
    .step (.child 1 0) (.initial _ (by decide)) ⟨by decide, by decide⟩ rfl
  exact .step (.child 2 1) hfirst ⟨by decide, by decide⟩ rfl

theorem ring_sorted_pair : ∃ es, es.Perm pair.members ∧ Traversed pair es := by
  obtain ⟨es, hperm, -, htraversed, -⟩ := ring_sorted pair_reached
  exact ⟨es, hperm, htraversed⟩

/-- While the first of two children is being detached, both have key 0. -/
theorem detach_shares_key : Reached pair ∧ 1 ∈ pair.members ∧ ∃ s, pair.detachAdjust 1 = some s ∧ s.head = some 1 ∧
    s.heap.next 1 = 2 ∧ ¬ s.heap.key 1 < s.heap.key 2 :=
  ⟨pair_reached, by decide, _, rfl, rfl, rfl, by decide⟩

end Claims

end Ore.SiblingRing
