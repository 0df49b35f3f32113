import Ore.GreenCacheCanonical
import Ore.RedTree

namespace Ore.GreenLayout

open SyntaxKinds GreenTree GreenCache GreenCacheSteps GreenCacheCanonical GreenDenotes RedTree
open WorkspaceModel (Bytes)

variable {η : Type} {H : Hashing η} {w w' : World η} {obj obj' : ElemRef → Option (GreenObj η)} {r : ElemRef}
  {s s' : GreenStore η} {kind : SyntaxKind} {text : Bytes} {children : List ElemRef} {addr textLen a : Nat} {hash : η}
  {cs : List GreenElement} {req : Request} {answer : Option ElemRef}

def lenAt (obj : ElemRef → Option (GreenObj η)) (r : ElemRef) : Nat := ((obj r).map GreenObj.len).getD 0

/-- The length of a node is the sum of its children's, and each child begins where those
before it end; sums are taken in the arithmetic given. -/
structure Laid (wrap : Nat → Nat) (obj : ElemRef → Option (GreenObj η)) (textLen : Nat) (cs : List GreenElement) :
    Prop where
  total : textLen = wrap (cs.map (lenAt obj ·.ref)).sum
  offsets : ∀ i (hi : i < cs.length), cs[i].relOffset = wrap ((cs.take i).map (lenAt obj ·.ref)).sum

mutual

/-- An object unfolds to a tree and every node below it is laid out. -/
def Measures (wrap : Nat → Nat) (obj : ElemRef → Option (GreenObj η)) (r : ElemRef) : Green → Prop
  | .token tok => ∃ hash, obj r = some (.token tok hash)
  | .node kind ts => ∃ textLen hash cs, obj r = some (.node kind textLen hash cs) ∧ Laid wrap obj textLen cs ∧
      MeasuresAll wrap obj (cs.map (·.ref)) ts

def MeasuresAll (wrap : Nat → Nat) (obj : ElemRef → Option (GreenObj η)) : List ElemRef → List Green → Prop
  | rs, [] => rs = []
  | rs, t :: ts => ∃ r rest, rs = r :: rest ∧ Measures wrap obj r t ∧ MeasuresAll wrap obj rest ts

end

def wrap32 (n : Nat) : Nat := n % 2 ^ 32

def Placed (obj : ElemRef → Option (GreenObj η)) : Prop :=
  ∀ r kind textLen hash cs, obj r = some (.node kind textLen hash cs) → Laid wrap32 obj textLen cs

section Placing

theorem placeChildren_laid {total : Nat} {placed : List GreenElement}
    (h : placeChildren s (wrap32 a) children = some (placed, total)) :
    total = wrap32 (a + (placed.map (lenAt s.obj ·.ref)).sum) ∧
      ∀ i (hi : i < placed.length), placed[i].relOffset =
        wrap32 (a + ((placed.take i).map (lenAt s.obj ·.ref)).sum) := by
  induction children generalizing a placed with
  | nil =>
      simp only [placeChildren, Option.some.injEq, Prod.mk.injEq] at h
      obtain ⟨rfl, rfl⟩ := h
      exact ⟨rfl, fun i hi => absurd hi (Nat.not_lt_zero i)⟩
  | cons c cs ih =>
      simp only [placeChildren, Option.bind_eq_some_iff, Option.map_eq_some_iff, Prod.mk.injEq, Prod.exists] at h
      obtain ⟨o, ho, later, total', hlater, rfl, rfl⟩ := h
      have hlen : lenAt s.obj c = o.len := by rw [lenAt, ho, Option.map_some, Option.getD_some]
      have hnext : (wrap32 a + o.len) % 2 ^ 32 = wrap32 (a + o.len) := Nat.mod_add_mod ..
      rw [hnext] at hlater
      obtain ⟨htotal, hoffsets⟩ := ih hlater
      constructor
      · rw [htotal, List.map_cons, List.sum_cons, hlen, Nat.add_assoc]
      · intro i hi
        cases i with
        | zero => simp
        | succ i =>
            rw [List.getElem_cons_succ, hoffsets i (Nat.lt_of_succ_lt_succ hi), List.take_succ_cons, List.map_cons,
              List.sum_cons, hlen, Nat.add_assoc]

theorem Laid.of_placeChildren {total : Nat} {placed : List GreenElement}
    (h : placeChildren s 0 children = some (placed, total)) : Laid wrap32 s.obj total placed := by
  obtain ⟨htotal, hoffsets⟩ := placeChildren_laid (a := 0) h
  refine ⟨?_, fun i hi => ?_⟩
  · rw [htotal, Nat.zero_add]
  · rw [hoffsets i hi, Nat.zero_add]

/-- The layout of a node depends on its children only. -/
theorem Laid.congr {wrap : Nat → Nat} (h : Laid wrap obj textLen cs) (hsame : ∀ c ∈ cs, obj' c.ref = obj c.ref) :
    Laid wrap obj' textLen cs := by
  have hlens (ds : List GreenElement) (hds : ∀ c ∈ ds, c ∈ cs) :
      ds.map (lenAt obj' ·.ref) = ds.map (lenAt obj ·.ref) := by
    apply List.map_congr_left
    intro c hc
    rw [lenAt, lenAt, hsame c (hds c hc)]
  refine ⟨?_, fun i hi => ?_⟩
  · rw [hlens cs fun _ => id]
    exact h.total
  · rw [hlens _ fun _ => List.mem_of_mem_take]
    exact h.offsets i hi

end Placing

section Allocating

theorem greenRetain_obj (h : greenRetain s r = some s') : s'.obj = s.obj := by
  obtain ⟨o, -, rfl⟩ := Option.map_eq_some_iff.mp h
  rfl

theorem retainAll_obj (h : children.foldlM greenRetain s = some s') : s'.obj = s.obj := by
  induction children generalizing s with
  | nil => rw [← Option.some.inj h]
  | cons c cs ih =>
      rw [List.foldlM_cons] at h
      obtain ⟨s₁, hfirst, hrest⟩ := Option.bind_eq_some_iff.mp h
      rw [ih hrest, greenRetain_obj hfirst]

theorem greenNodeAlloc_obj {h h' : Heap η} (halloc : greenNodeAlloc H h addr kind children = some h') :
    ∃ total placed, placeChildren h.store 0 children = some (placed, total) ∧
      h'.store.obj =
        Function.update h.store.obj (.node addr) (some (.node kind total (H.node kind children) placed)) := by
  obtain ⟨⟨placed, total⟩, hplaced, hrest⟩ := Option.bind_eq_some_iff.mp halloc
  obtain ⟨s, hretained, rfl⟩ := Option.map_eq_some_iff.mp hrest
  exact ⟨total, placed, hplaced, by rw [retainAll_obj hretained]⟩

variable [DecidableEq η]

theorem internNode_obj {h h' : Heap η} {c c' : NodeCache η}
    (hintern : nodeCacheInternNode H h c addr kind children = some (h', c', a)) : h'.store.obj = h.store.obj ∨
      ∃ total placed, placeChildren h.store 0 children = some (placed, total) ∧
        h'.store.obj =
          Function.update h.store.obj (.node addr) (some (.node kind total (H.node kind children) placed)) := by
  rw [nodeCacheInternNode] at hintern
  split_ifs at hintern
  · obtain ⟨h₁, halloc, heq⟩ := Option.map_eq_some_iff.mp hintern
    simp only [Prod.mk.injEq] at heq
    rw [← heq.1]
    exact .inr (greenNodeAlloc_obj halloc)
  · simp only at hintern
    split at hintern
    · obtain ⟨s, hretain, heq⟩ := Option.map_eq_some_iff.mp hintern
      simp only [Prod.mk.injEq] at heq
      rw [← heq.1]
      exact .inl (greenRetain_obj hretain)
    · obtain ⟨h₁, halloc, hrest⟩ := Option.bind_eq_some_iff.mp hintern
      obtain ⟨s, hretain, heq⟩ := Option.map_eq_some_iff.mp hrest
      simp only [Prod.mk.injEq] at heq
      rw [← heq.1]
      obtain ⟨total, placed, hplaced, hobj⟩ := greenNodeAlloc_obj halloc
      exact .inr ⟨total, placed, hplaced, (greenRetain_obj hretain).trans hobj⟩

theorem internToken_obj {h h' : Heap η} {c c' : NodeCache η}
    (hintern : nodeCacheInternToken H h c addr kind text = some (h', c', a)) : h'.store.obj = h.store.obj ∨
      h'.store.obj = Function.update h.store.obj (.token addr) (some (.token ⟨kind, text⟩ (H.token kind text))) := by
  rw [nodeCacheInternToken] at hintern
  simp only at hintern
  split at hintern
  · obtain ⟨s, hretain, heq⟩ := Option.map_eq_some_iff.mp hintern
    simp only [Prod.mk.injEq] at heq
    rw [← heq.1]
    exact .inl (greenRetain_obj hretain)
  · obtain ⟨s, hretain, heq⟩ := Option.map_eq_some_iff.mp hintern
    simp only [Prod.mk.injEq] at heq
    rw [← heq.1]
    exact .inr (greenRetain_obj hretain)

end Allocating

section Steps

theorem Placed.start : Placed (World.start : World η).heap.store.obj := by
  intro r kind textLen hash cs hobj
  cases hobj

theorem child_stored (h : Sound H w) {p : ElemRef} (hobj : w.heap.store.obj p = some (.node kind textLen hash cs)) :
    ∀ c ∈ cs, ∃ o, w.heap.store.obj c.ref = some o := by
  obtain ⟨rank, holders, h⟩ := h
  intro c hc
  exact h.mem_live (interned_child_mem h (h.whole p _ hobj) ⟨_, hobj, List.mem_map_of_mem hc⟩)

theorem Placed.put (h : Sound H w) (hp : Placed w.heap.store.obj) (hfree : w.heap.store.obj r = none) (o : GreenObj η)
    (hnew : ∀ kind textLen hash cs, o = .node kind textLen hash cs →
      Laid wrap32 w.heap.store.obj textLen cs ∧ ∀ c ∈ cs, ∃ o, w.heap.store.obj c.ref = some o) :
    Placed (Function.update w.heap.store.obj r (some o)) := by
  have hsame {p : ElemRef} (hlive : ∃ o, w.heap.store.obj p = some o) :
      Function.update w.heap.store.obj r (some o) p = w.heap.store.obj p := by
    apply Function.update_of_ne
    rintro rfl
    obtain ⟨o', ho'⟩ := hlive
    rw [hfree] at ho'
    cases ho'
  intro p kind textLen hash cs hobj
  by_cases hpr : p = r
  · subst hpr
    rw [Function.update_self, Option.some.injEq] at hobj
    obtain ⟨hlaid, hlive⟩ := hnew _ _ _ _ hobj
    exact hlaid.congr fun c hc => hsame (hlive c hc)
  · rw [Function.update_of_ne hpr] at hobj
    exact (hp p kind textLen hash cs hobj).congr fun c hc => hsame (child_stored h hobj c hc)

variable [DecidableEq η]

theorem step_placed (h : Sound H w) (hreq : InBounds w req) (hstep : step H w req = some (w', answer))
    (hp : Placed w.heap.store.obj) : Placed w'.heap.store.obj := by
  cases req with
  | token addr kind text =>
      obtain ⟨⟨heap, cache, a⟩, hintern, heq⟩ := Option.map_eq_some_iff.mp hstep
      simp only [Prod.mk.injEq] at heq
      rw [← heq.1]
      rcases internToken_obj hintern with hobj | hobj
      · rw [hobj]
        exact hp
      · rw [hobj]
        exact hp.put h hreq.1 _ fun _ _ _ _ hnode => by cases hnode
  | node addr kind children =>
      obtain ⟨⟨heap, cache, a⟩, hintern, heq⟩ := Option.map_eq_some_iff.mp hstep
      simp only [Prod.mk.injEq] at heq
      rw [← heq.1]
      rcases internNode_obj hintern with hobj | ⟨total, placed, hplaced, hobj⟩
      · rw [hobj]
        exact hp
      · rw [hobj]
        apply hp.put h hreq.1.1
        intro kind' textLen hash cs hnode
        simp only [GreenObj.node.injEq] at hnode
        obtain ⟨-, rfl, -, rfl⟩ := hnode
        refine ⟨.of_placeChildren hplaced, fun c hc => ?_⟩
        obtain ⟨rank, holders, hinterned⟩ := h
        have hlive (c : ElemRef) (hc : c ∈ children) := hinterned.mem_live (hinterned.owned_mem (hreq.1.2 c hc))
        obtain ⟨placed', total', hplaced', hrefs⟩ := placeChildren_spec hlive 0
        rw [hplaced, Option.some.injEq, Prod.mk.injEq] at hplaced'
        obtain ⟨rfl, -⟩ := hplaced'
        exact hlive c.ref (hrefs ▸ List.mem_map_of_mem hc)
  | retain r =>
      obtain ⟨s, hretain, heq⟩ := Option.map_eq_some_iff.mp hstep
      simp only [Prod.mk.injEq] at heq
      rw [← heq.1]
      simp only [greenRetain_obj hretain]
      exact hp
  | release r =>
      obtain ⟨w₁, rank, holders, hstep', hinterned, -, hsame, -⟩ := step_release h hreq.1
      rw [hstep, Option.some.injEq, Prod.mk.injEq] at hstep'
      obtain ⟨rfl, -⟩ := hstep'
      intro p kind textLen hash cs hobj
      have hholder := hinterned.whole p _ hobj
      have hold := (hsame p hholder) ▸ hobj
      apply (hp p kind textLen hash cs hold).congr
      intro c hc
      exact hsame _ (interned_child_mem hinterned hholder ⟨_, hobj, List.mem_map_of_mem hc⟩)

theorem later_placed (h : Later H InBounds w w') (hw : Sound H w) (hp : Placed w.heap.store.obj) :
    Placed w'.heap.store.obj := by
  induction h with
  | refl => exact hp
  | step hlater hok hstep ih => exact step_placed (later_sound hlater hw) hok hstep ih

end Steps

section Reading

mutual

/-- What an object unfolds to is laid out. -/
theorem Denotes.measures (hp : Placed obj) : ∀ {t : Green} {r : ElemRef}, Denotes obj r t → Measures wrap32 obj r t
  | .token tok, r => fun h => h
  | .node kind ts, r => by
      rintro ⟨textLen, hash, cs, hobj, hcs⟩
      exact ⟨textLen, hash, cs, hobj, hp r kind textLen hash cs hobj, DenotesAll.measures hp hcs⟩

theorem DenotesAll.measures (hp : Placed obj) :
    ∀ {ts : List Green} {rs : List ElemRef}, DenotesAll obj rs ts → MeasuresAll wrap32 obj rs ts
  | [], rs => fun h => h
  | t :: ts, rs => by
      rintro ⟨r, rest, rfl, ht, hts⟩
      exact ⟨r, rest, rfl, Denotes.measures hp ht, DenotesAll.measures hp hts⟩

end

theorem Laid.exact (h : Laid wrap32 obj textLen cs) (hlt : (cs.map (lenAt obj ·.ref)).sum < 2 ^ 32) :
    Laid id obj textLen cs := by
  refine ⟨?_, fun i hi => ?_⟩
  · rw [h.total, wrap32, Nat.mod_eq_of_lt hlt, id]
  · have hsplit : ((cs.take i).map (lenAt obj ·.ref)).sum + ((cs.drop i).map (lenAt obj ·.ref)).sum =
        (cs.map (lenAt obj ·.ref)).sum := by
      rw [← List.sum_append, ← List.map_append, List.take_append_drop]
    rw [h.offsets i hi, wrap32, Nat.mod_eq_of_lt (by omega), id]

mutual

theorem Measures.exact : ∀ {t : Green} {r : ElemRef}, Measures wrap32 obj r t → RedTree.textLen t < 2 ^ 32 →
    Measures id obj r t ∧ lenAt obj r = RedTree.textLen t
  | .token tok, r => by
      rintro ⟨hash, hobj⟩ -
      refine ⟨⟨hash, hobj⟩, ?_⟩
      rw [lenAt, hobj]
      rfl
  | .node kind ts, r => by
      rintro ⟨textLen, hash, cs, hobj, hlaid, hcs⟩ hlt
      obtain ⟨hall, hsum⟩ := MeasuresAll.exact hcs hlt
      have hsum' : (cs.map (lenAt obj ·.ref)).sum = textLenAll ts := by
        rw [← hsum, List.map_map]
        rfl
      have hexact := hlaid.exact (hsum' ▸ hlt)
      refine ⟨⟨textLen, hash, cs, hobj, hexact, hall⟩, ?_⟩
      rw [lenAt, hobj]
      exact hexact.total.trans hsum'

theorem MeasuresAll.exact : ∀ {ts : List Green} {rs : List ElemRef}, MeasuresAll wrap32 obj rs ts →
    textLenAll ts < 2 ^ 32 → MeasuresAll id obj rs ts ∧ (rs.map (lenAt obj)).sum = textLenAll ts
  | [], rs => by
      rintro rfl -
      exact ⟨rfl, rfl⟩
  | t :: ts, rs => by
      rintro ⟨r, rest, rfl, ht, hts⟩ hlt
      rw [textLenAll] at hlt
      obtain ⟨hexact, hlen⟩ := Measures.exact ht (by omega)
      obtain ⟨hall, hsum⟩ := MeasuresAll.exact hts (by omega)
      refine ⟨⟨r, rest, rfl, hexact, hall⟩, ?_⟩
      rw [List.map_cons, List.sum_cons, hlen, hsum, textLenAll]

end

end Reading

end Ore.GreenLayout
