import Ore.GreenDenotes

namespace Ore.GreenCacheCanonical

open SyntaxKinds GreenTree GreenCache GreenCacheTable GreenCacheSteps GreenDenotes RefCounts
open WorkspaceModel (Bytes)

variable {η : Type} {H : Hashing η} {w w' w'' : World η} {r : ElemRef} {req : Request}

def Cached (w : World η) (r : ElemRef) : Prop := ∃ o, w.heap.store.obj r = some o ∧ o.refs.length ≤ dedupMaxChildren

theorem Cached.base_pos (h : Cached w r) : 0 < base w.heap.store.obj r := by
  obtain ⟨o, ho, hfew⟩ := h
  rw [base, ho, Option.map_some, Option.getD_some, if_pos hfew]
  exact Nat.one_pos

theorem interned_child_mem {rank : ElemRef → Nat} {holders : Finset ElemRef} (h : Interned H w rank holders)
    {p c : ElemRef}
    (hp : p ∈ holders) (hc : Child w.heap.store.obj p c) : c ∈ holders := by
  obtain ⟨o, ho, hmem⟩ := hc
  refine h.counted.kid_mem hp ?_
  rw [kidsAt, ho]
  exact hmem

theorem cached_of_denotes {t : Green} (ht : Denotes w.heap.store.obj r t) (hsmall : Small t) : Cached w r := by
  cases t with
  | token tok =>
      obtain ⟨hash, ho⟩ := ht
      exact ⟨_, ho, Nat.zero_le _⟩
  | node kind ts =>
      obtain ⟨textLen, hash, cs, ho, hcs⟩ := ht
      refine ⟨_, ho, ?_⟩
      rw [GreenObj.refs, hcs.length_eq]
      exact hsmall.1

theorem kept_of_grown (h : Sound H w) (hgrown : ∀ p o, w.heap.store.obj p = some o → w'.heap.store.obj p = some o)
    {o : GreenObj η} (hobj : w.heap.store.obj r = some o) : Kept w.heap.store.obj w'.heap.store.obj r := by
  obtain ⟨rank, holders, h⟩ := h
  refine Kept.of_closed (S := (· ∈ holders)) (fun p hp c hc => interned_child_mem h hp hc) (fun p hp => ?_)
    (h.whole r o hobj)
  obtain ⟨o, ho⟩ := h.mem_live hp
  rw [ho, hgrown p o ho]

variable [DecidableEq η]

/-- A request in bounds: clients and the allocator keep to the rules, and no
reference count comes to 2^32. -/
def InBounds (w : World η) (req : Request) : Prop := Allowed w req ∧ Room w req

theorem step_sound (h : Sound H w) (hreq : InBounds w req) : ∃ w' answer, step H w req = some (w', answer) ∧
    Sound H w' := by
  cases req with
  | token addr kind text =>
      obtain ⟨w', a, hash, hstep, hanswered⟩ := step_token h hreq.1 hreq.2
      exact ⟨w', _, hstep, hanswered.sound⟩
  | node addr kind children =>
      obtain ⟨w', a, _, _, _, hstep, hanswered, -⟩ := step_node h hreq.1 hreq.2
      exact ⟨w', _, hstep, hanswered.sound⟩
  | retain r =>
      obtain ⟨w', _, hstep, hanswered⟩ := step_retain h hreq.1 hreq.2
      exact ⟨w', _, hstep, hanswered.sound⟩
  | release r =>
      obtain ⟨w', rank, holders, hstep, hinterned, -⟩ := step_release h hreq.1
      exact ⟨w', _, hstep, rank, holders, hinterned⟩

theorem later_sound (h : Later H InBounds w w') (hw : Sound H w) : Sound H w' := by
  induction h with
  | refl => exact hw
  | step _ hok hstep ih =>
      obtain ⟨w1, answer, hstep', hsound⟩ := step_sound ih hok
      rw [hstep, Option.some.injEq, Prod.mk.injEq] at hstep'
      exact hstep'.1 ▸ hsound

theorem step_kept (h : Sound H w) (hreq : InBounds w req) {answer : Option ElemRef}
    (hstep : step H w req = some (w', answer))
    (hr : Cached w r ∨ r ∈ w.owned ∧ r ∈ w'.owned) : Kept w.heap.store.obj w'.heap.store.obj r := by
  have hobj : ∃ o, w.heap.store.obj r = some o := by
    rcases hr with ⟨o, ho, -⟩ | ⟨hr, -⟩
    · exact ⟨o, ho⟩
    · obtain ⟨rank, holders, h⟩ := h
      exact h.mem_live (h.owned_mem hr)
  obtain ⟨o, ho⟩ := hobj
  cases req with
  | token addr kind text =>
      obtain ⟨w1, a, hash, hstep', hanswered⟩ := step_token h hreq.1 hreq.2
      rw [hstep, Option.some.injEq, Prod.mk.injEq] at hstep'
      exact kept_of_grown h (hstep'.1 ▸ hanswered.kept) ho
  | node addr kind children =>
      obtain ⟨w1, a, _, _, _, hstep', hanswered, -⟩ := step_node h hreq.1 hreq.2
      rw [hstep, Option.some.injEq, Prod.mk.injEq] at hstep'
      exact kept_of_grown h (hstep'.1 ▸ hanswered.kept) ho
  | retain r' =>
      obtain ⟨w1, _, hstep', hanswered⟩ := step_retain h hreq.1 hreq.2
      rw [hstep, Option.some.injEq, Prod.mk.injEq] at hstep'
      exact kept_of_grown h (hstep'.1 ▸ hanswered.kept) ho
  | release r' =>
      obtain ⟨w1, rank, holders, hstep', hinterned, -, hsame, hbase⟩ := step_release h hreq.1
      rw [hstep, Option.some.injEq, Prod.mk.injEq] at hstep'
      obtain ⟨rfl, -⟩ := hstep'
      refine Kept.of_closed (S := (· ∈ holders)) (fun p hp c hc => interned_child_mem hinterned hp ?_) hsame ?_
      · obtain ⟨o, ho, hmem⟩ := hc
        exact ⟨o, (hsame p hp).trans ho, hmem⟩
      · rcases hr with hr | ⟨-, hr⟩
        · exact hbase r hr.base_pos
        · exact hinterned.owned_mem hr

theorem later_kept (h : Later H InBounds w w') (hw : Sound H w) (hr : Cached w r) :
    Kept w.heap.store.obj w'.heap.store.obj r := by
  induction h with
  | refl => exact fun _ _ => rfl
  | step hlater hok hstep ih =>
      refine ih.trans (step_kept (later_sound hlater hw) hok hstep (.inl ?_))
      obtain ⟨o, ho, hfew⟩ := hr
      exact ⟨o, (ih r .refl).trans ho, hfew⟩

def Asks (w : World η) : Request → Green → Prop
  | .token _ kind text, t => t = .token ⟨kind, text⟩
  | .node _ kind children, t => ∃ ts, DenotesAll w.heap.store.obj children ts ∧ t = .node kind ts
  | .retain _, _ => False
  | .release _, _ => False

/-- The object is of the kind, and has the text or the children, of the
request. -/
def Exactly (w : World η) : Request → ElemRef → Prop
  | .token _ kind text, r => ∃ hash, w.heap.store.obj r = some (.token ⟨kind, text⟩ hash)
  | .node _ kind children, r =>
      ∃ textLen hash cs, w.heap.store.obj r = some (.node kind textLen hash cs) ∧ cs.map (·.ref) = children
  | .retain _, _ => False
  | .release _, _ => False

theorem step_exactly (h : Sound H w) (hreq : InBounds w req) (hstep : step H w req = some (w', some r)) :
    Exactly w' req r := by
  cases req with
  | token addr kind text =>
      obtain ⟨w1, a, hash, hstep', hanswered⟩ := step_token h hreq.1 hreq.2
      rw [hstep, Option.some.injEq, Prod.mk.injEq, Option.some.injEq] at hstep'
      obtain ⟨rfl, rfl⟩ := hstep'
      exact ⟨hash, hanswered.obj⟩
  | node addr kind children =>
      obtain ⟨w1, a, textLen, hash, cs, hstep', hanswered, hrefs⟩ := step_node h hreq.1 hreq.2
      rw [hstep, Option.some.injEq, Prod.mk.injEq, Option.some.injEq] at hstep'
      obtain ⟨rfl, rfl⟩ := hstep'
      exact ⟨textLen, hash, cs, hanswered.obj, hrefs⟩
  | retain r' =>
      obtain ⟨w1, _, hstep', -⟩ := step_retain h hreq.1 hreq.2
      rw [hstep] at hstep'
      simp at hstep'
  | release r' =>
      obtain ⟨w1, _, _, hstep', -⟩ := step_release h hreq.1
      rw [hstep] at hstep'
      simp at hstep'

theorem step_denotes (h : Sound H w) (hreq : InBounds w req) (hstep : step H w req = some (w', some r)) {t : Green}
    (hasks : Asks w req t) : Denotes w'.heap.store.obj r t := by
  have hexactly := step_exactly h hreq hstep
  cases req with
  | token addr kind text =>
      obtain rfl := hasks
      exact hexactly
  | node addr kind children =>
      obtain ⟨ts, hts, rfl⟩ := hasks
      obtain ⟨textLen, hash, cs, hobj, rfl⟩ := hexactly
      obtain ⟨w1, a, _, _, _, hstep', hanswered, -⟩ := step_node h hreq.1 hreq.2
      rw [hstep, Option.some.injEq, Prod.mk.injEq] at hstep'
      obtain ⟨rfl, -⟩ := hstep'
      refine ⟨textLen, hash, cs, hobj, hts.kept fun c hc => ?_⟩
      obtain ⟨o, ho⟩ : ∃ o, w.heap.store.obj c = some o := by
        obtain ⟨rank, holders, h⟩ := h
        exact h.mem_live (h.owned_mem (hreq.1.2 c hc))
      exact kept_of_grown h hanswered.kept ho
  | retain r' => exact absurd hasks id
  | release r' => exact absurd hasks id

/-- Requests for one tree within the limit, however far apart, are answered
with one object. -/
theorem answers_eq (h : Sound H w) (hreq : InBounds w req) {w1 : World η} (hstep : step H w req = some (w1, some r))
    {t : Green}
    (hasks : Asks w req t) (hsmall : Small t) {w2 w3 : World η} {req' : Request} {r' : ElemRef}
      (hlater : Later H InBounds w1 w2)
    (hreq' : InBounds w2 req') (hstep' : step H w2 req' = some (w3, some r')) (hasks' : Asks w2 req' t) : r' = r := by
  obtain ⟨w1', answer, hsame, hsound⟩ := step_sound h hreq
  rw [hstep, Option.some.injEq, Prod.mk.injEq] at hsame
  obtain ⟨rfl, -⟩ := hsame
  have hsound2 := later_sound hlater hsound
  have hlater' := Later.step hlater hreq' hstep'
  have hdenotes := step_denotes h hreq hstep hasks
  have hdenotes' := step_denotes hsound2 hreq' hstep' hasks'
  obtain ⟨rank, holders, hinterned⟩ := later_sound hlater' hsound
  have hkept := later_kept hlater' hsound (cached_of_denotes hdenotes hsmall)
  exact denotes_canonical hinterned.tabled hsmall hdenotes' (hdenotes.kept hkept)

theorem interning_canonical_green (h : Later H InBounds World.start w) :
    (∀ req, InBounds w req → ∃ w' answer, step H w req = some (w', answer)) ∧
    (∀ req w' r, InBounds w req → step H w req = some (w', some r) → Exactly w' req r) ∧
    (∀ req w1 r t w2 req' w3 r', InBounds w req → step H w req = some (w1, some r) → Asks w req t → Small t →
      Later H InBounds w1 w2 → InBounds w2 req' → step H w2 req' = some (w3, some r') → Asks w2 req' t → r' = r) ∧
    (∀ w' r, Later H InBounds w w' → Cached w r → Kept w.heap.store.obj w'.heap.store.obj r) := by
  have hsound : Sound H w := later_sound h ⟨_, _, Interned.start H⟩
  refine ⟨fun req hreq => ?_, fun req w' r hreq hstep => step_exactly hsound hreq hstep, ?_,
    fun w' r hlater hr => later_kept hlater hsound hr⟩
  · obtain ⟨w', answer, hstep, -⟩ := step_sound hsound hreq
    exact ⟨w', answer, hstep⟩
  · intro req w1 r t w2 req' w3 r' hreq hstep hasks hsmall hlater hreq' hstep' hasks'
    exact answers_eq hsound hreq hstep hasks hsmall hlater hreq' hstep' hasks'

def collidingHashing : Hashing Unit := ⟨fun _ _ => (), fun _ _ => ()⟩

def newlineRequest (addr : Nat) : Request := .token addr .newline [10]

def newlines (k : Nat) : World Unit :=
  ⟨⟨⟨Function.update (fun _ => none) (.token 0) (some (.token ⟨.newline, [10]⟩ ())),
    Function.update (fun _ => 0) (.token 0) ((k + 1) % 2 ^ 32)⟩, 1⟩,
      ⟨fun _ => [], Function.update (fun _ => []) () [0]⟩,
    List.replicate k (.token 0)⟩

theorem newlines_obj (k : Nat) : (newlines k).heap.store.obj (.token 0) = some (.token ⟨.newline, [10]⟩ ()) := by
  simp [newlines]

theorem step_first : step collidingHashing World.start (newlineRequest 0) = some (newlines 1, some (.token 0)) := by
  simp only [newlineRequest, step, nodeCacheInternToken, World.start, nodeCacheNew, List.find?_nil, greenTokenAlloc]
  rw [greenRetain_placed ⟨fun _ => none, fun _ => 0⟩]
  rfl

theorem step_again (k : Nat) :
    step collidingHashing (newlines k) (newlineRequest 1) = some (newlines (k + 1), some (.token 0)) := by
  simp [newlineRequest, step, nodeCacheInternToken, newlines, collidingHashing, greenTokenEquals, greenRetain,
    List.replicate_succ]

theorem allowed_first : Allowed (World.start : World Unit) (newlineRequest 0) := rfl

theorem allowed_again (k : Nat) : Allowed (newlines k) (newlineRequest 1) := by
  simp [Allowed, newlines, newlineRequest]

theorem interning_canonical_twice :
    ∃ w r, step collidingHashing (newlines 1) (newlineRequest 1) = some (w, some r) ∧ r = .token 0 := by
  refine ⟨_, _, step_again 1, ?_⟩
  refine (interning_canonical_green (H := collidingHashing) .refl).2.2.1 _ _ _ (.token ⟨.newline, [10]⟩) _ _ _ _
    ⟨allowed_first, ?_⟩ step_first rfl trivial .refl ⟨allowed_again 1, ?_⟩ (step_again 1) rfl
  · intro a ha
    simp [greenTokenEquals, World.start] at ha
  · intro a ha
    by_cases haz : a = 0
    · subst haz
      simp [newlines]
    · simp [greenTokenEquals, newlines, haz] at ha

theorem later_newlines (k : Nat) : Later collidingHashing Allowed World.start (newlines (k + 1)) := by
  induction k with
  | zero => exact .step .refl allowed_first step_first
  | succ k ih => exact .step ih (allowed_again (k + 1)) (step_again (k + 1))

/-- The count is back at one while the cache and the clients hold the token. -/
theorem step_wrapped {k : Nat} (hk : (k + 1) % 2 ^ 32 = 1) :
    ∃ w, step collidingHashing (newlines k) (.release (.token 0)) = some (w, none) ∧
      w.heap.store.obj (.token 0) = none := by
  refine ⟨⟨⟨⟨Function.update (newlines k).heap.store.obj (.token 0) none,
    Function.update (newlines k).heap.store.count (.token 0) 0⟩, 1⟩,
    (newlines k).cache, (newlines k).owned.erase (.token 0)⟩, ?_, by simp⟩
  simp only [Nat.reducePow] at hk
  simp [step, greenRelease, newlines, hk, release, kidsAt, GreenObj.refs]

/-- A newline asked for 2^32 times and released once is freed while it is
interned. -/
theorem interned_freed : ¬∀ w w' r, Later collidingHashing Allowed World.start w → Later collidingHashing Allowed w w' →
    Cached w r → Kept w.heap.store.obj w'.heap.store.obj r := by
  intro hall
  obtain ⟨w, hstep, hfreed⟩ := step_wrapped (k := 2 ^ 32 - 1 + 1) (by decide)
  have hallowed : Allowed (newlines (2 ^ 32 - 1 + 1)) (.release (.token 0)) := List.mem_cons_self ..
  have hobj := newlines_obj (2 ^ 32 - 1 + 1)
  have hkept := hall _ _ _ (later_newlines (2 ^ 32 - 1)) (.step .refl hallowed hstep) ⟨_, hobj, Nat.zero_le _⟩
    (.token 0) .refl
  rw [hobj, hfreed] at hkept
  simp at hkept

end Ore.GreenCacheCanonical
