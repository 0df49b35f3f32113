import Mathlib.Algebra.Order.BigOperators.Group.Finset
import Mathlib.Tactic.Common

namespace Ore.RefCounts

/-- Objects at addresses, each with a count of the references to it. -/
structure Store (α β : Type*) where
  obj : α → Option β
  count : α → Nat

variable {α β : Type*} [DecidableEq α] (kids : β → List α)

def kidsAt (s : Store α β) (a : α) : List α := ((s.obj a).map kids).getD []

def retain (s : Store α β) (a : α) : Store α β := { s with count := Function.update s.count a (s.count a + 1) }

/-- Drop one reference; an object without references drops those it holds and
is freed. -/
def release : Nat → Store α β → α → Option (Store α β)
  | 0, _, _ => none
  | fuel + 1, s, a =>
      if s.count a = 0 then none
      else
        let s := { s with count := Function.update s.count a (s.count a - 1) }
        if 0 < s.count a then some s
        else ((kidsAt kids s a).foldlM (release fuel) s).map fun s => { s with obj := Function.update s.obj a none }

def innerRefs (s : Store α β) (holders : Finset α) (a : α) : Nat := ∑ p ∈ holders, (kidsAt kids s p).count a

/-- References from outside, and those of a list besides. -/
def plus (held : α → Nat) (l : List α) : α → Nat := fun a => held a + l.count a

/-- Every count is the number of references, from the holders and from outside.
References lead to holders, and downwards in rank. -/
structure Counted (s : Store α β) (rank : α → Nat) (n : Nat) (holders : Finset α) (held : α → Nat) : Prop where
  live : ∀ p ∈ holders, (s.obj p).isSome
  counts : ∀ a ∈ holders, s.count a = innerRefs kids s holders a + held a
  closed : ∀ a, 0 < innerRefs kids s holders a + held a → a ∈ holders
  ranked : ∀ p ∈ holders, rank p < n ∧ ∀ c ∈ kidsAt kids s p, rank c < rank p

/-- What a release does to the objects. -/
structure Freed (s s' : Store α β) (holders holders' : Finset α) : Prop where
  sub : holders' ⊆ holders
  kept : ∀ p, p ∈ holders' ∨ p ∉ holders → s'.obj p = s.obj p
  gone : ∀ p ∈ holders, p ∉ holders' → s'.obj p = none

variable {kids} {s s' s'' : Store α β} {rank : α → Nat} {n : Nat} {holders holders' holders'' : Finset α}
    {held held' : α → Nat}
  {l : List α} {a : α} {b : β}

theorem plus_cons (held : α → Nat) (a : α) (l : List α) (x : α) :
    plus held (a :: l) x = plus held l x + if a = x then 1 else 0 := by
  simp [plus, List.count_cons, Nat.add_assoc]

theorem innerRefs_congr (h : ∀ p ∈ holders, s'.obj p = s.obj p) (a : α) :
    innerRefs kids s' holders a = innerRefs kids s holders a := by
  refine Finset.sum_congr rfl fun p hp => ?_
  rw [kidsAt, kidsAt, h p hp]

theorem count_le_innerRefs {p c : α} (hp : p ∈ holders) : (kidsAt kids s p).count c ≤ innerRefs kids s holders c :=
  Finset.single_le_sum (f := fun p => (kidsAt kids s p).count c) (fun _ _ => Nat.zero_le _) hp

namespace Freed

omit [DecidableEq α] in
theorem refl (s : Store α β) (holders : Finset α) : Freed s s holders holders :=
  ⟨Finset.Subset.refl _, fun _ _ => rfl, fun _ hp hnot => absurd hp hnot⟩

theorem trans (h : Freed s s' holders holders') (h' : Freed s' s'' holders' holders'') :
    Freed s s'' holders holders'' where
  sub := h'.sub.trans h.sub
  kept p hp := by
    rcases hp with hp | hp
    · rw [h'.kept p (.inl hp), h.kept p (.inl (h'.sub hp))]
    · rw [h'.kept p (.inr fun hmem => hp (h.sub hmem)), h.kept p (.inr hp)]
  gone p hp hnot := by
    by_cases hmem : p ∈ holders'
    · exact h'.gone p hmem hnot
    · rw [h'.kept p (.inr hmem), h.gone p hp hmem]

end Freed

namespace Counted

theorem kid_mem (h : Counted kids s rank n holders held) {p c : α} (hp : p ∈ holders) (hc : c ∈ kidsAt kids s p) :
    c ∈ holders := by
  refine h.closed c ?_
  have : (kidsAt kids s p).count c ≤ innerRefs kids s holders c := count_le_innerRefs hp
  have := List.count_pos_iff.mpr hc
  omega

theorem mem_of_held (h : Counted kids s rank n holders held) (ha : 0 < held a) : a ∈ holders :=
  h.closed a (Nat.lt_of_lt_of_le ha (Nat.le_add_left _ _))

theorem congr (h : Counted kids s rank n holders held) (hobj : ∀ p ∈ holders, s'.obj p = s.obj p)
    (hcounts : ∀ a ∈ holders, s'.count a = innerRefs kids s holders a + held' a)
    (hclosed : ∀ a, 0 < innerRefs kids s holders a + held' a → a ∈ holders) : Counted kids s' rank n holders held' where
  live p hp := by
    rw [hobj p hp]
    exact h.live p hp
  counts a ha := by rw [innerRefs_congr hobj, hcounts a ha]
  closed a ha := hclosed a (by rwa [innerRefs_congr hobj] at ha)
  ranked p hp := by
    rw [kidsAt, hobj p hp]
    exact h.ranked p hp

theorem retain (h : Counted kids s rank n holders (plus held l)) (ha : a ∈ holders) :
    Counted kids (RefCounts.retain s a) rank n holders (plus held (a :: l)) := by
  refine h.congr (fun _ _ => rfl) (fun x hx => ?_) (fun x hx => ?_)
  · have hcount := h.counts x hx
    rw [plus_cons]
    by_cases hax : a = x
    · subst hax
      simp only [RefCounts.retain, Function.update_self, if_true, hcount]
      omega
    · simp only [RefCounts.retain, Function.update_of_ne (Ne.symm hax), if_neg hax, hcount]
      omega
  · by_cases hax : a = x
    · exact hax ▸ ha
    · refine h.closed x ?_
      rw [plus_cons, if_neg hax] at hx
      exact hx

/-- One reference fewer, while others remain. -/
theorem drop (h : Counted kids s rank n holders (plus held (a :: l))) :
    Counted kids { s with count := Function.update s.count a (s.count a - 1) } rank n holders (plus held l) := by
  refine h.congr (fun _ _ => rfl) (fun x hx => ?_) (fun x hx => h.closed x ?_)
  · have hcount := h.counts x hx
    rw [plus_cons] at hcount
    by_cases hax : a = x
    · subst hax
      simp only [Function.update_self, hcount, if_true]
      omega
    · simp only [Function.update_of_ne (Ne.symm hax), hcount, if_neg hax]
      omega
  · rw [plus_cons]
    omega

theorem innerRefs_erase (s : Store α β) (ha : a ∈ holders) (x : α) :
    innerRefs kids s holders x = (kidsAt kids s a).count x + innerRefs kids s (holders.erase a) x :=
  (Finset.add_sum_erase _ _ ha).symm

/-- An object without references gives up those it holds. -/
theorem retire (h : Counted kids s rank n holders (plus held l)) (ha : a ∈ holders) (hzero : s.count a = 0) :
    Counted kids s rank n (holders.erase a) (plus held (kidsAt kids s a ++ l)) := by
  have hsame (x : α) : innerRefs kids s (holders.erase a) x + plus held (kidsAt kids s a ++ l) x = innerRefs kids s
    holders x + plus held l x := by
    rw [innerRefs_erase s ha, plus, plus, List.count_append]
    omega
  refine ⟨fun p hp => h.live p (Finset.mem_of_mem_erase hp), fun x hx => ?_, fun x hx => ?_,
    fun p hp => h.ranked p (Finset.mem_of_mem_erase hp)⟩
  · rw [hsame, h.counts x (Finset.mem_of_mem_erase hx)]
  · rw [hsame] at hx
    refine Finset.mem_erase.mpr ⟨?_, h.closed x hx⟩
    rintro rfl
    have := h.counts x ha
    omega

theorem release_spec (fuel : Nat) :
    (∀ s holders a l, Counted kids s rank n holders (plus held (a :: l)) → rank a < fuel →
      ∃ s' holders', release kids fuel s a = some s' ∧ Counted kids s' rank n holders' (plus held l) ∧
        Freed s s' holders holders') ∧
    (∀ as s holders l, Counted kids s rank n holders (plus held (as ++ l)) → (∀ a ∈ as, rank a < fuel) →
      ∃ s' holders', as.foldlM (release kids fuel) s = some s' ∧ Counted kids s' rank n holders' (plus held l) ∧
        Freed s s' holders holders') := by
  induction fuel with
  | zero =>
      refine ⟨fun s holders a l _ hlt => absurd hlt (Nat.not_lt_zero _), fun as s holders l h hlt => ?_⟩
      cases as with
      | nil => exact ⟨s, holders, rfl, h, .refl s holders⟩
      | cons a as => exact absurd (hlt a (List.mem_cons_self ..)) (Nat.not_lt_zero _)
  | succ fuel ih =>
      have hone : ∀ s holders a l, Counted kids s rank n holders (plus held (a :: l)) → rank a < fuel + 1 →
          ∃ s' holders', release kids (fuel + 1) s a = some s' ∧ Counted kids s' rank n holders' (plus held l) ∧
            Freed s s' holders holders' := by
        intro s holders a l h hlt
        have ha : a ∈ holders := h.mem_of_held (by rw [plus_cons, if_pos rfl]; omega)
        have hpos : s.count a ≠ 0 := by
          rw [h.counts a ha, plus_cons, if_pos rfl]
          omega
        have hdrop := h.drop
        rw [release, if_neg hpos]
        dsimp only
        by_cases hlast : 0 < Function.update s.count a (s.count a - 1) a
        · rw [if_pos hlast]
          exact ⟨_, holders, rfl, hdrop, ⟨Finset.Subset.refl _, fun _ _ => rfl, fun _ hp hnot => absurd hp hnot⟩⟩
        · rw [if_neg hlast]
          have hretire := hdrop.retire ha (Nat.eq_zero_of_not_pos hlast)
          obtain ⟨s', holders', hfold, hcounted, hfreed⟩ := ih.2 _ _ _ _ hretire fun c hc =>
            Nat.lt_of_lt_of_le ((hdrop.ranked a ha).2 c hc) (Nat.le_of_lt_succ hlt)
          have hnot : a ∉ holders' := fun hmem => absurd (hfreed.sub hmem) (Finset.notMem_erase a holders)
          have hother {p : α} (hpa : p ≠ a) : Function.update s'.obj a none p = s'.obj p := Function.update_of_ne hpa
            _ _
          refine ⟨{ s' with obj := Function.update s'.obj a none }, holders', by rw [hfold, Option.map_some],
            hcounted.congr (fun p hp => hother (ne_of_mem_of_not_mem hp hnot)) hcounted.counts hcounted.closed, ?_⟩
          refine ⟨hfreed.sub.trans (Finset.erase_subset _ _), fun p hp => ?_, fun p hp hgone => ?_⟩
          · have hpa : p ≠ a := by
              rintro rfl
              exact hp.elim hnot fun hp => hp ha
            exact (hother hpa).trans (hfreed.kept p (hp.imp_right fun hp hmem => hp (Finset.mem_of_mem_erase hmem)))
          · by_cases hpa : p = a
            · subst hpa
              exact Function.update_self ..
            · exact (hother hpa).trans (hfreed.gone p (Finset.mem_erase.mpr ⟨hpa, hp⟩) hgone)
      refine ⟨hone, fun as => ?_⟩
      induction as with
      | nil => exact fun s holders l h _ => ⟨s, holders, rfl, h, .refl s holders⟩
      | cons a as ihas =>
          intro s holders l h hlt
          obtain ⟨s1, holders1, hrel, hcounted, hfreed⟩ := hone s holders a (as ++ l) h (hlt a (List.mem_cons_self ..))
          obtain ⟨s2, holders2, hfold, hcounted', hfreed'⟩ := ihas s1 holders1 l hcounted fun c hc =>
            hlt c (List.mem_cons_of_mem _ hc)
          exact ⟨s2, holders2, by rw [List.foldlM_cons, hrel]; exact hfold, hcounted', hfreed.trans hfreed'⟩

/-- A new object takes over references and is referred to from outside only. -/
theorem place (h : Counted kids s rank n holders (plus held (kids b ++ l))) (hfree : s.obj a = none) {k : Nat}
    (hheld : ∀ x, held' x = if x = a then k else plus held l x) :
    Counted kids ⟨Function.update s.obj a (some b), Function.update s.count a k⟩ (Function.update rank a n) (n + 1)
      (insert a holders)
      held' := by
  have hnew : a ∉ holders := fun hmem => by
    have := h.live a hmem
    simp [hfree] at this
  have hnone : innerRefs kids s holders a + plus held (kids b ++ l) a = 0 := by
    by_contra hne
    exact hnew (h.closed a (Nat.pos_of_ne_zero hne))
  have hold : ∀ p ∈ holders, Function.update s.obj a (some b) p = s.obj p := fun p hp =>
    Function.update_of_ne (ne_of_mem_of_not_mem hp hnew) _ _
  have hkids : kidsAt kids ⟨Function.update s.obj a (some b), Function.update s.count a k⟩ a = kids b := by simp
    [kidsAt]
  have hinner (x : α) : innerRefs kids ⟨Function.update s.obj a (some b), Function.update s.count a k⟩
    (insert a holders) x =
      (kids b).count x + innerRefs kids s holders x := by
    rw [innerRefs, Finset.sum_insert hnew, hkids]
    exact congrArg _ (innerRefs_congr hold x)
  have hsplit (x : α) : plus held (kids b ++ l) x = plus held l x + (kids b).count x := by
    rw [plus, plus, List.count_append]
    omega
  have hself : innerRefs kids ⟨Function.update s.obj a (some b), Function.update s.count a k⟩ (insert a holders) a =
    0 := by
    rw [hinner]
    have := hsplit a
    omega
  refine ⟨fun p hp => ?_, fun x hx => ?_, fun x hx => ?_, fun p hp => ?_⟩
  · rcases Finset.mem_insert.mp hp with rfl | hp
    · simp
    · simp only [hold p hp]
      exact h.live p hp
  · by_cases hxa : x = a
    · subst hxa
      rw [hself, hheld, if_pos rfl, Nat.zero_add]
      exact Function.update_self ..
    · have hx := Finset.mem_of_mem_insert_of_ne hx hxa
      rw [hinner, hheld, if_neg hxa]
      have hcount := h.counts x hx
      rw [hsplit] at hcount
      simp only [Function.update_of_ne hxa]
      omega
  · by_cases hxa : x = a
    · exact hxa ▸ Finset.mem_insert_self ..
    · rw [hinner, hheld, if_neg hxa] at hx
      refine Finset.mem_insert_of_mem (h.closed x ?_)
      rw [hsplit]
      omega
  · have hsmall {c : α} (hc : c ∈ holders) : Function.update rank a n c = rank c :=
      Function.update_of_ne (ne_of_mem_of_not_mem hc hnew) _ _
    rcases Finset.mem_insert.mp hp with rfl | hp
    · rw [hkids, Function.update_self]
      refine ⟨Nat.lt_succ_self n, fun c hc => ?_⟩
      have hmem : c ∈ holders := h.mem_of_held (by
        have := List.count_pos_iff.mpr hc
        rw [hsplit]
        omega)
      rw [hsmall hmem]
      exact (h.ranked c hmem).1
    · have hkept : kidsAt kids ⟨Function.update s.obj a (some b), Function.update s.count a k⟩ p = kidsAt kids s p :=
        congrArg (fun o => (o.map kids).getD []) (hold p hp)
      rw [hkept, hsmall hp]
      refine ⟨Nat.lt_succ_of_lt (h.ranked p hp).1, fun c hc => ?_⟩
      rw [hsmall (h.kid_mem hp hc)]
      exact (h.ranked p hp).2 c hc

end Counted

end Ore.RefCounts
