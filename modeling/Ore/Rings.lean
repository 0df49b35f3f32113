import Mathlib.Data.List.Chain
import Mathlib.Data.List.Iterate
import Mathlib.Data.List.Nodup
import Mathlib.Logic.Function.Basic

namespace Ore.Rings

variable {α : Type*} {next prev next' prev' : α → α} {a b e p : α} {l l₁ l₂ : List α}

/-- Two neighbours name each other. -/
def Joined (next prev : α → α) (a b : α) : Prop := next a = b ∧ prev b = a

/-- A circular doubly-linked list, written from one of its elements on. -/
structure IsRing (next prev : α → α) (l : List α) : Prop where
  nodup : l.Nodup
  chain : l.IsChain (Joined next prev)
  closed : ∀ a ∈ l.getLast?, ∀ b ∈ l.head?, Joined next prev a b

section Reading

theorem IsRing.nil (next prev : α → α) : IsRing next prev [] := ⟨.nil, .nil, nofun⟩

theorem isRing_single : IsRing next prev [a] ↔ next a = a ∧ prev a = a := by
  constructor
  · intro h
    exact h.closed a rfl a rfl
  · intro h
    refine ⟨List.nodup_singleton a, .singleton a, ?_⟩
    rintro x hx y hy
    obtain rfl := Option.some.inj hx
    obtain rfl := Option.some.inj hy
    exact h

theorem IsRing.rotate (h : IsRing next prev (l₁ ++ l₂)) : IsRing next prev (l₂ ++ l₁) := by
  cases l₁ with
  | nil => simpa using h
  | cons a t₁ =>
      cases l₂ with
      | nil => simpa using h
      | cons b t₂ =>
          obtain ⟨hfirst, hsecond, hmid⟩ := List.isChain_append.mp h.chain
          refine ⟨List.nodup_append_comm.mp h.nodup, List.isChain_append.mpr ⟨hsecond, hfirst, ?_⟩, ?_⟩
          · intro x hx y hy
            apply h.closed x _ y hy
            rw [Option.mem_def, List.getLast?_append, Option.mem_def.mp hx, Option.some_or]
          · intro x hx y hy
            apply hmid x _ y hy
            rw [List.getLast?_append, List.getLast?_cons, Option.some_or] at hx
            rwa [List.getLast?_cons]

theorem IsRing.reverse (h : IsRing next prev l) : IsRing prev next l.reverse := by
  refine ⟨List.nodup_reverse.mpr h.nodup, ?_, ?_⟩
  · rw [List.isChain_reverse]
    exact h.chain.imp fun _ _ hab => ⟨hab.2, hab.1⟩
  · intro x hx y hy
    rw [List.getLast?_reverse] at hx
    rw [List.head?_reverse] at hy
    exact (h.closed y hy x hx).symm

theorem chain_iterate {t : List α} (h : (a :: t).IsChain (Joined next prev)) :
    List.iterate next a (t.length + 1) = a :: t := by
  induction t generalizing a with
  | nil => rfl
  | cons b t ih =>
      obtain ⟨hab, ht⟩ := List.isChain_cons_cons.mp h
      rw [List.length_cons, List.iterate, hab.1, ih ht]

/-- The traversal by `next` visits the elements in order and comes back. -/
theorem IsRing.forward {t : List α} (h : IsRing next prev (a :: t)) :
    List.iterate next a (t.length + 1) = a :: t ∧ next^[t.length + 1] a = a := by
  have hwalk := chain_iterate h.chain
  refine ⟨hwalk, ?_⟩
  have hbound : t.length < (List.iterate next a (t.length + 1)).length := by
    rw [List.length_iterate]
    exact Nat.lt_succ_self _
  have hlast : (a :: t).getLast? = some (next^[t.length] a) := by
    rw [List.getLast?_eq_getElem?, List.length_cons, Nat.add_sub_cancel, ← List.getElem_iterate next a _ _ hbound,
      ← List.getElem?_eq_getElem hbound, hwalk]
  rw [Function.iterate_succ_apply']
  exact (h.closed _ hlast a rfl).1

/-- The traversal by `prev` from behind the first element visits the elements backward. -/
theorem IsRing.backward {t : List α} (h : IsRing next prev (a :: t)) :
    List.iterate prev (prev a) (t.length + 1) = (a :: t).reverse := by
  obtain ⟨b, s, hreverse⟩ := List.exists_cons_of_ne_nil (List.reverse_ne_nil_iff.mpr (List.cons_ne_nil a t))
  have hturned := h.reverse
  rw [hreverse] at hturned ⊢
  have hlength : s.length = t.length := by
    have := congrArg List.length hreverse
    simpa using this.symm
  have hfirst : prev a = b := by
    have hhead : b ∈ (a :: t).getLast? := by
      rw [Option.mem_def, ← List.head?_reverse, hreverse, List.head?_cons]
    exact (h.closed b hhead a rfl).2
  rw [hfirst, ← hlength]
  exact hturned.forward.1

theorem IsRing.next_of_mid (h : IsRing next prev (l₁ ++ a :: b :: l₂)) : next a = b ∧ prev b = a := by
  have htail := (List.isChain_append.mp h.chain).2.1
  exact (List.isChain_cons_cons.mp htail).1

theorem IsRing.neighbours (h : IsRing next prev (e :: l)) (hb : l.head? = some b) (hp : l.getLast? = some p) :
    Joined next prev e b ∧ Joined next prev p e := by
  refine ⟨(List.isChain_cons.mp h.chain).1 b hb, h.closed p ?_ e rfl⟩
  rw [Option.mem_def, List.getLast?_cons, hp, Option.getD_some]

/-- The functions matter on the elements only. -/
theorem IsRing.congr (h : IsRing next prev l) (hsame : ∀ a ∈ l, next' a = next a ∧ prev' a = prev a) :
    IsRing next' prev' l := by
  refine ⟨h.nodup, ?_, ?_⟩
  · refine h.chain.imp_of_mem_imp fun x y hx hy hxy => ?_
    exact ⟨(hsame x hx).1.trans hxy.1, (hsame y hy).2.trans hxy.2⟩
  · intro x hx y hy
    obtain ⟨hnext, hprev⟩ := h.closed x hx y hy
    exact ⟨(hsame x (List.mem_of_getLast? hx)).1.trans hnext, (hsame y (List.mem_of_head? hy)).2.trans hprev⟩

end Reading

section Writing

theorem chain_ends (h : l.IsChain (Joined next prev)) (hnodup : l.Nodup)
    (hnext : ∀ a ∈ l, a ∉ l.getLast? → next' a = next a) (hprev : ∀ a ∈ l, a ∉ l.head? → prev' a = prev a) :
    l.IsChain (Joined next' prev') := by
  induction l with
  | nil => exact .nil
  | cons a t ih =>
      cases t with
      | nil => exact .singleton a
      | cons b t =>
          obtain ⟨hab, ht⟩ := List.isChain_cons_cons.mp h
          obtain ⟨hout, hrest⟩ := List.nodup_cons.mp hnodup
          refine List.isChain_cons_cons.mpr ⟨⟨?_, ?_⟩, ih ht hrest ?_ ?_⟩
          · rw [hnext a List.mem_cons_self, hab.1]
            intro hlast
            rw [List.getLast?_cons_cons] at hlast
            exact hout (List.mem_of_getLast? hlast)
          · rw [hprev b (List.mem_cons_of_mem a List.mem_cons_self), hab.2]
            rintro ⟨⟩
            exact hout List.mem_cons_self
          · intro x hx hlast
            apply hnext x (List.mem_cons_of_mem a hx)
            rwa [List.getLast?_cons_cons]
          · intro x hx hhead
            apply hprev x (List.mem_cons_of_mem a hx)
            rintro ⟨⟩
            exact hout hx

variable [DecidableEq α]

theorem IsRing.insert (h : IsRing next prev l) (he : e ∉ l) (hb : l.head? = some b) (hp : l.getLast? = some p) :
    IsRing (Function.update (Function.update next e b) p e) (Function.update (Function.update prev e p) b e)
      (e :: l) := by
  have hbmem : b ∈ l := List.mem_of_head? hb
  have hpmem : p ∈ l := List.mem_of_getLast? hp
  have heb : e ≠ b := fun heq => he (heq ▸ hbmem)
  have hep : e ≠ p := fun heq => he (heq ▸ hpmem)
  refine ⟨List.nodup_cons.mpr ⟨he, h.nodup⟩, List.isChain_cons.mpr ⟨?_, ?_⟩, ?_⟩
  · intro y hy
    obtain rfl := Option.some.inj (hb.symm.trans hy)
    constructor
    · rw [Function.update_of_ne hep, Function.update_self]
    · rw [Function.update_self]
  · refine chain_ends h.chain h.nodup (fun x hx hlast => ?_) fun x hx hhead => ?_
    · have hxp : x ≠ p := fun heq => hlast (heq ▸ hp)
      have hxe : x ≠ e := fun heq => he (heq ▸ hx)
      rw [Function.update_of_ne hxp, Function.update_of_ne hxe]
    · have hxb : x ≠ b := fun heq => hhead (heq ▸ hb)
      have hxe : x ≠ e := fun heq => he (heq ▸ hx)
      rw [Function.update_of_ne hxb, Function.update_of_ne hxe]
  · intro x hx y hy
    obtain rfl := Option.some.inj hy
    rw [List.getLast?_cons, hp] at hx
    obtain rfl := Option.some.inj hx
    constructor
    · rw [Option.getD_some, Function.update_self]
    · rw [Option.getD_some, Function.update_of_ne heb, Function.update_self]

/-- The element in front is left out, its neighbours joined. -/
theorem IsRing.remove (h : IsRing next prev (e :: l)) (hb : l.head? = some b) (hp : l.getLast? = some p) :
    IsRing (Function.update next p b) (Function.update prev b p) l := by
  have hnodup := (List.nodup_cons.mp h.nodup).2
  have hchain := (List.isChain_cons.mp h.chain).2
  refine ⟨hnodup, chain_ends hchain hnodup (fun x _ hlast => ?_) fun x _ hhead => ?_, ?_⟩
  · have hxp : x ≠ p := fun heq => hlast (heq ▸ hp)
    exact Function.update_of_ne hxp _ _
  · have hxb : x ≠ b := fun heq => hhead (heq ▸ hb)
    exact Function.update_of_ne hxb _ _
  · intro x hx y hy
    obtain rfl := Option.some.inj (hp.symm.trans hx)
    obtain rfl := Option.some.inj (hb.symm.trans hy)
    exact ⟨Function.update_self _ _ _, Function.update_self _ _ _⟩

end Writing

end Ore.Rings
