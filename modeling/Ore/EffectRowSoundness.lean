import Ore.EffectRowUnify

namespace Ore.EffectRowSoundness

open BindingGraph EffectRows EffectRowReads EffectRowUnify

variable {σ σ' : RowSubst}

section Transport

theorem same_reading (h : Extends σ σ') {a a' : Row} {w w' : Multiset Nat} {e e' : Option Nat}
    (ha : Flattens σ a w e) (ha' : Flattens σ a' w e) (hr : Flattens σ' a' w' e') :
    Flattens σ' a w' e' := by
  cases h with
  | same =>
      obtain ⟨rfl, rfl⟩ := ha'.unique hr
      exact ha
  | bind hfree hflat hne =>
      obtain ⟨hw, he⟩ := (Flattens.bind hfree hflat hne ha').unique hr
      rw [← hw, ← he]
      exact Flattens.bind hfree hflat hne ha

theorem Unified.extends {a b : Row} {ok : Bool} (h : Unified σ a b ok σ') (ha : Flat σ a) (hb : Flat σ b)
    (hs : ¬ SharedTail a b) : Extends σ σ' := by
  cases h with
  | equal => exact .same
  | refused => exact .same
  | left hi hne hr ht _ => exact .bind (ha.free _ hi) hr (ht ▸ hne)
  | right hi hne hr ht _ => exact .bind (hb.free _ hi) hr (ht ▸ hne)
  | subtract _ hi hne hr ht _ => exact .bind (hb.free _ hi) hr (ht ▸ hne)
  | cycle h => exact absurd h hs

theorem Unified.refused_same {a b : Row} (h : Unified σ a b false σ') : σ' = σ := by
  cases h
  rfl

theorem Unified.labels {a b : Row} (h : Unified σ a b true σ') (ha : Flat σ a) (hb : Flat σ b)
    (hs : ¬ SharedTail a b) :
    ∃ A ea B eb, Flattens σ' a A ea ∧ Flattens σ' b B eb ∧ A ≤ B ∧ (¬ Subtractive a b → A = B) := by
  cases h with
  | equal h =>
      subst h
      exact ⟨_, _, _, _, ha.flattens, ha.flattens, le_rfl, fun _ => rfl⟩
  | left hi hne hr ht hl =>
      have hfree := ha.free _ hi
      have ha' := Flattens.bind hfree hr (ht ▸ hne) ha.flattens
      have hb' := Flattens.bind hfree hr (ht ▸ hne) hb.flattens
      rw [if_pos hi, if_pos hi, hl] at ha'
      rw [if_neg hne, if_neg hne] at hb'
      exact ⟨_, _, _, _, ha', hb', le_rfl, fun _ => rfl⟩
  | right hi hne hr ht hl =>
      have hfree := hb.free _ hi
      have ha' := Flattens.bind hfree hr (ht ▸ hne) ha.flattens
      have hb' := Flattens.bind hfree hr (ht ▸ hne) hb.flattens
      rw [if_neg hne, if_neg hne] at ha'
      rw [if_pos hi, if_pos hi, hl] at hb'
      exact ⟨_, _, _, _, ha', hb', le_rfl, fun _ => rfl⟩
  | subtract hsub hi hne hr ht hl =>
      have hfree := hb.free _ hi
      have ha' := Flattens.bind hfree hr (ht ▸ hne) ha.flattens
      have hb' := Flattens.bind hfree hr (ht ▸ hne) hb.flattens
      rw [if_neg hne, if_neg hne] at ha'
      rw [if_pos hi, if_pos hi] at hb'
      exact ⟨_, _, _, _, ha', hb', hl, fun h => absurd hsub h⟩
  | cycle h => exact absurd h hs

end Transport

section Depth

theorem rowUnify_mono {a b : Row} {d : Nat} {res : Bool × RowSubst}
    (h : rowUnify σ d a b = some res) : ∀ n, rowUnify σ (d + n) a b = some res := by
  induction d generalizing a b with
  | zero => simp [rowUnify] at h
  | succ d ih =>
      intro n
      rw [Nat.succ_add, rowUnify]
      rw [rowUnify] at h
      by_cases heq : rowFlatten σ a = rowFlatten σ b
      · simpa only [heq, if_true] using h
      · cases hav : (rowFlatten σ a).varId <;> cases hbv : (rowFlatten σ b).varId <;>
          simp only [heq, hav, hbv, if_false] at h ⊢ <;> try exact h
        split_ifs at h ⊢
        · exact ih h n
        · exact h
        · exact h

theorem rowUnify_unique {a b : Row} {d d' : Nat} {res res' : Bool × RowSubst}
    (h : rowUnify σ d a b = some res) (h' : rowUnify σ d' a b = some res') : res = res' := by
  have hd := rowUnify_mono h d'
  have hd' := rowUnify_mono h' d
  rw [Nat.add_comm] at hd'
  exact Option.some.inj (hd.symm.trans hd')

end Depth

section Soundness

/-- After a call that returns true the labels of `a` are among those of `b`, the
same unless labels were subtracted, and every earlier binding stands; a call
that returns false leaves the substitution as it was. -/
def UnifySound (σ : RowSubst) (a b : Row) : Prop :=
  ∃ ok σ', (∃ depth, rowUnify σ depth a b = some (ok, σ')) ∧
    (ok = true →
      (∃ A ea B eb, Flattens σ' a A ea ∧ Flattens σ' b B eb ∧ A ≤ B ∧
        (¬ Subtractive (rowFlatten σ a) (rowFlatten σ b) → A = B)) ∧
      ∀ i r, binding σ i = some r → binding σ' i = some r) ∧
    (ok = false → σ' = σ)

def UnionAtomic (σ : RowSubst) (a b : Row) : Prop :=
  ∀ depth σ', rowUnion depth σ a b = some (.none, σ') → σ' = σ

theorem rowUnify_refused {a b : Row} {d : Nat} (h : rowUnify σ d a b = some (false, σ')) : σ' = σ := by
  have hbind : ∀ {i r}, bindChecked σ i r = (false, σ') → σ' = σ := by
    intro i r hb
    rw [bindChecked] at hb
    split_ifs at hb
    · exact (Prod.mk.inj hb).2.symm
    · simp at hb
  induction d generalizing a b with
  | zero => simp [rowUnify] at h
  | succ d ih =>
      rw [rowUnify] at h
      by_cases heq : rowFlatten σ a = rowFlatten σ b
      · simp [heq] at h
      · cases hav : (rowFlatten σ a).varId <;> cases hbv : (rowFlatten σ b).varId <;>
          simp only [heq, hav, hbv, if_false] at h <;> try exact hbind (Option.some.inj h)
        split_ifs at h
        · exact ih h
        · have h := Option.some.inj h
          rw [unifyLeftover] at h
          split at h
          · simp at h
          · simp at h
          · exact hbind h
          · exact (Prod.mk.inj h).2.symm
        · exact (Prod.mk.inj (Option.some.inj h)).2.symm

theorem binding_ne_none (i : Nat) : binding σ i ≠ some .none := by
  unfold binding
  split <;> simp_all

theorem rowIntern_ne_none (ls : List Nat) (t : Row) : rowIntern ls t ≠ .none := by
  unfold rowIntern
  split <;> (try split) <;> simp

theorem chase_ne_none {r : Row} (h : r ≠ .none) (n : Nat) : chase σ n r ≠ .none := by
  induction n generalizing r with
  | zero => exact h
  | succ n ih =>
      cases r with
      | var i =>
          cases hb : binding σ i with
          | none => simp [chase, hb]
          | some r' =>
              have hr' : r' ≠ .none := by rintro rfl; exact binding_ne_none i hb
              simpa [chase, hb] using ih hr'
      | none | error | type | empty | row => exact h

theorem rowFlatten_ne_none {r : Row} (h : r ≠ .none) : rowFlatten σ r ≠ .none := by
  unfold rowFlatten
  dsimp only
  split_ifs
  · exact h
  · exact rowIntern_ne_none _ _
  · exact chase_ne_none h 64
  · exact chase_ne_none h 64

theorem unionAtomic (σ : RowSubst) (a b : Row) : UnionAtomic σ a b := by
  have hmap : ∀ {d : Nat} {x y : Row} {σ' : RowSubst} {g : Bool × RowSubst → Row × RowSubst},
      (∀ res, (g res).1 = .none → res.1 = false) → (∀ res, (g res).2 = res.2) →
      (rowUnify σ d x y).map g = some (.none, σ') → σ' = σ := by
    intro d x y σ' g hg hg' h
    obtain ⟨⟨ok, σ''⟩, hu, he⟩ := Option.map_eq_some_iff.mp h
    have hok : ok = false := hg _ (by rw [he])
    have hsub : σ'' = σ' := by simpa [he] using (hg' (ok, σ'')).symm
    subst hok hsub
    exact rowUnify_refused hu
  intro d σ' h
  unfold rowUnion at h
  by_cases hn : a = .none ∨ b = .none
  · rw [if_pos hn] at h
    exact (Prod.mk.inj (Option.some.inj h)).2.symm
  · rw [if_neg hn] at h
    have ha := rowFlatten_ne_none (σ := σ) (fun h => hn (.inl h))
    have hb := rowFlatten_ne_none (σ := σ) (fun h => hn (.inr h))
    generalize rowFlatten σ a = a' at *
    generalize rowFlatten σ b = b' at *
    have hpick : ∀ {r : Row}, r ≠ .none → ∀ res : Bool × RowSubst,
        (if res.1 then r else Row.none) = .none → res.1 = false := by
      intro r hr res he
      by_contra hres
      simp [hres, hr] at he
    have hleave : ∀ {r : Row}, r ≠ .none → some (r, σ) = some (.none, σ') → σ' = σ :=
      fun hr he => absurd (Prod.mk.inj (Option.some.inj he)).1 hr
    by_cases he : a' = .error ∨ b' = .error
    · simp [he] at h
    · simp only [he, if_false] at h
      by_cases heq : a' = b'
      · exact hleave ha (by simpa [heq] using h)
      · by_cases hae : a' = .empty
        · rw [if_neg heq, if_pos hae] at h
          exact hleave hb h
        · by_cases hbe : b' = .empty
          · exact hleave ha (by simpa [heq, hae, hbe] using h)
          · simp only [heq, hae, hbe, if_false] at h
            cases hav : a'.varId with
            | some i => exact hmap (hpick hb) (fun _ => rfl) (by simpa only [hav] using h)
            | none =>
                cases hbv : b'.varId with
                | some j => exact hmap (hpick ha) (fun _ => rfl) (by simpa only [hav, hbv] using h)
                | none =>
                    simp only [hav, hbv] at h
                    split_ifs at h
                    · exact hleave (rowIntern_ne_none _ _) h
                    · exact hleave (rowIntern_ne_none _ _) h
                    · refine hmap (g := fun r => if r.1 then _ else _) (fun res hres => ?_) (fun res => ?_) h
                      · by_contra hok
                        have hok : res.1 = true := by simpa using hok
                        simp only [hok, if_true] at hres
                        exact rowIntern_ne_none _ _ hres
                      · split_ifs <;> rfl
                    · exact (Prod.mk.inj (Option.some.inj h)).2.symm

theorem cycle_unreadable {i : Nat} {r a : Row} {w w' : Multiset Nat} {e : Option Nat}
    (hr : WellFormed r) (htail : (start r).2 = some i) (ha : Flattens σ a w (some i)) :
    ¬ Flattens (substBind σ i r) a w' e := by
  rintro ⟨u, hu, -⟩
  have hfree := ha.end_free
  have hself : bound (substBind σ i r) i = some ((start r).1, some i) := by
    rw [bound_substBind hr.ne_none, Function.update_self, ← htail]
  obtain ⟨u', hu', -⟩ := ha
  cases hs : (start a).2 with
  | none =>
      rw [hs] at hu'
      cases hu'
  | some x =>
      rw [hs] at hu hu'
      have hreach : Relation.ReflTransGen (Follows (bound (substBind σ i r))) x i := by
        refine Relation.ReflTransGen.mono (fun y z hyz => ?_) _ _ hu'.reaches
        obtain ⟨v, hv⟩ := hyz
        refine ⟨v, ?_⟩
        have hy : y ≠ i := by rintro rfl; simp [bound, hfree] at hv
        rw [bound_substBind hr.ne_none, Function.update_of_ne hy, hv]
      obtain ⟨v, -, hv⟩ := hu.suffix hreach
      exact Reads.not_of_self hself hv

theorem unsound_of_sharedTail (hσ : WellBound σ) {a b : Row} (ha : WellFormed a) (hb : WellFormed b)
    (hra : readInFull σ a = true) (hrb : readInFull σ b = true)
    (hshare : SharedTail (rowFlatten σ a) (rowFlatten σ b)) : ¬ UnifySound σ a b := by
  obtain ⟨hfa, hreada⟩ := rowFlatten_spec hσ ha hra
  obtain ⟨ok, σ', hu, hs⟩ := rowUnify_spec hσ ha hb hra hrb 0
  rintro ⟨ok', σ'', ⟨d, hu'⟩, hok, -⟩
  obtain ⟨rfl, rfl⟩ := Prod.mk.inj (rowUnify_unique hu hu')
  obtain ⟨j, hj, hj', hne, -⟩ := id hshare
  have hsa := start_of_tail_var hj
  have hsb := start_of_tail_var hj'
  cases hs with
  | equal h => exact hne (by rw [h])
  | refused h => exact h hshare
  | left hi hne => exact hne (by rw [hsb, ← hsa, hi])
  | right hi hne => exact hne (by rw [hsa, ← hsb, hi])
  | subtract _ hi hne => exact hne (by rw [hsa, ← hsb, hi])
  | cycle _ hi hr ht =>
      obtain ⟨⟨A, ea, _, _, hA, -⟩, -⟩ := hok rfl
      rw [hi] at hreada
      exact cycle_unreadable hr ht hreada hA

theorem sound_of_not_sharedTail (hσ : WellBound σ) {a b : Row} (ha : WellFormed a) (hb : WellFormed b)
    (hra : readInFull σ a = true) (hrb : readInFull σ b = true)
    (hshare : ¬ SharedTail (rowFlatten σ a) (rowFlatten σ b)) : UnifySound σ a b := by
  obtain ⟨hfa, hreada⟩ := rowFlatten_spec hσ ha hra
  obtain ⟨hfb, hreadb⟩ := rowFlatten_spec hσ hb hrb
  obtain ⟨ok, σ', hu, hs⟩ := rowUnify_spec hσ ha hb hra hrb 0
  have hext := Unified.extends hs hfa hfb hshare
  refine ⟨ok, σ', ⟨_, hu⟩, fun hok => ⟨?_, fun i r hi => hext.keeps hi⟩, fun hok => ?_⟩
  · subst hok
    obtain ⟨A, ea, B, eb, hA, hB, hle, heq⟩ := Unified.labels hs hfa hfb hshare
    exact ⟨A, ea, B, eb, same_reading hext hreada hfa.flattens hA,
      same_reading hext hreadb hfb.flattens hB, hle, heq⟩
  · subst hok
    exact Unified.refused_same hs

/-- Unification is sound and atomic on rows read in full, unless the rows share
their open tail and one has labels left behind those of the other: nothing
checks that branch for an occurrence. -/
theorem unify_sound_iff (hσ : WellBound σ) {a b : Row} (ha : WellFormed a) (hb : WellFormed b)
    (hra : readInFull σ a = true) (hrb : readInFull σ b = true) :
    (UnifySound σ a b ∧ UnionAtomic σ a b) ↔ ¬ SharedTail (rowFlatten σ a) (rowFlatten σ b) :=
  ⟨fun h hshare => unsound_of_sharedTail hσ ha hb hra hrb hshare h.1,
    fun hshare => ⟨sound_of_not_sharedTail hσ ha hb hra hrb hshare, unionAtomic σ a b⟩⟩

theorem wellBound_none : WellBound none := ⟨fun _ _ h => by simp [binding] at h⟩

/-- An open actual row against a longer closed one. -/
theorem unify_sound_open : UnifySound none (.row [1] (.var 1)) (.row [1, 2] .empty) ∧
    UnionAtomic none (.row [1] (.var 1)) (.row [1, 2] .empty) :=
  (unify_sound_iff wellBound_none (.openTail [1] 1) (.closed (by simp)) (by decide) (by decide)).mpr
    (by rintro ⟨_, _, h, -⟩; cases h)

/-- Passing a callback that performs less than the parameter's type says, with
one effect variable in both. -/
theorem unify_unsound_shared :
    ¬ UnifySound none (.row [1] (.var 1)) (.row [1, 2] (.var 1)) :=
  unsound_of_sharedTail wellBound_none (.openTail [1] 1) (.openTail [1, 2] 1) (by decide) (by decide)
    ⟨1, by decide, by decide, by decide, .inl (by decide)⟩

end Soundness

end Ore.EffectRowSoundness
