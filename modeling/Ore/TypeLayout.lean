import Mathlib.Logic.Relation
import Ore.FieldPlacement
import Ore.TypeHoles

namespace Ore.TypeLayout

open FieldPlacement InternKeys Relation
open TypeHoles (Ty)

/-- A layout that is known. -/
structure OreLayout where
  size : UInt64
  align : UInt64
  deriving DecidableEq, Repr

/-- What an index that is no plain type stands for. -/
inductive Nominal
  | aggregate (defId : Nat)
  | enumType
  | unsized

/-- What the layout reads of the database. -/
structure Nominals where
  tag : Nat → Nominal
  isUnion : Nat → Bool
  fields : Nat → List Ty

def layoutCycleStackMax : Nat := 32

def primitiveLayout : Primitive → Option OreLayout
  | .bool | .u8 | .i8 => some ⟨1, 1⟩
  | .u16 | .i16 => some ⟨2, 2⟩
  | .u32 | .i32 | .f32 => some ⟨4, 4⟩
  | .u64 | .i64 | .f64 | .usize | .isize => some ⟨8, 8⟩
  | _ => none

def fieldLoop (isUnion : Bool) (layoutOf : Ty → Option OreLayout) : List Ty → OreLayout → Option OreLayout
  | [], l => some l
  | f :: fs, l =>
      match layoutOf f with
      | none => none
      | some fl =>
          let align := if l.align < fl.align then fl.align else l.align
          if isUnion then fieldLoop isUnion layoutOf fs ⟨if l.size < fl.size then fl.size else l.size, align⟩
          else fieldLoop isUnion layoutOf fs
            ⟨(if 0 < fl.align then alignUp l.size fl.align else l.size) + fl.size, align⟩

def layoutStructOrUnion (isUnion : Bool) (layoutOf : Ty → Option OreLayout) (fields : List Ty) : Option OreLayout :=
  (fieldLoop isUnion layoutOf fields ⟨0, 1⟩).map fun l =>
    ⟨if 0 < l.align then alignUp l.size l.align else l.size, l.align⟩

variable (n : Nominals)

def layoutWith (aggregate : Nat → Option OreLayout) : Ty → Option OreLayout
  | .prim p => primitiveLayout p
  | .ptr _ _ | .manyPtr _ _ | .fn .. => some ⟨8, 8⟩
  | .slice _ _ => some ⟨16, 8⟩
  | .array e size => (layoutWith aggregate e).map fun elem => ⟨elem.size * UInt64.ofNat size, elem.align⟩
  | .optional e => (layoutWith aggregate e).map fun inner =>
      let size := inner.size + 1
      ⟨if 0 < inner.align then alignUp size inner.align else size, if 0 < inner.align then inner.align else 1⟩
  | .other i => match n.tag i with
    | .aggregate defId => aggregate defId
    | .enumType => some ⟨4, 4⟩
    | .unsized => none
  | .none | .var _ => none

/-- `room` is what is left of the cycle stack, `ids` what is on it. -/
def layoutRecurse : Nat → List Nat → Ty → Option OreLayout
  | 0, _ => layoutWith n fun _ => none
  | room + 1, ids => layoutWith n fun defId =>
      if defId ∈ ids then none
      else layoutStructOrUnion (n.isUnion defId) (layoutRecurse room (ids ++ [defId])) (n.fields defId)

def dbLayoutOfType (t : Ty) : Option OreLayout := layoutRecurse n layoutCycleStackMax [] t

section Known

/-- Types whose parts by value are sized, with at most so many aggregates one within the
other. -/
inductive Sized (n : Nominals) : Nat → Ty → Prop
  | prim {d : Nat} {p : Primitive} : (primitiveLayout p).isSome → Sized n d (.prim p)
  | ptr {d : Nat} {e : Ty} {c : Bool} : Sized n d (.ptr e c)
  | manyPtr {d : Nat} {e : Ty} {c : Bool} : Sized n d (.manyPtr e c)
  | slice {d : Nat} {e : Ty} {c : Bool} : Sized n d (.slice e c)
  | fn {d : Nat} {ret : Ty} {ps : List Ty} {m cb tb : Nat} {row : EffectRows.Row} : Sized n d (.fn ret ps m cb tb row)
  | array {d : Nat} {e : Ty} {k : Nat} : Sized n d e → Sized n d (.array e k)
  | optional {d : Nat} {e : Ty} : Sized n d e → Sized n d (.optional e)
  | enumType {d i : Nat} : n.tag i = .enumType → Sized n d (.other i)
  | aggregate {d i defId : Nat} : n.tag i = .aggregate defId → (∀ f ∈ n.fields defId, Sized n d f) →
      Sized n (d + 1) (.other i)

/-- The aggregates that a type holds by value, not counting those within them. -/
inductive ByValue (n : Nominals) : Ty → Nat → Prop
  | here {i defId : Nat} : n.tag i = .aggregate defId → ByValue n (.other i) defId
  | array {e : Ty} {k defId : Nat} : ByValue n e defId → ByValue n (.array e k) defId
  | optional {e : Ty} {defId : Nat} : ByValue n e defId → ByValue n (.optional e) defId

def Contains (a b : Nat) : Prop := ∃ f ∈ n.fields a, ByValue n f b

variable {n} {d : Nat} {t : Ty} {a b : Nat} {ids : List Nat} {room : Nat}

theorem Sized.byValue (h : Sized n d t) (hb : ByValue n t b) : ∃ d' < d, ∀ f ∈ n.fields b, Sized n d' f := by
  induction hb with
  | here htag =>
      cases h with
      | enumType henum =>
          rw [htag] at henum
          cases henum
      | @aggregate d _ defId htag' hfields =>
          rw [htag] at htag'
          obtain rfl := Nominal.aggregate.inj htag'
          exact ⟨d, Nat.lt_succ_self d, hfields⟩
  | array _ ih =>
      cases h with
      | array he => exact ih he
  | optional _ ih =>
      cases h with
      | optional he => exact ih he

theorem sized_below (h : ∀ f ∈ n.fields a, Sized n d f) (hab : TransGen (Contains n) a b) :
    ∃ d' < d, ∀ f ∈ n.fields b, Sized n d' f := by
  induction hab with
  | single hab =>
      obtain ⟨f, hf, hb⟩ := hab
      exact (h f hf).byValue hb
  | tail _ hbc ih =>
      obtain ⟨d', hlt, hb⟩ := ih
      obtain ⟨f, hf, hc⟩ := hbc
      obtain ⟨d'', hlt', hc'⟩ := (hb f hf).byValue hc
      exact ⟨d'', by omega, hc'⟩

theorem not_sized_of_cycle (hcycle : TransGen (Contains n) a a) : ¬ ∀ f ∈ n.fields a, Sized n d f := by
  induction d using Nat.strong_induction_on with
  | h d ih =>
      intro h
      obtain ⟨d', hlt, h'⟩ := sized_below h hcycle
      exact ih d' hlt h'

theorem isSome_fieldLoop {isUnion : Bool} {layoutOf : Ty → Option OreLayout} {fs : List Ty} (l : OreLayout) :
    (fieldLoop isUnion layoutOf fs l).isSome ↔ ∀ f ∈ fs, (layoutOf f).isSome := by
  induction fs generalizing l with
  | nil => exact ⟨fun _ => nofun, fun _ => rfl⟩
  | cons f fs ih =>
      rw [fieldLoop, List.forall_mem_cons]
      cases hf : layoutOf f with
      | none => simp
      | some fl =>
          simp only [Option.isSome_some, true_and]
          split
          · exact ih _
          · exact ih _

theorem isSome_layoutStructOrUnion {isUnion : Bool} {layoutOf : Ty → Option OreLayout} {fs : List Ty} :
    (layoutStructOrUnion isUnion layoutOf fs).isSome ↔ ∀ f ∈ fs, (layoutOf f).isSome := by
  rw [layoutStructOrUnion, Option.isSome_map]
  exact isSome_fieldLoop _

theorem isSome_layoutWith {aggregate : Nat → Option OreLayout} (haggregate : ∀ defId, ByValue n t defId →
    ((aggregate defId).isSome ↔ ∃ d', d = d' + 1 ∧ ∀ f ∈ n.fields defId, Sized n d' f)) :
    (layoutWith n aggregate t).isSome ↔ Sized n d t := by
  induction t using Ty.inductOn with
  | step t ih =>
      cases t with
      | none | var =>
          constructor
          · intro h
            cases h
          · intro h
            cases h
      | prim p =>
          rw [layoutWith]
          constructor
          · exact .prim
          · intro h
            cases h with
            | prim hp => exact hp
      | ptr e c => exact ⟨fun _ => .ptr, fun _ => rfl⟩
      | manyPtr e c => exact ⟨fun _ => .manyPtr, fun _ => rfl⟩
      | slice e c => exact ⟨fun _ => .slice, fun _ => rfl⟩
      | fn => exact ⟨fun _ => .fn, fun _ => rfl⟩
      | array e k =>
          have he := ih e (by simp [Ty.children]) fun defId hb => haggregate defId (.array hb)
          rw [layoutWith, Option.isSome_map, he]
          constructor
          · exact .array
          · intro h
            cases h with
            | array he => exact he
      | optional e =>
          have he := ih e (by simp [Ty.children]) fun defId hb => haggregate defId (.optional hb)
          rw [layoutWith, Option.isSome_map, he]
          constructor
          · exact .optional
          · intro h
            cases h with
            | optional he => exact he
      | other i =>
          rw [layoutWith]
          cases htag : n.tag i with
          | unsized =>
              constructor
              · intro h
                cases h
              · intro h
                cases h with
                | enumType h => rw [htag] at h; cases h
                | aggregate h _ => rw [htag] at h; cases h
          | enumType => exact ⟨fun _ => .enumType htag, fun _ => rfl⟩
          | aggregate defId =>
              simp only
              rw [haggregate defId (.here htag)]
              constructor
              · rintro ⟨d', rfl, hfields⟩
                exact .aggregate htag hfields
              · intro h
                cases h with
                | enumType h => rw [htag] at h; cases h
                | @aggregate d' _ defId' h hfields =>
                    rw [htag] at h
                    obtain rfl := Nominal.aggregate.inj h
                    exact ⟨d', rfl, hfields⟩

/-- The cycle check rejects nothing that the depth of the stack would let through. -/
theorem isSome_layoutRecurse (hids : ∀ a ∈ ids, ∀ b, ByValue n t b → TransGen (Contains n) a b) :
    (layoutRecurse n room ids t).isSome ↔ Sized n room t := by
  induction room generalizing ids t with
  | zero =>
      rw [layoutRecurse]
      apply isSome_layoutWith
      intro defId _
      constructor
      · exact nofun
      · rintro ⟨d', h, -⟩
        cases h
  | succ room ih =>
      rw [layoutRecurse]
      apply isSome_layoutWith
      intro defId hb
      have hfields : (∀ f ∈ n.fields defId, (layoutRecurse n room (ids ++ [defId]) f).isSome) ↔
          ∀ f ∈ n.fields defId, Sized n room f := by
        apply forall₂_congr
        intro f hf
        apply ih
        intro a ha c hc
        have hstep : Contains n defId c := ⟨f, hf, hc⟩
        rcases List.mem_append.mp ha with ha | ha
        · exact (hids a ha defId hb).tail hstep
        · rw [List.mem_singleton] at ha
          exact ha ▸ .single hstep
      by_cases hmem : defId ∈ ids
      · rw [if_pos hmem]
        constructor
        · exact nofun
        · rintro ⟨d', -, h⟩
          exact absurd h (not_sized_of_cycle (hids defId hmem defId hb))
      · rw [if_neg hmem, isSome_layoutStructOrUnion, hfields]
        constructor
        · exact fun h => ⟨room, rfl, h⟩
        · rintro ⟨d', h, hd'⟩
          obtain rfl := Nat.succ.inj h
          exact hd'

/-- A layout is known exactly when the parts by value are sized and lie in at most as many
aggregates as the cycle stack holds, and never for a type that holds itself. -/
theorem layout_known_iff (n : Nominals) (t : Ty) :
    ((dbLayoutOfType n t).isSome ↔ Sized n layoutCycleStackMax t) ∧
      ∀ a, ByValue n t a → TransGen (Contains n) a a → dbLayoutOfType n t = none := by
  have hknown : (dbLayoutOfType n t).isSome ↔ Sized n layoutCycleStackMax t := isSome_layoutRecurse nofun
  refine ⟨hknown, fun a ha hcycle => ?_⟩
  apply Option.not_isSome_iff_eq_none.mp
  intro hsome
  obtain ⟨d, -, hd⟩ := (hknown.mp hsome).byValue ha
  exact not_sized_of_cycle hcycle hd

end Known

section Sizes

def Aligns (xs : List Extent) (a : Nat) : Prop := IsLeast {a | 0 < a ∧ ∀ x ∈ xs, x.align ∣ a} a

/-- The least padded size with room for every part: behind one another, or all at the start. -/
def Houses (isUnion : Bool) (xs : List Extent) (a size : Nat) : Prop :=
  if isUnion then IsLeast {high | a ∣ high ∧ ∀ x ∈ xs, x.size ≤ high} size
  else IsLeast {high | a ∣ high ∧ ∃ os, Placed 0 xs os high} size

/-- Sizes without a bound. -/
inductive Exact (n : Nominals) : Ty → Extent → Prop
  | prim {p : Primitive} {l : OreLayout} : primitiveLayout p = some l → Exact n (.prim p) ⟨l.size.toNat, l.align.toNat⟩
  | ptr {e : Ty} {c : Bool} : Exact n (.ptr e c) ⟨8, 8⟩
  | manyPtr {e : Ty} {c : Bool} : Exact n (.manyPtr e c) ⟨8, 8⟩
  | slice {e : Ty} {c : Bool} : Exact n (.slice e c) ⟨16, 8⟩
  | fn {ret : Ty} {ps : List Ty} {m cb tb : Nat} {row : EffectRows.Row} : Exact n (.fn ret ps m cb tb row) ⟨8, 8⟩
  | array {e : Ty} {k : Nat} {x : Extent} : Exact n e x → Exact n (.array e k) ⟨x.size * (k % 2 ^ 64), x.align⟩
  | optional {e : Ty} {x : Extent} : Exact n e x → Exact n (.optional e) ⟨roundUp x.align (x.size + 1), x.align⟩
  | enumType {i : Nat} : n.tag i = .enumType → Exact n (.other i) ⟨4, 4⟩
  | aggregate {i defId size a : Nat} {xs : List Extent} : n.tag i = .aggregate defId →
      (n.fields defId).length = xs.length → (∀ f x, (f, x) ∈ (n.fields defId).zip xs → Exact n f x) →
      Aligns xs a → Houses (n.isUnion defId) xs a size → Exact n (.other i) ⟨size, a⟩

variable {n : Nominals} {t : Ty} {l fl : OreLayout} {x y : Extent} {xs ys : List Extent} {fs : List Ty}

theorem eq_of_forall₂ (hxs : List.Forall₂ (fun f x => ∀ y, Exact n f y → x = y) fs xs)
    (hys : List.Forall₂ (Exact n) fs ys) : xs = ys := by
  induction hxs generalizing ys with
  | nil =>
      cases hys
      rfl
  | cons hx _ ih =>
      cases hys with
      | cons hy hys => rw [hx _ hy, ih hys]

theorem Exact.unique (hx : Exact n t x) : ∀ y, Exact n t y → x = y := by
  induction hx with
  | prim hp =>
      intro y hy
      cases hy with
      | prim hp' =>
          rw [hp] at hp'
          obtain rfl := Option.some.inj hp'
          rfl
  | ptr | manyPtr | slice | fn =>
      intro y hy
      cases hy
      rfl
  | array _ ih =>
      intro y hy
      cases hy with
      | array hy => rw [ih _ hy]
  | optional _ ih =>
      intro y hy
      cases hy with
      | optional hy => rw [ih _ hy]
  | enumType htag =>
      intro y hy
      cases hy with
      | enumType _ => rfl
      | aggregate htag' =>
          rw [htag] at htag'
          cases htag'
  | @aggregate i defId size a xs htag hlen _ halign hhouses ih =>
      intro y hy
      cases hy with
      | enumType htag' =>
          rw [htag] at htag'
          cases htag'
      | @aggregate _ defId' size' a' ys htag' hlen' hzip' halign' hhouses' =>
          rw [htag] at htag'
          obtain rfl := Nominal.aggregate.inj htag'
          have hxs : xs = ys := by
            apply eq_of_forall₂
            · exact List.forall₂_iff_zip.mpr ⟨hlen, fun {f x} h => ih f x h⟩
            · exact List.forall₂_iff_zip.mpr ⟨hlen', fun {f x} h => hzip' f x h⟩
          subst hxs
          obtain rfl := IsLeast.unique halign halign'
          have hsize : size = size' := by
            unfold Houses at hhouses hhouses'
            split at hhouses
            · rw [if_pos ‹_›] at hhouses'
              exact hhouses.unique hhouses'
            · rw [if_neg ‹_›] at hhouses'
              exact hhouses.unique hhouses'
          rw [hsize]

/-- The alignment is right, and so is the size when it fits. -/
structure Represents (l : OreLayout) (x : Extent) : Prop where
  align : l.align.toNat = x.align
  pow : ∃ k ≤ 3, x.align = 2 ^ k
  dvd : x.align ∣ l.size.toNat
  size : x.size < 2 ^ 64 → l.size.toNat = x.size

theorem Represents.pos (h : Represents l x) : 0 < x.align := by
  obtain ⟨k, -, hk⟩ := h.pow
  exact hk ▸ Nat.two_pow_pos k

theorem Represents.align_pos (h : Represents l x) : 0 < l.align := by
  rw [UInt64.lt_iff_toNat_lt, h.align]
  exact h.pos

/-- A size that is right when it fits stays so when it is rounded up. -/
theorem alignUp_exact {a z : UInt64} {k m : Nat} (ha : a.toNat = 2 ^ k) (hz : m < 2 ^ 64 → z.toNat = m) :
    roundUp (2 ^ k) m < 2 ^ 64 → (alignUp z a).toNat = roundUp (2 ^ k) m := by
  intro hlt
  have hle := le_roundUp (Nat.two_pow_pos k) m
  rw [alignUp_toNat ha, hz (by omega), Nat.mod_eq_of_lt hlt]

theorem dvd_alignUp {a z : UInt64} {k : Nat} (hk : k ≤ 3) (ha : a.toNat = 2 ^ k) : 2 ^ k ∣ (alignUp z a).toNat := by
  rw [alignUp_toNat ha]
  apply (Nat.dvd_mod_iff (Nat.pow_dvd_pow 2 (by omega))).mpr
  exact dvd_roundUp _ _

theorem toNat_ite_lt (a b : UInt64) : (if a < b then b else a).toNat = max a.toNat b.toNat := by
  simp only [UInt64.lt_iff_toNat_lt]
  split
  · omega
  · omega

def filled (isUnion : Bool) (m : Nat) (xs : List Extent) : Nat :=
  if isUnion then xs.foldl (fun m x => max m x.size) m else placedEnd m xs

theorem fieldLoop_exact {isUnion : Bool} {layoutOf : Ty → Option OreLayout} {l' : OreLayout}
    (hfields : ∀ f ∈ fs, ∀ fl, layoutOf f = some fl → ∃ x, Exact n f x ∧ Represents fl x)
    (h : fieldLoop isUnion layoutOf fs l = some l') :
    ∃ xs, List.Forall₂ (Exact n) fs xs ∧ (∀ x ∈ xs, ∃ k ≤ 3, x.align = 2 ^ k) ∧
      l'.align.toNat = xs.foldl (fun a x => max a x.align) l.align.toNat ∧
      ∀ m, (m < 2 ^ 64 → l.size.toNat = m) → filled isUnion m xs < 2 ^ 64 → l'.size.toNat = filled isUnion m xs := by
  induction fs generalizing l with
  | nil =>
      rw [fieldLoop] at h
      obtain rfl := Option.some.inj h
      refine ⟨[], .nil, nofun, rfl, fun m hm hlt => ?_⟩
      have hfilled : filled isUnion m [] = m := by
        rw [filled]
        split <;> rfl
      rw [hfilled] at hlt ⊢
      exact hm hlt
  | cons f fs ih =>
      obtain ⟨hf, hfs⟩ := List.forall_mem_cons.mp hfields
      rw [fieldLoop] at h
      cases hlayout : layoutOf f with
      | none =>
          rw [hlayout] at h
          cases h
      | some fl =>
          obtain ⟨x, hx, hrep⟩ := hf fl hlayout
          rw [hlayout] at h
          simp only at h
          have halign : (if l.align < fl.align then fl.align else l.align).toNat = max l.align.toNat x.align := by
            rw [toNat_ite_lt, hrep.align]
          cases isUnion with
          | true =>
              rw [if_pos rfl] at h
              obtain ⟨xs, hxs, hpow, hmax, hsize⟩ := ih hfs h
              refine ⟨x :: xs, .cons hx hxs, List.forall_mem_cons.mpr ⟨hrep.pow, hpow⟩, ?_, fun m hm hlt => ?_⟩
              · rw [hmax, halign]
                rfl
              · apply hsize (max m x.size) ?_ hlt
                intro hboth
                have hl := hm (by omega)
                have hfl := hrep.size (by omega)
                rw [toNat_ite_lt, hl, hfl]
          | false =>
              rw [if_neg (by decide), if_pos hrep.align_pos] at h
              obtain ⟨xs, hxs, hpow, hmax, hsize⟩ := ih hfs h
              refine ⟨x :: xs, .cons hx hxs, List.forall_mem_cons.mpr ⟨hrep.pow, hpow⟩, ?_, fun m hm hlt => ?_⟩
              · rw [hmax, halign]
                rfl
              · apply hsize (roundUp x.align m + x.size) ?_ hlt
                intro hsum
                obtain ⟨k, -, hk⟩ := hrep.pow
                have hup := alignUp_exact (hrep.align.trans hk) hm
                rw [← hk] at hup
                have hfl := hrep.size (by omega)
                rw [UInt64.toNat_add, hup (by omega), hfl, Nat.mod_eq_of_lt hsum]

theorem aligns_maxAlign (h : ∀ x ∈ xs, ∃ k ≤ 3, x.align = 2 ^ k) : Aligns xs (maxAlign xs) := by
  apply maxAlign_isLeast
  intro x hx
  obtain ⟨k, -, hk⟩ := h x hx
  exact ⟨k, hk⟩

theorem houses_filled (h : ∀ x ∈ xs, 0 < x.align) (isUnion : Bool) :
    Houses isUnion xs (maxAlign xs) (roundUp (maxAlign xs) (filled isUnion 0 xs)) := by
  cases isUnion with
  | true =>
      refine ⟨⟨dvd_roundUp _ _, fun x hx => ?_⟩, ?_⟩
      · exact Nat.le_trans (size_le hx) (le_roundUp (maxAlign_pos xs) _)
      · rintro high ⟨hdvd, hhigh⟩
        exact unionExtent_le hhigh hdvd
  | false =>
      refine ⟨⟨dvd_roundUp _ _, place 0 xs, structExtent_placed h⟩, ?_⟩
      rintro high ⟨hdvd, os, hplaced⟩
      exact structExtent_le h hplaced hdvd

theorem layoutStructOrUnion_exact {isUnion : Bool} {layoutOf : Ty → Option OreLayout}
    (hfields : ∀ f ∈ fs, ∀ fl, layoutOf f = some fl → ∃ x, Exact n f x ∧ Represents fl x)
    (h : layoutStructOrUnion isUnion layoutOf fs = some l) :
    ∃ xs x, List.Forall₂ (Exact n) fs xs ∧ Aligns xs x.align ∧ Houses isUnion xs x.align x.size ∧ Represents l x := by
  rw [layoutStructOrUnion, Option.map_eq_some_iff] at h
  obtain ⟨l', hl', rfl⟩ := h
  obtain ⟨xs, hxs, hpow, halign, hsize⟩ := fieldLoop_exact hfields hl'
  have hposs : ∀ x ∈ xs, 0 < x.align := by
    intro x hx
    obtain ⟨k, -, hk⟩ := hpow x hx
    exact hk ▸ Nat.two_pow_pos k
  have hmax : l'.align.toNat = maxAlign xs := halign
  obtain ⟨k, hk⟩ := maxAlign_pow fun x hx => (hpow x hx).imp fun _ h => h.2
  have hle : k ≤ 3 := by
    have height : maxAlign xs ≤ 2 ^ 3 := by
      apply foldl_max_le Extent.align (by decide)
      intro x hx
      obtain ⟨j, hj, hxj⟩ := hpow x hx
      exact hxj ▸ Nat.pow_le_pow_right (by decide) hj
    rw [hk] at height
    exact (Nat.pow_le_pow_iff_right (by decide)).mp height
  have hpos : 0 < l'.align := by
    rw [UInt64.lt_iff_toNat_lt, hmax]
    exact maxAlign_pos xs
  refine ⟨xs, ⟨_, maxAlign xs⟩, hxs, aligns_maxAlign hpow, houses_filled hposs isUnion, hmax, ⟨k, hle, hk⟩, ?_, ?_⟩
  · simp only [if_pos hpos]
    rw [hk]
    exact dvd_alignUp hle (hmax.trans hk)
  · simp only [if_pos hpos]
    rw [hk]
    exact alignUp_exact (hmax.trans hk) (hsize 0 fun _ => rfl)

theorem Represents.array (h : Represents l x) (k : Nat) :
    Represents ⟨l.size * UInt64.ofNat k, l.align⟩ ⟨x.size * (k % 2 ^ 64), x.align⟩ := by
  have hmul : (l.size * UInt64.ofNat k).toNat = l.size.toNat * (k % 2 ^ 64) % 2 ^ 64 := by
    rw [UInt64.toNat_mul, UInt64.toNat_ofNat']
  refine ⟨h.align, h.pow, ?_, fun hlt => ?_⟩
  · obtain ⟨j, hj, hpow⟩ := h.pow
    have hdvd := h.dvd
    simp only [hmul]
    rw [hpow] at hdvd ⊢
    apply (Nat.dvd_mod_iff (Nat.pow_dvd_pow 2 (by omega))).mpr
    exact Nat.dvd_mul_right_of_dvd hdvd _
  · simp only at hlt ⊢
    rw [hmul]
    rcases Nat.eq_zero_or_pos (k % 2 ^ 64) with hk | hk
    · rw [hk, Nat.mul_zero, Nat.mul_zero, Nat.zero_mod]
    · have hle : x.size ≤ x.size * (k % 2 ^ 64) := Nat.le_mul_of_pos_right _ hk
      rw [h.size (by omega), Nat.mod_eq_of_lt hlt]

theorem Represents.optional (h : Represents l x) :
    Represents ⟨alignUp (l.size + 1) l.align, l.align⟩ ⟨roundUp x.align (x.size + 1), x.align⟩ := by
  obtain ⟨k, hk, hpow⟩ := h.pow
  have halign : l.align.toNat = 2 ^ k := h.align.trans hpow
  have hnext : x.size + 1 < 2 ^ 64 → (l.size + 1).toNat = x.size + 1 := by
    intro hlt
    rw [UInt64.toNat_add, h.size (by omega)]
    exact Nat.mod_eq_of_lt hlt
  refine ⟨h.align, h.pow, ?_, ?_⟩
  · simp only [hpow]
    exact dvd_alignUp hk halign
  · simp only [hpow]
    exact alignUp_exact halign hnext

theorem primitiveLayout_represents {p : Primitive} (h : primitiveLayout p = some l) :
    Represents l ⟨l.size.toNat, l.align.toNat⟩ := by
  have hcases : (l = ⟨1, 1⟩ ∨ l = ⟨2, 2⟩) ∨ l = ⟨4, 4⟩ ∨ l = ⟨8, 8⟩ := by
    cases p <;> simp [primitiveLayout] at h <;> simp [← h]
  rcases hcases with (rfl | rfl) | rfl | rfl
  · exact ⟨rfl, ⟨0, by decide⟩, ⟨1, rfl⟩, fun _ => rfl⟩
  · exact ⟨rfl, ⟨1, by decide⟩, ⟨1, rfl⟩, fun _ => rfl⟩
  · exact ⟨rfl, ⟨2, by decide⟩, ⟨1, rfl⟩, fun _ => rfl⟩
  · exact ⟨rfl, ⟨3, by decide⟩, ⟨1, rfl⟩, fun _ => rfl⟩

theorem represents_word : Represents ⟨8, 8⟩ ⟨8, 8⟩ := ⟨rfl, ⟨3, by decide⟩, ⟨1, rfl⟩, fun _ => rfl⟩

theorem represents_pair : Represents ⟨16, 8⟩ ⟨16, 8⟩ := ⟨rfl, ⟨3, by decide⟩, ⟨2, rfl⟩, fun _ => rfl⟩

theorem represents_tag : Represents ⟨4, 4⟩ ⟨4, 4⟩ := ⟨rfl, ⟨2, by decide⟩, ⟨1, rfl⟩, fun _ => rfl⟩

theorem layoutWith_exact {aggregate : Nat → Option OreLayout}
    (haggregate : ∀ i defId l, n.tag i = .aggregate defId → aggregate defId = some l →
      ∃ x, Exact n (.other i) x ∧ Represents l x)
    (h : layoutWith n aggregate t = some l) : ∃ x, Exact n t x ∧ Represents l x := by
  induction t using Ty.inductOn generalizing l with
  | step t ih =>
      cases t with
      | none | var => cases h
      | prim p => exact ⟨_, .prim h, primitiveLayout_represents h⟩
      | ptr e c =>
          obtain rfl := Option.some.inj h
          exact ⟨_, .ptr, represents_word⟩
      | manyPtr e c =>
          obtain rfl := Option.some.inj h
          exact ⟨_, .manyPtr, represents_word⟩
      | fn =>
          obtain rfl := Option.some.inj h
          exact ⟨_, .fn, represents_word⟩
      | slice e c =>
          obtain rfl := Option.some.inj h
          exact ⟨_, .slice, represents_pair⟩
      | array e k =>
          rw [layoutWith, Option.map_eq_some_iff] at h
          obtain ⟨elem, helem, rfl⟩ := h
          obtain ⟨x, hx, hrep⟩ := ih e (by simp [Ty.children]) helem
          exact ⟨_, .array hx, hrep.array k⟩
      | optional e =>
          rw [layoutWith, Option.map_eq_some_iff] at h
          obtain ⟨inner, hinner, rfl⟩ := h
          obtain ⟨x, hx, hrep⟩ := ih e (by simp [Ty.children]) hinner
          refine ⟨_, .optional hx, ?_⟩
          simp only [if_pos hrep.align_pos]
          exact hrep.optional
      | other i =>
          rw [layoutWith] at h
          cases htag : n.tag i with
          | aggregate defId =>
              rw [htag] at h
              exact haggregate i defId l htag h
          | enumType =>
              rw [htag] at h
              obtain rfl := Option.some.inj h
              exact ⟨_, .enumType htag, represents_tag⟩
          | unsized =>
              rw [htag] at h
              cases h

theorem layoutRecurse_exact {room : Nat} {ids : List Nat} (h : layoutRecurse n room ids t = some l) :
    ∃ x, Exact n t x ∧ Represents l x := by
  induction room generalizing ids t l with
  | zero =>
      rw [layoutRecurse] at h
      apply layoutWith_exact _ h
      intro i defId l _ hnone
      cases hnone
  | succ room ih =>
      rw [layoutRecurse] at h
      apply layoutWith_exact _ h
      intro i defId l htag hl
      split at hl
      · cases hl
      · obtain ⟨xs, x, hxs, halign, hhouses, hrep⟩ := layoutStructOrUnion_exact (fun f _ fl hf => ih hf) hl
        obtain ⟨hlen, hzip⟩ := List.forall₂_iff_zip.mp hxs
        exact ⟨x, .aggregate htag hlen (fun f y hfy => hzip hfy) halign hhouses, hrep⟩

/-- A known layout is that of the type: the alignment always, the size exactly when it fits
in 64 bits. The size is a multiple of the alignment even when it does not fit. -/
theorem layout_exact {n : Nominals} {t : Ty} {l : OreLayout} (h : dbLayoutOfType n t = some l) :
    (∃ x, Exact n t x) ∧ (∃ k ≤ 3, l.align.toNat = 2 ^ k) ∧ l.align.toNat ∣ l.size.toNat ∧
      ∀ x, Exact n t x → l.align.toNat = x.align ∧ (l.size.toNat = x.size ↔ x.size < 2 ^ 64) := by
  obtain ⟨x, hx, hrep⟩ := layoutRecurse_exact h
  refine ⟨⟨x, hx⟩, ?_, ?_, fun y hy => ?_⟩
  · rw [hrep.align]
    exact hrep.pow
  · rw [hrep.align]
    exact hrep.dvd
  · obtain rfl := hx.unique y hy
    refine ⟨hrep.align, fun hsize => ?_, hrep.size⟩
    rw [← hsize]
    exact l.size.toNat_lt

/-- A record of a byte, a word and a byte. -/
def record : Nominals where
  tag _ := .aggregate 0
  isUnion _ := false
  fields _ := [.prim .u8, .prim .u32, .prim .u8]

theorem layout_exact_record : (∃ x, Exact record (.other 0) x) ∧ (∃ k ≤ 3, (4 : UInt64).toNat = 2 ^ k) ∧
    (4 : UInt64).toNat ∣ (12 : UInt64).toNat ∧ ∀ x, Exact record (.other 0) x →
      (4 : UInt64).toNat = x.align ∧ ((12 : UInt64).toNat = x.size ↔ x.size < 2 ^ 64) :=
  layout_exact (l := ⟨12, 4⟩) rfl

end Sizes

end Ore.TypeLayout
