import Ore.TypeLayout

namespace Ore.LayoutLaws

open FieldPlacement InternKeys TypeLayout
open TypeHoles (Ty)

/-- The types that a type holds by value, and the type itself. -/
inductive Part (n : Nominals) : Ty → Ty → Prop
  | self (t : Ty) : Part n t t
  | array {e u : Ty} {k : Nat} (h : Part n e u) : Part n (.array e k) u
  | optional {e u : Ty} (h : Part n e u) : Part n (.optional e) u
  | field {i defId : Nat} {f u : Ty} (htag : n.tag i = .aggregate defId) (hf : f ∈ n.fields defId)
      (h : Part n f u) : Part n (.other i) u

def extent (l : OreLayout) : Extent := ⟨l.size.toNat, l.align.toNat⟩

def Layouts (n : Nominals) : List Ty → List OreLayout → Prop :=
  List.Forall₂ fun f l => dbLayoutOfType n f = some l

/-- What a layout owes to the layouts of the types that the type is built from. -/
def Built (n : Nominals) (l : OreLayout) : Ty → Prop
  | .array e k => ∃ le, dbLayoutOfType n e = some le ∧ l.size.toNat = le.size.toNat * (k % 2 ^ 64)
  | .optional e => ∃ le, dbLayoutOfType n e = some le ∧ le.size.toNat + 1 ≤ l.size.toNat
  | .other i => ∀ defId, n.tag i = .aggregate defId → ∃ ls, Layouts n (n.fields defId) ls ∧
      if n.isUnion defId then ∀ lf ∈ ls, lf.size.toNat ≤ l.size.toNat
      else ∃ os, Placed 0 (ls.map extent) os l.size.toNat
  | _ => True

structure Lawful (n : Nominals) (t : Ty) (l : OreLayout) : Prop where
  pow : ∃ k, l.align.toNat = 2 ^ k
  dvd : l.align.toNat ∣ l.size.toNat
  built : Built n l t

/-- The known layouts of a type and its parts keep the laws, and the layout is known if the
type is built of sized types at any depth. -/
structure WellFormed (n : Nominals) (t : Ty) : Prop where
  lawful : ∀ u, Part n t u → ∀ l, dbLayoutOfType n u = some l → Lawful n u l
  known : ∀ d, Sized n d t → (dbLayoutOfType n t).isSome

variable {n : Nominals} {t u e f : Ty} {l : OreLayout} {x : Extent} {fs : List Ty} {ls : List OreLayout}
  {xs : List Extent}

theorem Part.trans (h : Part n t u) (h' : Part n u e) : Part n t e := by
  induction h with
  | self => exact h'
  | array _ ih => exact .array (ih h')
  | optional _ ih => exact .optional (ih h')
  | field htag hf _ ih => exact .field htag hf (ih h')

theorem Sized.more {d d' : Nat} (h : Sized n d t) (hle : d ≤ d') : Sized n d' t := by
  induction h generalizing d' with
  | prim hp => exact .prim hp
  | ptr => exact .ptr
  | manyPtr => exact .manyPtr
  | slice => exact .slice
  | fn => exact .fn
  | array _ ih => exact .array (ih hle)
  | optional _ ih => exact .optional (ih hle)
  | enumType htag => exact .enumType htag
  | aggregate htag _ ih =>
      cases d' with
      | zero => omega
      | succ d' => exact .aggregate htag fun f hf => ih f hf (by omega)

theorem known_iff (n : Nominals) (t : Ty) : (dbLayoutOfType n t).isSome ↔ Sized n layoutCycleStackMax t :=
  isSome_layoutRecurse nofun

theorem sized_field {i defId d : Nat} (htag : n.tag i = .aggregate defId) (hf : f ∈ n.fields defId)
    (h : Sized n d (.other i)) : Sized n d f := by
  cases h with
  | enumType htag' =>
      rw [htag] at htag'
      cases htag'
  | aggregate htag' hfields =>
      obtain rfl := Nominal.aggregate.inj (htag.symm.trans htag')
      exact Sized.more (hfields f hf) (Nat.le_succ _)

theorem represents (h : dbLayoutOfType n t = some l) (hx : Exact n t x) : Represents l x := by
  obtain ⟨y, hy, hrep⟩ := layoutRecurse_exact h
  obtain rfl := hy.unique x hx
  exact hrep

theorem extent_eq (h : dbLayoutOfType n t = some l) (hx : Exact n t x) (hlt : x.size < 2 ^ 64) : extent l = x := by
  have hrep := represents h hx
  rw [extent, hrep.size hlt, hrep.align]

theorem layouts_of_sized (h : ∀ f ∈ fs, Sized n layoutCycleStackMax f) : ∃ ls, Layouts n fs ls := by
  induction fs with
  | nil => exact ⟨[], .nil⟩
  | cons f fs ih =>
      obtain ⟨hf, hfs⟩ := List.forall_mem_cons.mp h
      obtain ⟨l, hl⟩ := Option.isSome_iff_exists.mp ((known_iff n f).mpr hf)
      obtain ⟨ls, hls⟩ := ih hfs
      exact ⟨l :: ls, .cons hl hls⟩

theorem extents_eq (hls : Layouts n fs ls) (hxs : List.Forall₂ (fun f x => Exact n f x ∧ x.size < 2 ^ 64) fs xs) :
    ls.map extent = xs := by
  induction hls generalizing xs with
  | nil =>
      cases hxs
      rfl
  | cons hl _ ih =>
      cases hxs with
      | cons hx hxs => rw [List.map_cons, extent_eq hl hx.1 hx.2, ih hxs]

theorem size_lt (hx : Exact n t x) (hsized : Sized n layoutCycleStackMax t)
    (hlaws : ∀ u, Part n t u → ∀ l, dbLayoutOfType n u = some l → Lawful n u l) : x.size < 2 ^ 64 := by
  obtain ⟨l, hl⟩ := Option.isSome_iff_exists.mp ((known_iff n t).mpr hsized)
  have hlaw := hlaws _ (.self _) l hl
  have hrep := represents hl hx
  have hbound : l.size.toNat < 2 ^ 64 := l.size.toNat_lt
  induction hx generalizing l with
  | @prim p lp hp => exact lp.size.toNat_lt
  | ptr | manyPtr | slice | fn | enumType => decide
  | @array e k x hxe ih =>
      obtain ⟨le, hle, hsize⟩ := hlaw.built
      have hesized : Sized n layoutCycleStackMax e := (known_iff n e).mp (Option.isSome_of_eq_some hle)
      have helaws := fun u hu => hlaws u (.array hu)
      have hxlt := ih hesized helaws le hle (helaws e (.self e) le hle) (represents hle hxe) le.size.toNat_lt
      rw [(represents hle hxe).size hxlt] at hsize
      simp only
      omega
  | @optional e x hxe ih =>
      obtain ⟨le, hle, hroom⟩ := hlaw.built
      have hesized : Sized n layoutCycleStackMax e := (known_iff n e).mp (Option.isSome_of_eq_some hle)
      have helaws := fun u hu => hlaws u (.optional hu)
      have hxlt := ih hesized helaws le hle (helaws e (.self e) le hle) (represents hle hxe) le.size.toNat_lt
      rw [(represents hle hxe).size hxlt] at hroom
      exact (roundUp_le hrep.pos hroom hrep.dvd).trans_lt hbound
  | @aggregate i defId size a xs htag hlen hzip halign hhouses ih =>
      obtain ⟨ls, hls, hplaced⟩ := hlaw.built defId htag
      have hfields : List.Forall₂ (fun f x => Exact n f x ∧ x.size < 2 ^ 64) (n.fields defId) xs := by
        refine List.forall₂_iff_zip.mpr ⟨hlen, fun {f x} hfx => ⟨hzip f x hfx, ?_⟩⟩
        have hf : f ∈ n.fields defId := (List.of_mem_zip hfx).1
        have hfsized := sized_field htag hf hsized
        obtain ⟨lf, hlf⟩ := Option.isSome_iff_exists.mp ((known_iff n f).mpr hfsized)
        have hflaws := fun u hu => hlaws u (.field htag hf hu)
        exact ih f x hfx hfsized hflaws lf hlf (hflaws f (.self f) lf hlf) (represents hlf (hzip f x hfx))
          lf.size.toNat_lt
      obtain rfl := extents_eq hls hfields
      have hle : size ≤ l.size.toNat := by
        unfold Houses at hhouses
        split at hhouses
        · rw [if_pos ‹_›] at hplaced
          exact hhouses.2 ⟨hrep.dvd, List.forall_mem_map.mpr hplaced⟩
        · rw [if_neg ‹_›] at hplaced
          exact hhouses.2 ⟨hrep.dvd, hplaced⟩
      exact hle.trans_lt hbound

theorem lawful_of_fits (hsized : Sized n layoutCycleStackMax t)
    (hfits : ∀ u, Part n t u → Sized n layoutCycleStackMax u → ∀ x, Exact n u x → x.size < 2 ^ 64)
    (hl : dbLayoutOfType n t = some l) : Lawful n t l := by
  obtain ⟨x, hx, hrep⟩ := layoutRecurse_exact hl
  have hsize : l.size.toNat = x.size := hrep.size (hfits t (.self t) hsized x hx)
  refine ⟨?_, by rw [hrep.align]; exact hrep.dvd, ?_⟩
  · obtain ⟨k, -, hk⟩ := hrep.pow
    exact ⟨k, hrep.align.trans hk⟩
  cases hx with
  | prim | ptr | manyPtr | slice | fn => trivial
  | @array e k x hxe =>
      cases hsized with
      | array hesized =>
          obtain ⟨le, hle⟩ := Option.isSome_iff_exists.mp ((known_iff n e).mpr hesized)
          have hxlt := hfits e (.array (.self e)) hesized x hxe
          exact ⟨le, hle, by rw [hsize, (represents hle hxe).size hxlt]⟩
  | @optional e x hxe =>
      cases hsized with
      | optional hesized =>
          obtain ⟨le, hle⟩ := Option.isSome_iff_exists.mp ((known_iff n e).mpr hesized)
          have hxlt := hfits e (.optional (.self e)) hesized x hxe
          refine ⟨le, hle, ?_⟩
          rw [hsize, (represents hle hxe).size hxlt]
          exact le_roundUp hrep.pos _
  | enumType htag =>
      intro defId htag'
      rw [htag] at htag'
      cases htag'
  | @aggregate i defId size a xs htag hlen hzip halign hhouses =>
      intro defId' htag'
      obtain rfl := Nominal.aggregate.inj (htag.symm.trans htag')
      obtain ⟨ls, hls⟩ := layouts_of_sized fun f hf => sized_field htag hf hsized
      have hfields : List.Forall₂ (fun f x => Exact n f x ∧ x.size < 2 ^ 64) (n.fields defId) xs := by
        refine List.forall₂_iff_zip.mpr ⟨hlen, fun {f x} hfx => ⟨hzip f x hfx, ?_⟩⟩
        have hf : f ∈ n.fields defId := (List.of_mem_zip hfx).1
        exact hfits f (.field htag hf (.self f)) (sized_field htag hf hsized) x (hzip f x hfx)
      obtain rfl := extents_eq hls hfields
      refine ⟨ls, hls, ?_⟩
      rw [hsize]
      unfold Houses at hhouses
      split at hhouses
      · rw [if_pos ‹_›]
        exact List.forall_mem_map.mp hhouses.1.2
      · rw [if_neg ‹_›]
        exact hhouses.1.2

/-- The layouts of a type and its parts are well formed exactly when no more aggregates lie
one within the other than the cycle stack holds, and the exact sizes fit in 64 bits. -/
theorem well_formed_iff (n : Nominals) (t : Ty) : WellFormed n t ↔
    (∀ d, Sized n d t → Sized n layoutCycleStackMax t) ∧
      ∀ u, Part n t u → Sized n layoutCycleStackMax u → ∀ x, Exact n u x → x.size < 2 ^ 64 := by
  constructor
  · intro h
    refine ⟨fun d hd => (known_iff n t).mp (h.known d hd), fun u hu hsized x hx => ?_⟩
    exact size_lt hx hsized fun w hw => h.lawful w (hu.trans hw)
  · rintro ⟨hdeep, hfits⟩
    refine ⟨fun u hu l hl => ?_, fun d hd => (known_iff n t).mpr (hdeep d hd)⟩
    have hsized : Sized n layoutCycleStackMax u := (known_iff n u).mp (Option.isSome_of_eq_some hl)
    exact lawful_of_fits hsized (fun w hw => hfits w (hu.trans hw)) hl

def plainTypes : Nominals where
  tag _ := .unsized
  isUnion _ := false
  fields _ := []

/-- 33 records, each the field of the one before, and a byte in the last. -/
def nested : Nominals where
  tag i := .aggregate i
  isUnion _ := false
  fields i := if i < 32 then [.other (i + 1)] else [.prim .u8]

theorem nested_sized {k : Nat} (hk : k ≤ 32) : Sized nested (k + 1) (.other (32 - k)) := by
  induction k with
  | zero =>
      refine .aggregate rfl fun f hf => ?_
      obtain rfl := List.mem_singleton.mp hf
      exact .prim rfl
  | succ k ih =>
      refine .aggregate rfl fun f hf => ?_
      have hfields : nested.fields (32 - (k + 1)) = [.other (32 - k)] := by
        simp only [nested]
        rw [if_pos (by omega)]
        congr 2
        omega
      rw [hfields] at hf
      obtain rfl := List.mem_singleton.mp hf
      exact ih (by omega)

/-- An array of 2^61 words has size 0, and 33 records within each other have no layout. -/
theorem ill_formed : ¬ WellFormed plainTypes (.array (.prim .u64) (2 ^ 61)) ∧ ¬ WellFormed nested (.other 0) := by
  constructor
  · intro h
    obtain ⟨le, hle, hsize⟩ := (h.lawful _ (.self _) ⟨0, 8⟩ (by decide)).built
    obtain rfl : le = ⟨8, 8⟩ := Option.some.inj (hle.symm.trans rfl)
    exact absurd hsize (by decide)
  · intro h
    have hknown := h.known 33 (nested_sized le_rfl)
    have hnone : dbLayoutOfType nested (.other 0) = none := by decide +kernel
    rw [hnone] at hknown
    cases hknown

end Ore.LayoutLaws
