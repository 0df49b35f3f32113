import Ore.Lexer
import Ore.PathStacks

namespace Ore.PathNormalize

open PathStacks
open Lexer (ch)
open WorkspaceModel (Bytes)

def orePathMax : Nat := 4096

def slash : UInt8 := ch '/'
def dot : Bytes := [ch '.']
def dotDot : Bytes := [ch '.', ch '.']

/-- How a call ends early: with a write past a buffer, or by returning 0. -/
inductive Stop where
  | overrun
  | refused
  deriving DecidableEq, Repr

/-- A buffer of `cap` bytes is filled from the front; its last byte comes first. -/
def write (cap : Nat) (bytes buf : Bytes) : Except Stop Bytes :=
  if buf.length + bytes.length ≤ cap then .ok (bytes.reverse ++ buf) else .error .overrun

/-- The joined path, terminated in a buffer of `orePathMax` bytes. -/
def joinBuffer (dir rel : Bytes) : Except Stop Bytes :=
  if rel.head? = some slash then
    if rel.length + 1 > orePathMax then .error .refused
    else do
      let buf ← write orePathMax rel []
      let _ ← write orePathMax [0] buf
      return buf.reverse
  else
    if dir.length + 1 + rel.length + 1 > orePathMax then .error .refused
    else do
      let buf ← write orePathMax dir []
      let buf ← if buf.head? = some slash then .ok buf else write orePathMax [slash] buf
      let buf ← write orePathMax rel buf
      let _ ← write orePathMax [0] buf
      return buf.reverse

/-- Back to the separator before the last component. -/
def popComponent (out : Bytes) : Bytes :=
  if 1 < out.length then
    (if out.head? = some slash then out.tail else out).dropWhile (· ≠ slash)
  else out

def pushSeparator (cap : Nat) (out : Bytes) : Except Stop Bytes :=
  if out ≠ [] ∧ out.head? ≠ some slash then
    if out.length + 1 ≥ cap then .error .refused else write cap [slash] out
  else .ok out

def takeComponent (cap : Nat) (comp out : Bytes) : Except Stop Bytes :=
  if comp = dot then .ok out
  else if comp = dotDot then .ok (popComponent out)
  else do
    let out ← pushSeparator cap out
    if out.length + comp.length ≥ cap then .error .refused else write cap comp out

/-- The loop over the components of the joined path. -/
def walk (cap : Nat) (rest out : Bytes) : Except Stop Bytes :=
  match _h : rest.dropWhile (· = slash) with
  | [] => .ok out
  | c :: cs => do
      let out ← takeComponent cap ((c :: cs).takeWhile (· ≠ slash)) out
      walk cap ((c :: cs).dropWhile (· ≠ slash)) out
termination_by rest.length
decreasing_by
  have hne : c ≠ slash := by
    have hhead := List.head?_dropWhile_not (· = slash) rest
    rw [_h] at hhead
    simpa using hhead
  have hle : (rest.dropWhile (· = slash)).length ≤ rest.length := (List.dropWhile_sublist _).length_le
  have hcs : (cs.dropWhile (· ≠ slash)).length ≤ cs.length := (List.dropWhile_sublist _).length_le
  rw [_h] at hle
  rw [List.dropWhile_cons_of_pos (by simpa using hne)]
  simp only [List.length_cons] at hle
  omega

def trimSeparators : Bytes → Bytes
  | c :: d :: rest => if c = slash then trimSeparators (d :: rest) else c :: d :: rest
  | short => short

/-- What is returned, and the text left in a buffer of `cap` bytes. -/
def pathNormalize (dir rel : Bytes) (cap : Nat) : Except Stop (Nat × Bytes) :=
  if cap < 2 then .error .refused
  else do
    let buf ← joinBuffer dir rel
    let out ← if buf.head? = some slash then write cap [slash] [] else .ok []
    let out ← walk cap buf out
    let out := trimSeparators out
    let _ ← if out.length < cap then write cap [0] out else .ok out
    return (out.length, out.reverse.take (cap - 1))

def joinedPath (dir rel : Bytes) : Bytes :=
  if rel.head? = some slash then rel
  else if dir.getLast? = some slash then dir ++ rel
  else dir ++ slash :: rel

def JoinFits (dir rel : Bytes) : Prop :=
  if rel.head? = some slash then rel.length + 1 ≤ orePathMax else dir.length + 1 + rel.length + 1 ≤ orePathMax

theorem joinedPath_length {dir rel : Bytes} (h : JoinFits dir rel) : (joinedPath dir rel).length + 1 ≤ orePathMax := by
  unfold JoinFits at h
  unfold joinedPath
  split at h
  · rw [if_pos ‹_›]
    exact h
  · rw [if_neg ‹_›]
    split <;> simp <;> omega

theorem write_fits {cap : Nat} {bytes buf : Bytes} (h : buf.length + bytes.length ≤ cap) :
    write cap bytes buf = .ok (bytes.reverse ++ buf) :=
  if_pos h

theorem joinBuffer_fits {dir rel : Bytes} (h : JoinFits dir rel) : joinBuffer dir rel = .ok (joinedPath dir rel) := by
  have hlength := joinedPath_length h
  unfold JoinFits at h
  unfold joinBuffer joinedPath
  unfold joinedPath at hlength
  by_cases habs : rel.head? = some slash
  · simp only [if_pos habs] at h hlength ⊢
    rw [if_neg (by omega), write_fits (by simp; omega)]
    simp only [bind, Except.bind, List.append_nil]
    rw [write_fits (by simpa using h)]
    simp [pure, Except.pure]
  · simp only [if_neg habs] at h hlength ⊢
    rw [if_neg (by omega), write_fits (by simp; omega)]
    simp only [bind, Except.bind, List.append_nil, List.head?_reverse]
    by_cases hlast : dir.getLast? = some slash
    · simp only [if_pos hlast, List.length_append] at hlength ⊢
      rw [write_fits (by simp; omega)]
      simp only
      rw [write_fits (by simp; omega)]
      simp [pure, Except.pure]
    · simp only [if_neg hlast, List.length_append, List.length_cons] at hlength ⊢
      rw [write_fits (by simp; omega)]
      simp only
      rw [write_fits (by simp; omega)]
      simp only
      rw [write_fits (by simp; omega)]
      simp [pure, Except.pure]

theorem joinBuffer_refused {dir rel : Bytes} (h : ¬ JoinFits dir rel) : joinBuffer dir rel = .error .refused := by
  unfold JoinFits at h
  unfold joinBuffer
  split at h
  · rw [if_pos ‹_›, if_pos (by omega)]
  · rw [if_neg ‹_›, if_pos (by omega)]

def isDot (c : Bytes) : Bool := c = dot
def isDotDot (c : Bytes) : Bool := c = dotDot

def canonicalPath (path : Bytes) : Bytes := canonical isDot isDotDot slash path

/-- The stack of kept components as it stands in the buffer. -/
def written : List Bytes → Bytes
  | [] => []
  | c :: stack => c.reverse ++ slash :: written stack

/-- What the buffer holds for a stack: a separator at the end is left of the root
and of what was taken back. -/
def Shows (stack : List Bytes) (out : Bytes) : Prop :=
  out = slash :: written stack ∨ stack ≠ [] ∧ out = written stack

theorem written_cons_length (c : Bytes) (stack : List Bytes) :
    (written (c :: stack)).length = c.length + 1 + (written stack).length := by
  simp [written]
  omega

theorem written_reverse (stack : List Bytes) : (written stack).reverse = stack.reverse.flatMap (slash :: ·) := by
  induction stack with
  | nil => rfl
  | cons c stack ih => simp [written, ih]

theorem written_head {c : Bytes} (h : IsComponent slash c) (stack : List Bytes) :
    written (c :: stack) ≠ [] ∧ (written (c :: stack)).head? ≠ some slash := by
  have hne : c.reverse ≠ [] := by simpa using h.1
  cases hrev : c.reverse with
  | nil => exact absurd hrev hne
  | cons d ds =>
      have hd : d ∈ c := List.mem_reverse.mp (hrev ▸ List.mem_cons_self ..)
      have hdne : d ≠ slash := fun heq => h.2 (heq ▸ hd)
      simp [written, hrev, hdne]

theorem written_dropWhile {c : Bytes} (h : IsComponent slash c) (stack : List Bytes) :
    (written (c :: stack)).dropWhile (· ≠ slash) = slash :: written stack := by
  have hall : ∀ d ∈ c.reverse, decide (d ≠ slash) = true := fun d hd =>
    decide_eq_true fun heq => h.2 (heq ▸ List.mem_reverse.mp hd)
  rw [written, List.dropWhile_append_of_pos hall, List.dropWhile_cons_of_neg (by simp)]

variable {stack : List Bytes} {out : Bytes} (hstack : ∀ c ∈ stack, IsComponent slash c) (hshow : Shows stack out)

include hstack hshow

theorem popComponent_shows : Shows stack.tail (popComponent out) := by
  cases stack with
  | nil =>
      obtain rfl : out = [slash] := by simpa [Shows, written] using hshow
      exact .inl rfl
  | cons c stack =>
      have hc := hstack c (List.mem_cons_self ..)
      have hlong : 1 < (written (c :: stack)).length := by
        have hpos := List.length_pos_iff.mpr hc.1
        rw [written_cons_length]
        omega
      unfold popComponent
      rcases hshow with rfl | ⟨-, rfl⟩
      · rw [if_pos (by simp; omega), List.head?_cons, if_pos rfl]
        simp only [List.tail_cons, written_dropWhile hc]
        exact .inl rfl
      · rw [if_pos hlong, if_neg (written_head hc stack).2, written_dropWhile hc]
        exact .inl rfl

theorem pushComponent {cap : Nat} {c : Bytes} (hc : IsComponent slash c) (hdot : c ≠ dot) (hdots : c ≠ dotDot) :
    takeComponent cap c out =
      if (written (c :: stack)).length < cap then .ok (written (c :: stack)) else .error .refused := by
  have hlength := written_cons_length c stack
  have hpos := List.length_pos_iff.mpr hc.1
  have hroom (hlt : (written (c :: stack)).length < cap) :
      write cap c (slash :: written stack) = .ok (written (c :: stack)) :=
    write_fits (by simp only [List.length_cons]; omega)
  unfold takeComponent pushSeparator
  rw [if_neg hdot, if_neg hdots]
  rcases hshow with rfl | ⟨hne, rfl⟩
  · simp only [List.head?_cons, ne_eq, not_true, and_false, if_false, bind, Except.bind, List.length_cons]
    by_cases hlt : (written (c :: stack)).length < cap
    · rw [if_neg (by omega), if_pos hlt, hroom hlt]
    · rw [if_pos (by omega), if_neg hlt]
  · cases stack with
    | nil => exact absurd rfl hne
    | cons d stack =>
        rw [if_pos (written_head (hstack d (List.mem_cons_self ..)) stack)]
        by_cases hlt : (written (c :: d :: stack)).length < cap
        · rw [if_neg (by omega), write_fits (by simp only [List.length_singleton]; omega), if_pos hlt]
          simp only [bind, Except.bind, List.reverse_singleton, List.singleton_append, List.length_cons]
          rw [if_neg (by omega), hroom hlt]
        · rw [if_neg hlt]
          split
          · rfl
          · rw [write_fits (by simp only [List.length_singleton]; omega)]
            simp only [bind, Except.bind, List.reverse_singleton, List.singleton_append, List.length_cons]
            rw [if_pos (by omega)]

theorem trimSeparators_shows : (trimSeparators out).reverse = rooted slash stack := by
  unfold rooted
  cases stack with
  | nil =>
      obtain rfl : out = [slash] := by simpa [Shows, written] using hshow
      rfl
  | cons c stack =>
      have hc := hstack c (List.mem_cons_self ..)
      have hkeep : trimSeparators (written (c :: stack)) = written (c :: stack) := by
        have hhead := (written_head hc stack).2
        cases hout : written (c :: stack) with
        | nil => rfl
        | cons d rest =>
            have hd : d ≠ slash := by simpa [hout] using hhead
            cases rest with
            | nil => rfl
            | cons e rest => rw [trimSeparators, if_neg hd]
      rw [if_neg (List.cons_ne_nil _ _), ← written_reverse]
      rcases hshow with rfl | ⟨-, rfl⟩
      · cases hout : written (c :: stack) with
        | nil => exact absurd hout (written_head hc stack).1
        | cons d rest => rw [trimSeparators, if_pos rfl, ← hout, hkeep]
      · rw [hkeep]

omit hstack hshow

theorem written_tail_length (stack : List Bytes) : (written stack.tail).length ≤ (written stack).length := by
  cases stack with
  | nil => exact Nat.le_refl _
  | cons c stack =>
      rw [written_cons_length, List.tail_cons]
      omega

theorem takeComponent_spec {cap : Nat} {c out : Bytes} {stack : List Bytes}
    (hstack : ∀ d ∈ stack, IsComponent slash d) (hshow : Shows stack out) (hc : IsComponent slash c)
    (hlt : (written stack).length < cap) :
    (∃ out', takeComponent cap c out = .ok out' ∧ Shows (place isDot isDotDot stack c) out' ∧
      (written (place isDot isDotDot stack c)).length < cap ∧
      (written (place isDot isDotDot stack c)).length ≤ (written stack).length + 1 + c.length) ∨
    takeComponent cap c out = .error .refused ∧ cap ≤ (written stack).length + 1 + c.length := by
  by_cases hdot : c = dot
  · have hplace : place isDot isDotDot stack c = stack := by simp [place, isDot, hdot]
    rw [hplace]
    exact .inl ⟨out, by simp [takeComponent, hdot], hshow, hlt, by omega⟩
  by_cases hdots : c = dotDot
  · have hplace : place isDot isDotDot stack c = stack.tail := by
      rw [place, if_neg (by simpa [isDot] using hdot), if_pos (by simpa [isDotDot] using hdots)]
    have hle := written_tail_length stack
    rw [hplace]
    refine .inl ⟨popComponent out, ?_, popComponent_shows hstack hshow, by omega, by omega⟩
    rw [takeComponent, if_neg hdot, if_pos hdots]
  · have hplace : place isDot isDotDot stack c = c :: stack := by simp [place, isDot, isDotDot, hdot, hdots]
    have hlength := written_cons_length c stack
    rw [hplace, pushComponent hstack hshow hc hdot hdots]
    by_cases hroom : (written (c :: stack)).length < cap
    · exact .inl ⟨_, if_pos hroom, .inr ⟨List.cons_ne_nil _ _, rfl⟩, hroom, by omega⟩
    · exact .inr ⟨if_neg hroom, by omega⟩

theorem place_components {c : Bytes} {stack : List Bytes} (hstack : ∀ d ∈ stack, IsComponent slash d)
    (hc : IsComponent slash c) : ∀ d ∈ place isDot isDotDot stack c, IsComponent slash d := by
  intro d hd
  unfold place at hd
  split at hd
  · exact hstack d hd
  · split at hd
    · exact hstack d (List.mem_of_mem_tail hd)
    · rcases List.mem_cons.mp hd with rfl | hd
      · exact hc
      · exact hstack d hd

theorem walk_spec {cap : Nat} {rest out : Bytes} {stack : List Bytes} (hstack : ∀ c ∈ stack, IsComponent slash c)
    (hshow : Shows stack out) (hlt : (written stack).length < cap) :
    (∃ out', walk cap rest out = .ok out' ∧ Shows (resolve isDot isDotDot stack (components slash rest)) out' ∧
      (written (resolve isDot isDotDot stack (components slash rest))).length < cap) ∨
    walk cap rest out = .error .refused ∧
      (rest = [] ∨ rest.head? = some slash → cap ≤ (written stack).length + rest.length) := by
  induction hn : rest.length using Nat.strong_induction_on generalizing rest out stack with
  | _ n ih =>
      rw [← components_dropWhile]
      unfold walk
      split
      · rename_i hnil
        rw [hnil]
        exact .inl ⟨out, rfl, hshow, hlt⟩
      · rename_i c cs hcons
        have hne : c ≠ slash := by
          have hhead := List.head?_dropWhile_not (· = slash) rest
          rw [hcons] at hhead
          simpa using hhead
        have hle : (c :: cs).length ≤ rest.length := hcons ▸ (List.dropWhile_sublist _).length_le
        have hskip : rest = [] ∨ rest.head? = some slash → (c :: cs).length + 1 ≤ rest.length := by
          rintro (rfl | hhead)
          · simp at hcons
          · cases rest with
            | nil => simp at hhead
            | cons d ds =>
                obtain rfl : d = slash := by simpa using hhead
                rw [List.dropWhile_cons_of_pos (by simp)] at hcons
                have hds : (c :: cs).length ≤ ds.length := hcons ▸ (List.dropWhile_sublist _).length_le
                exact Nat.succ_le_succ hds
        have hsplit : ((c :: cs).takeWhile (· ≠ slash)).length + ((c :: cs).dropWhile (· ≠ slash)).length =
            (c :: cs).length := by
          rw [← List.length_append, List.takeWhile_append_dropWhile]
        have hcomp := isComponent_takeWhile hne cs
        have hpos := List.length_pos_iff.mpr hcomp.1
        have hnext : (c :: cs).dropWhile (· ≠ slash) = [] ∨ ((c :: cs).dropWhile (· ≠ slash)).head? = some slash := by
          cases hdrop : (c :: cs).dropWhile (· ≠ slash) with
          | nil => exact .inl rfl
          | cons d ds =>
              have hhead := List.head?_dropWhile_not (· ≠ slash) (c :: cs)
              rw [hdrop] at hhead
              exact .inr (by simpa using hhead)
        rw [hcons, components_takeWhile hne, resolve, List.foldl_cons]
        rcases takeComponent_spec hstack hshow hcomp hlt with ⟨out', htake, hshow', hlt', hgrow⟩ | ⟨htake, hfull⟩
        · rw [htake]
          rcases ih ((c :: cs).dropWhile (· ≠ slash)).length (by omega)
            (place_components hstack hcomp) hshow' hlt' rfl with hdone | ⟨hstop, hfull⟩
          · exact .inl hdone
          · refine .inr ⟨hstop, fun hstart => ?_⟩
            have hfull := hfull hnext
            have hskip := hskip hstart
            omega
        · rw [htake]
          refine .inr ⟨rfl, fun hstart => ?_⟩
          have hskip := hskip hstart
          omega

def Fits (dir rel : Bytes) (cap : Nat) : Prop := JoinFits dir rel ∧ (joinedPath dir rel).length < cap

theorem joinedPath_head {dir : Bytes} (habs : dir.head? = some slash) (rel : Bytes) :
    (joinedPath dir rel).head? = some slash := by
  unfold joinedPath
  split
  · assumption
  · cases dir with
    | nil => simp at habs
    | cons c dir => split <;> exact habs

theorem canonicalPath_head (path : Bytes) : (canonicalPath path).head? = some slash := by
  unfold canonicalPath canonical rooted
  split
  · rfl
  · cases hrev : (resolve isDot isDotDot [] (components slash path)).reverse with
    | nil => exact absurd (List.reverse_eq_nil_iff.mp hrev) ‹_›
    | cons c cs => rfl

theorem pathNormalize_cases {dir : Bytes} (habs : dir.head? = some slash) (rel : Bytes) (cap : Nat) :
    pathNormalize dir rel cap =
        .ok ((canonicalPath (joinedPath dir rel)).length, canonicalPath (joinedPath dir rel)) ∧
      JoinFits dir rel ∧ (canonicalPath (joinedPath dir rel)).length < cap ∨
    pathNormalize dir rel cap = .error .refused ∧ ¬ Fits dir rel cap := by
  have hhead := joinedPath_head habs rel
  unfold pathNormalize
  by_cases hsmall : cap < 2
  · refine .inr ⟨if_pos hsmall, fun hfits => ?_⟩
    have hroom := hfits.2
    have hpos : 0 < (joinedPath dir rel).length := List.length_pos_iff.mpr fun hnil => by simp [hnil] at hhead
    omega
  rw [if_neg hsmall]
  by_cases hjoin : JoinFits dir rel
  · have hroot : write cap [slash] [] = .ok [slash] := write_fits (by simp; omega)
    simp only [joinBuffer_fits hjoin, bind, Except.bind, hhead, if_true, hroot]
    rcases @walk_spec cap (joinedPath dir rel) [slash] [] (by simp) (.inl rfl) (by simp [written]; omega) with
      ⟨out, hwalk, hshow, hroom⟩ | ⟨hwalk, hfull⟩
    · have hcomps : ∀ c ∈ resolve isDot isDotDot [] (components slash (joinedPath dir rel)), IsComponent slash c :=
        fun c hc => (resolve_components _ c hc).2
      have htrim := trimSeparators_shows hcomps hshow
      have hlength : (trimSeparators out).length < cap := by
        rw [← List.length_reverse, htrim, rooted]
        split
        · simp
          omega
        · rw [← written_reverse, List.length_reverse]
          exact hroom
      have hsame : (trimSeparators out).length = (canonicalPath (joinedPath dir rel)).length := by
        rw [← List.length_reverse, htrim]
        rfl
      refine .inl ⟨?_, hjoin, hsame ▸ hlength⟩
      simp only [hwalk, if_pos hlength]
      rw [write_fits (by simp; omega)]
      simp only [pure, Except.pure]
      rw [List.take_of_length_le (by simp; omega), hsame, htrim]
      rfl
    · refine .inr ⟨by rw [hwalk], fun hfits => ?_⟩
      have hfull := hfull (.inr hhead)
      have hroom := hfits.2
      simp only [written, List.length_nil] at hfull
      omega
  · refine .inr ⟨?_, fun hfits => hjoin hfits.1⟩
    simp [joinBuffer_refused hjoin, bind, Except.bind]

/-- The path `a/b`. -/
def pathJoin (a b : Bytes) : Bytes := if b.head? = some slash ∨ a = [] then b else a ++ slash :: b

theorem components_joinedPath (dir : Bytes) {rel : Bytes} (h : rel.head? ≠ some slash) :
    components slash (joinedPath dir rel) = components slash dir ++ components slash rel := by
  unfold joinedPath
  rw [if_neg h]
  split
  · rename_i hlast
    obtain ⟨d, rfl⟩ := List.getLast?_eq_some_iff.mp hlast
    rw [List.append_assoc, List.singleton_append, components_append, components_append, components_nil,
      List.append_nil]
  · exact components_append slash dir rel

theorem canonicalPath_pathJoin (dir a b : Bytes) :
    canonicalPath (joinedPath (canonicalPath (joinedPath dir a)) b) =
      canonicalPath (joinedPath dir (pathJoin a b)) := by
  by_cases hb : b.head? = some slash
  · have hjoin : pathJoin a b = b := if_pos (.inl hb)
    have hsame (d : Bytes) : joinedPath d b = b := if_pos hb
    rw [hjoin, hsame, hsame]
  have hcomps : components slash (joinedPath dir (pathJoin a b)) =
      components slash (joinedPath dir a) ++ components slash b := by
    by_cases ha : a = []
    · subst ha
      rw [pathJoin, if_pos (.inr rfl), components_joinedPath dir hb, components_joinedPath dir (by simp),
        components_nil, List.append_nil]
    · have hhead : (a ++ slash :: b).head? = a.head? := List.head?_append_of_ne_nil _ ha
      rw [pathJoin, if_neg (by simp [hb, ha])]
      by_cases habs : a.head? = some slash
      · have hleft : joinedPath dir (a ++ slash :: b) = a ++ slash :: b := if_pos (hhead.trans habs)
        have hright : joinedPath dir a = a := if_pos habs
        rw [hleft, hright, components_append]
      · rw [components_joinedPath dir (by rwa [hhead]), components_joinedPath dir habs, components_append,
          List.append_assoc]
  unfold canonicalPath at *
  rw [canonical, components_joinedPath _ hb, resolve_append, resolve_canonical, ← resolve_append, ← hcomps]
  rfl

theorem pathNormalize_fits {dir rel : Bytes} {cap : Nat} (habs : dir.head? = some slash) (h : Fits dir rel cap) :
    pathNormalize dir rel cap =
      .ok ((canonicalPath (joinedPath dir rel)).length, canonicalPath (joinedPath dir rel)) :=
  ((pathNormalize_cases habs rel cap).resolve_right fun hstop => hstop.2 h).1

theorem canonicalPath_length {dir rel : Bytes} (habs : dir.head? = some slash) (h : JoinFits dir rel) :
    (canonicalPath (joinedPath dir rel)).length ≤ (joinedPath dir rel).length := by
  have hfits : Fits dir rel ((joinedPath dir rel).length + 1) := ⟨h, Nat.lt_succ_self _⟩
  have hcases := (pathNormalize_cases habs rel _).resolve_right fun hstop => hstop.2 hfits
  exact Nat.le_of_lt_succ hcases.2.2

/-- `path_normalize` in a directory: what it returns, when it returns 0, and that it
stays in its buffers. -/
theorem path_normalize_canonical (dir rel : Bytes) (cap : Nat) (habs : dir.head? = some slash) :
    pathNormalize dir rel cap ≠ .error .overrun ∧
    (Fits dir rel cap → pathNormalize dir rel cap =
      .ok ((canonicalPath (joinedPath dir rel)).length, canonicalPath (joinedPath dir rel))) ∧
    (∀ n out, pathNormalize dir rel cap = .ok (n, out) → out = canonicalPath (joinedPath dir rel) ∧ n = out.length) ∧
    (cap ≤ (canonicalPath (joinedPath dir rel)).length → pathNormalize dir rel cap = .error .refused) ∧
    (∀ c ∈ components slash (canonicalPath (joinedPath dir rel)), c ≠ [] ∧ c ≠ dot ∧ c ≠ dotDot) ∧
    (∀ dir' n out, pathNormalize dir rel cap = .ok (n, out) → dir'.head? = some slash →
      pathNormalize dir' out cap = .ok (n, out)) ∧
    ∀ next n out, pathNormalize dir rel cap = .ok (n, out) → Fits out next cap → Fits dir (pathJoin rel next) cap →
      pathNormalize out next cap = pathNormalize dir (pathJoin rel next) cap := by
  have hcases := pathNormalize_cases habs rel cap
  have hresult (n : Nat) (out : Bytes) (hok : pathNormalize dir rel cap = .ok (n, out)) :
      out = canonicalPath (joinedPath dir rel) ∧ n = out.length ∧ JoinFits dir rel ∧ out.length < cap := by
    rcases hcases with ⟨hdone, hjoin, hroom⟩ | ⟨hstop, -⟩
    · rw [hdone] at hok
      cases hok
      exact ⟨rfl, rfl, hjoin, hroom⟩
    · rw [hstop] at hok
      cases hok
  refine ⟨?_, pathNormalize_fits habs,
    fun n out hok => ⟨(hresult n out hok).1, (hresult n out hok).2.1⟩, ?_, ?_, ?_, ?_⟩
  · rcases hcases with ⟨hdone, -⟩ | ⟨hstop, -⟩ <;> simp [*]
  · intro hlong
    rcases hcases with ⟨-, -, hlt⟩ | ⟨hstop, -⟩
    · omega
    · exact hstop
  · intro c hc
    obtain ⟨hdot, hdots⟩ := kept_of_canonical hc
    exact ⟨(isComponent_of_mem hc).1, by simpa [isDot] using hdot, by simpa [isDotDot] using hdots⟩
  · intro dir' n out hok habs'
    obtain ⟨rfl, rfl, hjoin, hroom⟩ := hresult n out hok
    have hsame : joinedPath dir' (canonicalPath (joinedPath dir rel)) = canonicalPath (joinedPath dir rel) :=
      if_pos (canonicalPath_head _)
    have hlength := canonicalPath_length habs hjoin
    have hjoined := joinedPath_length hjoin
    have hfits : Fits dir' (canonicalPath (joinedPath dir rel)) cap := by
      refine ⟨?_, by rw [hsame]; exact hroom⟩
      rw [JoinFits, if_pos (canonicalPath_head _)]
      omega
    have hidem : canonicalPath (canonicalPath (joinedPath dir rel)) = canonicalPath (joinedPath dir rel) :=
      canonical_idem _
    rw [pathNormalize_fits habs' hfits, hsame, hidem]
  · intro next n out hok hnext hboth
    obtain ⟨rfl, -⟩ := hresult n out hok
    rw [pathNormalize_fits (canonicalPath_head _) hnext, pathNormalize_fits habs hboth, canonicalPath_pathJoin]

/-- `/p/./q` with `../..//r/` is `/r`. -/
theorem path_normalize_canonical_up :
    pathNormalize [47, 112, 47, 46, 47, 113] [46, 46, 47, 46, 46, 47, 47, 114, 47] 32 = .ok (2, [47, 114]) :=
  (path_normalize_canonical [47, 112, 47, 46, 47, 113] [46, 46, 47, 46, 46, 47, 47, 114, 47] 32 (by decide)).2.1
    ⟨by unfold JoinFits; decide, by decide⟩

section Workspace

theorem workspace_slash : WorkspacePaths.slash = slash := rfl

theorem workspace_cap : WorkspacePaths.orePathMax = orePathMax := rfl

theorem workspace_dot : [WorkspacePaths.dot] = dot := rfl

theorem workspace_dotDot : [WorkspacePaths.dot, WorkspacePaths.dot] = dotDot := rfl

theorem joinPath_eq (dir rel : Bytes) : WorkspacePaths.joinPath dir rel = (joinBuffer dir rel).toOption := by
  rw [WorkspacePaths.joinPath, workspace_slash, workspace_cap]
  by_cases hfits : JoinFits dir rel
  · rw [joinBuffer_fits hfits]
    unfold JoinFits at hfits
    unfold joinedPath
    by_cases habs : rel.head? = some slash
    · rw [if_pos habs] at hfits
      rw [if_pos habs, if_pos habs, if_neg (Nat.not_lt.mpr hfits)]
      rfl
    · rw [if_neg habs] at hfits
      rw [if_neg habs, if_neg habs, if_neg (Nat.not_lt.mpr hfits)]
      by_cases hlast : dir.getLast? = some slash
      · have hne : ¬ (dir = [] ∨ dir.getLast? ≠ some slash) := by
          rintro (rfl | h)
          · simp at hlast
          · exact h hlast
        rw [if_pos hlast, if_neg hne]
        rfl
      · rw [if_neg hlast, if_pos (.inr hlast), List.append_assoc]
        rfl
  · rw [joinBuffer_refused hfits]
    unfold JoinFits at hfits
    by_cases habs : rel.head? = some slash
    · rw [if_pos habs] at hfits
      rw [if_pos habs, if_pos (Nat.lt_of_not_le hfits)]
      rfl
    · rw [if_neg habs] at hfits
      rw [if_neg habs, if_pos (Nat.lt_of_not_le hfits)]
      rfl

theorem popComponent_reverse (out : Bytes) :
    WorkspacePaths.popComponent out.reverse = (popComponent out).reverse := by
  rw [WorkspacePaths.popComponent, popComponent, workspace_slash, List.length_reverse, List.getLast?_reverse,
    List.dropLast_reverse]
  by_cases hlong : 1 < out.length
  · rw [if_pos hlong, if_pos hlong]
    by_cases hend : out.head? = some slash
    · rw [if_pos hend, if_pos hend, List.rdropWhile, List.reverse_reverse]
    · rw [if_neg hend, if_neg hend, List.rdropWhile, List.reverse_reverse]
  · rw [if_neg hlong, if_neg hlong]

theorem write_reverse (cap : Nat) (out c : Bytes) :
    (if out.length + c.length ≥ cap then none else some (out.reverse ++ c)) =
      (if out.length + c.length ≥ cap then .error .refused else write cap c out).toOption.map List.reverse := by
  by_cases hfull : out.length + c.length ≥ cap
  · rw [if_pos hfull, if_pos hfull]
    rfl
  · rw [if_neg hfull, if_neg hfull, write_fits (by omega)]
    simp [Except.toOption]

theorem pushComponent_reverse (cap : Nat) (out c : Bytes) :
    WorkspacePaths.pushComponent cap out.reverse c = (takeComponent cap c out).toOption.map List.reverse := by
  rw [WorkspacePaths.pushComponent, takeComponent, workspace_slash, workspace_dotDot, workspace_dot]
  by_cases hdot : c = dot
  · rw [if_pos hdot, if_pos hdot]
    rfl
  rw [if_neg hdot, if_neg hdot]
  by_cases hdots : c = dotDot
  · rw [if_pos hdots, if_pos hdots, popComponent_reverse]
    rfl
  have hiff : (out.reverse ≠ [] ∧ out.reverse.getLast? ≠ some slash) ↔ out ≠ [] ∧ out.head? ≠ some slash := by
    rw [List.getLast?_reverse, ne_eq, List.reverse_eq_nil_iff]
  rw [if_neg hdots, if_neg hdots, pushSeparator]
  by_cases hsep : out ≠ [] ∧ out.head? ≠ some slash
  · rw [if_pos hsep]
    simp only [eq_true (hiff.mpr hsep), true_and, if_true, List.length_reverse]
    by_cases hfull : out.length + 1 ≥ cap
    · rw [if_pos hfull, if_pos hfull]
      rfl
    · rw [if_neg hfull, if_neg hfull, write_fits (Nat.le_of_not_le hfull)]
      have hlast := write_reverse cap (slash :: out) c
      simpa [bind, Except.bind] using hlast
  · rw [if_neg hsep]
    simp only [eq_false fun h => hsep (hiff.mp h), false_and, if_false, List.length_reverse]
    exact write_reverse cap out c

theorem trimSeparators_length (out : Bytes) : (trimSeparators out).length ≤ out.length := by
  fun_induction trimSeparators out with
  | case1 d rest ih => exact Nat.le_succ_of_le ih
  | case2 => exact Nat.le_refl _
  | case3 => exact Nat.le_refl _

theorem trimSlashes_concat {out : Bytes} (h : out ≠ []) (c : UInt8) :
    WorkspacePaths.trimSlashes (out ++ [c]) = if c = slash then WorkspacePaths.trimSlashes out else out ++ [c] := by
  cases out with
  | nil => exact absurd rfl h
  | cons d ds =>
      rw [WorkspacePaths.trimSlashes, workspace_slash, List.cons_append, List.take_succ_cons, List.drop_succ_cons,
        List.take_zero, List.drop_zero, List.rdropWhile_concat]
      by_cases hc : c = slash
      · rw [if_pos hc, if_pos (decide_eq_true hc)]
        rfl
      · rw [if_neg hc, if_neg (by simpa using hc)]
        rfl

theorem trimSlashes_reverse (out : Bytes) :
    WorkspacePaths.trimSlashes out.reverse = (trimSeparators out).reverse := by
  fun_induction trimSeparators out with
  | case1 d rest ih => rw [List.reverse_cons, trimSlashes_concat (by simp), if_pos rfl, ih]
  | case2 c d rest hc => rw [List.reverse_cons, trimSlashes_concat (by simp), if_neg hc]
  | case3 out hshort =>
      rcases out with _ | ⟨c, _ | ⟨d, rest⟩⟩
      · rfl
      · rfl
      · exact absurd rfl (hshort c d rest)

theorem walk_eq (cap : Nat) (rest out : Bytes) :
    walk cap rest out = (components slash rest).foldlM (fun out c => takeComponent cap c out) out := by
  fun_induction walk cap rest out with
  | case1 rest out hrest =>
      rw [← components_dropWhile, hrest]
      rfl
  | case2 rest out c cs hrest ih =>
      have hne : c ≠ slash := by
        have hhead := List.head?_dropWhile_not (· = slash) rest
        rw [hrest] at hhead
        simpa using hhead
      rw [← components_dropWhile, hrest, components_takeWhile hne, List.foldlM_cons]
      exact bind_congr ih

theorem popComponent_length (out : Bytes) : (popComponent out).length ≤ out.length := by
  unfold popComponent
  split
  · refine (List.dropWhile_sublist _).length_le.trans ?_
    split
    · exact (List.tail_sublist out).length_le
    · exact Nat.le_refl _
  · exact Nat.le_refl _

theorem takeComponent_length {cap : Nat} {c out out' : Bytes} (hlt : out.length < cap)
    (h : takeComponent cap c out = .ok out') : out'.length < cap := by
  unfold takeComponent at h
  split at h
  · cases h
    exact hlt
  split at h
  · cases h
    exact Nat.lt_of_le_of_lt (popComponent_length out) hlt
  cases hsep : pushSeparator cap out with
  | error e => simp [hsep, bind, Except.bind] at h
  | ok buf =>
      simp only [hsep, bind, Except.bind] at h
      split at h
      · cases h
      · rw [write_fits (by omega)] at h
        cases h
        simp
        omega

theorem foldlM_reverse {cap : Nat} (cs : List Bytes) {out : Bytes} (hlt : out.length < cap) :
    (∃ out', cs.foldlM (fun out c => takeComponent cap c out) out = .ok out' ∧ out'.length < cap ∧
      cs.foldlM (WorkspacePaths.pushComponent cap) out.reverse = some out'.reverse) ∨
    (∃ e, cs.foldlM (fun out c => takeComponent cap c out) out = .error e) ∧
      cs.foldlM (WorkspacePaths.pushComponent cap) out.reverse = none := by
  induction cs generalizing out with
  | nil => exact .inl ⟨out, rfl, hlt, rfl⟩
  | cons c cs ih =>
      rw [List.foldlM_cons, List.foldlM_cons, pushComponent_reverse]
      cases htake : takeComponent cap c out with
      | error e => exact .inr ⟨⟨e, rfl⟩, rfl⟩
      | ok buf => exact ih (takeComponent_length hlt htake)

theorem finish_reverse {cap : Nat} (buf : Bytes) {out : Bytes} (hlt : out.length < cap) :
    (((components slash buf).foldlM (WorkspacePaths.pushComponent cap) out.reverse).map
        WorkspacePaths.trimSlashes).getD [] =
      match (do
        let out ← walk cap buf out
        let out := trimSeparators out
        let _ ← if out.length < cap then write cap [0] out else .ok out
        return (out.length, out.reverse.take (cap - 1)) : Except Stop (Nat × Bytes)) with
      | .ok (_, out) => out
      | .error _ => [] := by
  rw [walk_eq]
  rcases foldlM_reverse (components slash buf) hlt with ⟨out', hdone, hlt', hdone'⟩ | ⟨⟨e, hstop⟩, hstop'⟩
  · have htrim := Nat.lt_of_le_of_lt (trimSeparators_length out') hlt'
    rw [hdone, hdone', Option.map_some, Option.getD_some, trimSlashes_reverse]
    simp only [bind, Except.bind, pure, Except.pure]
    rw [if_pos htrim, write_fits htrim]
    simp only
    rw [List.take_of_length_le (by rw [List.length_reverse]; omega)]
  · rw [hstop, hstop']
    rfl

/-- The paths of the workspace are those that `path_normalize` writes. -/
theorem workspace_pathNormalize (dir rel : Bytes) (cap : Nat) :
    WorkspacePaths.pathNormalize dir rel cap = match pathNormalize dir rel cap with
      | .ok (_, out) => out
      | .error _ => [] := by
  unfold WorkspacePaths.pathNormalize pathNormalize
  split
  · rfl
  · next hcap =>
      rw [joinPath_eq, workspace_slash]
      cases hjoin : joinBuffer dir rel with
      | error e => rfl
      | ok buf =>
          have hone : [slash].length < cap := by simp; omega
          simp only [Except.toOption, bind, Except.bind]
          by_cases habs : buf.head? = some slash
          · rw [if_pos habs, if_pos habs, write_fits (Nat.le_of_lt hone)]
            exact finish_reverse buf hone
          · rw [if_neg habs, if_neg habs]
            exact finish_reverse buf (Nat.lt_of_succ_lt hone)

end Workspace

end Ore.PathNormalize
