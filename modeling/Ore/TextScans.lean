import Ore.TextChunks

namespace Ore.TextScans

open RedTree TextChunks
open WorkspaceModel (Bytes)

section Copy

structure ToCstrCtx where
  buf : Option Bytes
  cap : Nat
  pos : Nat

def memcpy (buf : Bytes) (pos : Nat) (src : Bytes) : Bytes := buf.take pos ++ src ++ buf.drop (pos + src.length)

def toCstrVisit : Visitor ToCstrCtx := fun ctx text =>
  let buf := if 0 < ctx.cap then
      let space := ctx.cap - 1
      let pos := if ctx.pos < space then ctx.pos else space
      let toCopy := if pos + text.length ≤ space then text.length else space - pos
      if 0 < toCopy then ctx.buf.map (memcpy · pos (text.take toCopy)) else ctx.buf
    else ctx.buf
  some (⟨buf, ctx.cap, ctx.pos + text.length⟩, true)

/-- The buffer afterwards, if there is one, and the length of the text. -/
def syntaxTextToCstr (fuel : Nat) (st : SyntaxText) (buf : Option Bytes) (bufcap : Nat) : Option (Option Bytes × Nat) :=
  (forEachChunk fuel st toCstrVisit ⟨buf, bufcap, 0⟩).map fun (ctx, _) =>
    (if 0 < bufcap then ctx.buf.map (memcpy · (if ctx.pos < bufcap - 1 then ctx.pos else bufcap - 1) [0]) else ctx.buf,
      ctx.pos)

end Copy

section Bytes

structure ByteAtCtx where
  target : Nat
  cursor : Nat
  result : Option UInt8

def byteAtVisit : Visitor ByteAtCtx := fun ctx text =>
  let chunkEnd := ctx.cursor + text.length
  if ctx.cursor ≤ ctx.target ∧ ctx.target < chunkEnd then
    some ({ ctx with result := text[ctx.target - ctx.cursor]? }, false)
  else some ({ ctx with cursor := chunkEnd }, true)

def syntaxTextByteAt (fuel : Nat) (st : SyntaxText) (offset : Nat) : Option (Option UInt8) :=
  if offset < st.range.start then some none
  else if st.range.stop ≤ offset then some none
  else (forEachChunk fuel st byteAtVisit ⟨offset, st.range.start, none⟩).map fun (ctx, _) => ctx.result

structure FindByteCtx where
  needle : UInt8
  cursor : Nat
  foundAt : Option Nat

def findByteVisit : Visitor FindByteCtx := fun ctx text =>
  match text.findIdx? (· == ctx.needle) with
  | some i => some ({ ctx with foundAt := some (ctx.cursor + i) }, false)
  | none => some ({ ctx with cursor := ctx.cursor + text.length }, true)

def syntaxTextFindByte (fuel : Nat) (st : SyntaxText) (c : UInt8) : Option (Option Nat) :=
  (forEachChunk fuel st findByteVisit ⟨c, st.range.start, none⟩).map fun (ctx, _) => ctx.foundAt

structure EqCstrCtx where
  p : Bytes
  remaining : Nat
  mismatch : Bool

def eqCstrVisit : Visitor EqCstrCtx := fun ctx text =>
  if ctx.remaining < text.length then some ({ ctx with mismatch := true }, false)
  else if text ≠ ctx.p.take text.length then some ({ ctx with mismatch := true }, false)
  else some ({ ctx with p := ctx.p.drop text.length, remaining := ctx.remaining - text.length }, true)

def syntaxTextEqCstr (fuel : Nat) (st : SyntaxText) (cstr : Bytes) : Option Bool :=
  let want := cstr.length
  if want ≠ st.range.length then some false
  else (forEachChunk fuel st eqCstrVisit ⟨cstr, want, false⟩).map fun (ctx, _) =>
    if ctx.mismatch then false else ctx.remaining == 0

end Bytes

variable {fuel : Nat} {st : SyntaxText} {cs : List Bytes} {b text done : Bytes}

section Copy

theorem memcpy_append (l m src : Bytes) : memcpy (l ++ m) l.length src = l ++ src ++ m.drop src.length := by
  rw [memcpy, List.take_left, List.drop_append, List.drop_eq_nil_of_le (by omega), Nat.add_sub_cancel_left,
    List.nil_append]

def copied (b : Bytes) (cap : Nat) (done : Bytes) : Bytes := done.take (cap - 1) ++ b.drop (min done.length (cap - 1))

theorem copied_append (b : Bytes) (cap : Nat) (done text : Bytes) :
    memcpy (copied b cap done) (done.take (cap - 1)).length (text.take (min text.length (cap - 1 - done.length))) =
      copied b cap (done ++ text) := by
  have htext : text.take (min text.length (cap - 1 - done.length)) = text.take (cap - 1 - done.length) := by
    rw [List.take_eq_take_iff]
    omega
  have hdrop : min done.length (cap - 1) + (text.take (cap - 1 - done.length)).length =
      min (done ++ text).length (cap - 1) := by
    rw [List.length_take, List.length_append]
    omega
  rw [htext, copied, memcpy_append, List.drop_drop, hdrop, copied, List.take_append]

theorem copied_full {cap : Nat} (h : min text.length (cap - 1 - done.length) = 0) :
    copied b cap (done ++ text) = copied b cap done := by
  rw [← copied_append, h, List.take_zero, memcpy, List.append_nil, List.length_nil, Nat.add_zero, List.take_append_drop]

theorem toCstrVisit_copied {cap : Nat} (hcap : 0 < cap) :
    toCstrVisit ⟨some (copied b cap done), cap, done.length⟩ text =
      some (⟨some (copied b cap (done ++ text)), cap, (done ++ text).length⟩, true) := by
  have hpos : (if done.length < cap - 1 then done.length else cap - 1) = (done.take (cap - 1)).length := by
    rw [List.length_take]
    split_ifs <;> omega
  have hcopy : (if (done.take (cap - 1)).length + text.length ≤ cap - 1 then text.length
      else cap - 1 - (done.take (cap - 1)).length) = min text.length (cap - 1 - done.length) := by
    rw [List.length_take]
    split_ifs <;> omega
  rw [toCstrVisit]
  simp only [hcap, if_true, hpos, hcopy, List.length_append, Option.map_some, copied_append]
  split_ifs with hmore
  · rfl
  · rw [copied_full (Nat.eq_zero_of_not_pos hmore)]

theorem visitAll_toCstr {cap : Nat} (hcap : 0 < cap) (cs : List Bytes) (done : Bytes) :
    visitAll toCstrVisit cs ⟨some (copied b cap done), cap, done.length⟩ =
      some (⟨some (copied b cap (done ++ cs.flatten)), cap, (done ++ cs.flatten).length⟩, true) := by
  induction cs generalizing done with
  | nil => simp [visitAll]
  | cons text cs ih =>
      rw [visitAll, toCstrVisit_copied hcap]
      simp only [Option.bind_some, if_true]
      rw [ih, List.flatten_cons, List.append_assoc]

theorem visitAll_toCstr_length (cs : List Bytes) (buf : Option Bytes) (cap pos : Nat) :
    ∃ buf', visitAll toCstrVisit cs ⟨buf, cap, pos⟩ = some (⟨buf', cap, pos + cs.flatten.length⟩, true) := by
  induction cs generalizing buf pos with
  | nil => exact ⟨buf, rfl⟩
  | cons text cs ih =>
      rw [visitAll, toCstrVisit]
      simp only [Option.bind_some, if_true]
      obtain ⟨buf', hall⟩ := ih _ (pos + text.length)
      rw [hall, List.flatten_cons, List.length_append, Nat.add_assoc]
      exact ⟨buf', rfl⟩

/-- The text is copied as far as the buffer goes, with a NUL behind it. -/
theorem toCstr_flat (hnode : st.node.isToken = false) (hrange : st.node.textRange.contains st.range = true)
    (hfuel : (walkOf st).length < fuel) {cap : Nat} (hcap : 0 < cap) (b : Bytes) :
    syntaxTextToCstr fuel st (some b) cap = some (some ((flat st).take (cap - 1) ++ [0] ++
      b.drop (min (flat st).length (cap - 1) + 1)), (flat st).length) := by
  have hstart : b = copied b cap [] := by simp [copied]
  have hall := visitAll_toCstr (b := b) hcap (chunks st) []
  rw [← hstart, List.nil_append, chunks_flat hrange] at hall
  have hpos : (if (flat st).length < cap - 1 then (flat st).length else cap - 1) =
      ((flat st).take (cap - 1)).length := by
    rw [List.length_take]
    split_ifs <;> omega
  rw [syntaxTextToCstr, forEachChunk_eq hnode hfuel,
    show (⟨some b, cap, 0⟩ : ToCstrCtx) = ⟨some b, cap, [].length⟩ from rfl,
    hall, Option.map_some]
  simp only [hcap, if_true, Option.map_some, hpos]
  rw [copied, memcpy_append, List.drop_drop, List.length_singleton]

theorem toCstr_length (hnode : st.node.isToken = false) (hrange : st.node.textRange.contains st.range = true)
    (hfuel : (walkOf st).length < fuel) (buf : Option Bytes) (cap : Nat) :
    (syntaxTextToCstr fuel st buf cap).map Prod.snd = some (flat st).length := by
  obtain ⟨buf', hall⟩ := visitAll_toCstr_length (chunks st) buf cap 0
  rw [syntaxTextToCstr, forEachChunk_eq hnode hfuel, hall, chunks_flat hrange]
  simp

end Copy

section Bytes

theorem visitAll_byteAt (cs : List Bytes) (target cursor : Nat) (h : cursor ≤ target) :
    (visitAll byteAtVisit cs ⟨target, cursor, none⟩).map (fun r => r.1.result) = some cs.flatten[target - cursor]? := by
  induction cs generalizing cursor with
  | nil => rfl
  | cons text cs ih =>
      rw [visitAll, byteAtVisit]
      simp only [h, true_and]
      split_ifs with hin
      · rw [Option.bind_some, List.flatten_cons, List.getElem?_append_left (by omega)]
        rfl
      · rw [Option.bind_some, List.flatten_cons, List.getElem?_append_right (by omega), Nat.sub_sub]
        exact ih (cursor + text.length) (by omega)

theorem byteAt_flat (hnode : st.node.isToken = false) (hrange : st.node.textRange.contains st.range = true)
    (hfuel : (walkOf st).length < fuel) (offset : Nat) : syntaxTextByteAt fuel st offset =
      some (if offset < st.range.start then none else (flat st)[offset - st.range.start]?) := by
  have hlen := flat_length hrange
  rw [syntaxTextByteAt]
  split_ifs with hbefore hbehind
  · rfl
  · rw [TextRange.stop] at hbehind
    rw [List.getElem?_eq_none (by omega)]
  · rw [forEachChunk_eq hnode hfuel, ← chunks_flat hrange]
    exact visitAll_byteAt _ _ _ (by omega)

theorem visitAll_findByte (cs : List Bytes) (c : UInt8) (cursor : Nat) :
    (visitAll findByteVisit cs ⟨c, cursor, none⟩).map (fun r => r.1.foundAt) =
      some ((cs.flatten.findIdx? (· == c)).map (cursor + ·)) := by
  induction cs generalizing cursor with
  | nil => rfl
  | cons text cs ih =>
      rw [visitAll, findByteVisit, List.flatten_cons, List.findIdx?_append]
      cases hfind : text.findIdx? (· == c) with
      | some i => simp
      | none =>
          simp only [Option.bind_some, if_true, Option.none_or, Option.map_map]
          rw [ih]
          congr 2
          funext i
          simp only [Function.comp_apply]
          omega

theorem findByte_flat (hnode : st.node.isToken = false) (hrange : st.node.textRange.contains st.range = true)
    (hfuel : (walkOf st).length < fuel) (c : UInt8) : syntaxTextFindByte fuel st c =
      some (((flat st).findIdx? (· == c)).map (st.range.start + ·)) := by
  rw [syntaxTextFindByte, forEachChunk_eq hnode hfuel, ← chunks_flat hrange]
  exact visitAll_findByte _ _ _

theorem visitAll_eqCstr (cs : List Bytes) (p : Bytes) :
    (visitAll eqCstrVisit cs ⟨p, p.length, false⟩).map (fun r => if r.1.mismatch then false else r.1.remaining == 0) =
      some (decide (cs.flatten = p)) := by
  induction cs generalizing p with
  | nil => cases p <;> rfl
  | cons text cs ih =>
      rw [visitAll, eqCstrVisit, List.flatten_cons]
      by_cases hshort : p.length < text.length
      · rw [if_pos hshort]
        have hne : ¬ text ++ cs.flatten = p := by
          rintro rfl
          rw [List.length_append] at hshort
          omega
        simp [hne]
      · rw [if_neg hshort]
        by_cases hinit : text = p.take text.length
        · have hlen : p.length - text.length = (p.drop text.length).length := by rw [List.length_drop]
          rw [if_neg (not_not.mpr hinit), Option.bind_some]
          simp only [if_true, hlen]
          rw [ih]
          congr 2
          conv_rhs => rw [← List.take_append_drop text.length p, ← hinit]
          rw [List.append_cancel_left_eq]
        · rw [if_pos hinit]
          have hne : ¬ text ++ cs.flatten = p := by
            rintro rfl
            exact hinit List.take_left.symm
          simp [hne]

theorem eqCstr_flat (hnode : st.node.isToken = false) (hrange : st.node.textRange.contains st.range = true)
    (hfuel : (walkOf st).length < fuel) (cstr : Bytes) :
    syntaxTextEqCstr fuel st cstr = some (decide (flat st = cstr)) := by
  have hlen := flat_length hrange
  rw [syntaxTextEqCstr]
  split_ifs with hwant
  · have hne : ¬ flat st = cstr := by
      rintro rfl
      exact hwant hlen
    rw [decide_eq_false hne]
  · rw [forEachChunk_eq hnode hfuel, ← chunks_flat hrange]
    exact visitAll_eqCstr _ _

end Bytes

end Ore.TextScans
