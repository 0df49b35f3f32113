import Ore.TextChars
import Ore.TextSearch

namespace Ore.TextOps

open GreenTree RedTree RedHandles TextChunks TextScans TextChars TextSearch
open WorkspaceModel (Bytes)

def collect : Visitor Bytes := fun done text => some (done ++ text, true)

/-- Every operation on a view of the text answers as on the text as one string. -/
structure AgreesWithFlat (fuel : Nat) (st : SyntaxText) : Prop where
  chunks : forEachChunk fuel st collect [] = some (flat st, true)
  toCstr : ∀ (b : Bytes) (cap : Nat), 0 < cap → syntaxTextToCstr fuel st (some b) cap = some
    (some ((flat st).take (cap - 1) ++ [0] ++ b.drop (min (flat st).length (cap - 1) + 1)), (flat st).length)
  length : ∀ (buf : Option Bytes) (cap : Nat), (syntaxTextToCstr fuel st buf cap).map Prod.snd = some (flat st).length
  byteAt : ∀ offset, syntaxTextByteAt fuel st offset =
    some (if offset < st.range.start then none else (flat st)[offset - st.range.start]?)
  findByte : ∀ c, syntaxTextFindByte fuel st c = some (((flat st).findIdx? (· == c)).map (st.range.start + ·))
  eqCstr : ∀ cstr, syntaxTextEqCstr fuel st cstr = some (decide (flat st = cstr))
  charAt : ∀ offset, syntaxTextCharAt fuel st offset =
    some (if offset < st.range.start ∨ st.range.stop ≤ offset then none
      else flatCharAt (flat st) (offset - st.range.start))
  findChar : ∀ c, syntaxTextFindChar fuel st c = some ((flatFindChar (flat st) c).map (st.range.start + ·))

variable {fuel : Nat} {st : SyntaxText}

theorem visitAll_collect (cs : List Bytes) (done : Bytes) :
    visitAll collect cs done = some (done ++ cs.flatten, true) := by
  induction cs generalizing done with
  | nil => rw [visitAll, List.flatten_nil, List.append_nil]
  | cons text cs ih =>
      rw [visitAll, collect]
      simp only [Option.bind_some, if_true]
      rw [ih, List.flatten_cons, List.append_assoc]

theorem collect_flat (hnode : st.node.isToken = false) (hrange : st.node.textRange.contains st.range = true)
    (hfuel : (walkOf st).length < fuel) : forEachChunk fuel st collect [] = some (flat st, true) := by
  rw [forEachChunk_eq hnode hfuel, visitAll_collect, chunks_flat hrange, List.nil_append]

theorem charAt_iff (hnode : st.node.isToken = false) (hrange : st.node.textRange.contains st.range = true)
    (hfuel : (walkOf st).length < fuel) :
    (∀ offset, syntaxTextCharAt fuel st offset =
      some (if offset < st.range.start ∨ st.range.stop ≤ offset then none
        else flatCharAt (flat st) (offset - st.range.start))) ↔ Readable (flat st) := by
  have hlen := flat_length hrange
  rw [← scanned_iff]
  constructor
  · intro h o ho
    have hat := h (st.range.start + o)
    rwa [charAt_scanned hnode hrange hfuel ho, if_neg (by rw [TextRange.stop]; omega), Nat.add_sub_cancel_left] at hat
  · intro h offset
    split_ifs with hout
    · rw [syntaxTextCharAt]
      split_ifs with hbefore hbehind
      · rfl
      · rfl
      · exact absurd hout (not_or.mpr ⟨hbefore, hbehind⟩)
    · rw [TextRange.stop, not_or] at hout
      have ho : offset - st.range.start < (flat st).length := by omega
      have hat := charAt_scanned hnode hrange hfuel ho
      rwa [Nat.add_sub_cancel' (by omega), h _ ho] at hat

/-- The operations agree with the flat string exactly when it can be read and every
code point of several bytes is reported where it stands. -/
theorem agrees_with_flat (fuel : Nat) (st : SyntaxText) (hnode : st.node.isToken = false)
    (hrange : st.node.textRange.contains st.range = true) (hfuel : (walkOf st).length < fuel) :
    AgreesWithFlat fuel st ↔
      Readable (flat st) ∧ ∀ c, 2 ≤ (utf8Encode c).length → Reported (utf8Encode c) (chunks st) := by
  constructor
  · intro h
    exact ⟨(charAt_iff hnode hrange hfuel).mp h.charAt, fun c => (findChar_iff hnode hrange hfuel c).mp (h.findChar c)⟩
  · rintro ⟨hread, hreported⟩
    exact {
      chunks := collect_flat hnode hrange hfuel
      toCstr := fun b _ hcap => toCstr_flat hnode hrange hfuel hcap b
      length := toCstr_length hnode hrange hfuel
      byteAt := byteAt_flat hnode hrange hfuel
      findByte := findByte_flat hnode hrange hfuel
      eqCstr := eqCstr_flat hnode hrange hfuel
      charAt := (charAt_iff hnode hrange hfuel).mpr hread
      findChar := fun c => (findChar_iff hnode hrange hfuel c).mpr (hreported c) }

/-- Two words of two bytes and a letter of two bytes, as tokens side by side. -/
def accented : SyntaxText :=
  let node := Red.root (.node .sourceFile
    [.token ⟨.ident, [97, 98]⟩, .token ⟨.ident, [99, 100]⟩, .token ⟨.stringLit, [0xC3, 0xA9]⟩])
  ⟨node, node.textRange⟩

theorem accented_agrees : AgreesWithFlat 9 accented ↔
    Readable (flat accented) ∧ ∀ c, 2 ≤ (utf8Encode c).length → Reported (utf8Encode c) (chunks accented) :=
  agrees_with_flat 9 accented rfl (by decide) (by decide)

theorem accent_misplaced : ¬ AgreesWithFlat 9 accented := by
  intro h
  have hfind := h.findChar 0xE9
  revert hfind
  decide

end Ore.TextOps
