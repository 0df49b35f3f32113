import Ore.ParserLossless
import Ore.OffsetLookup

namespace Ore.TreeOffsets

open SyntaxKinds GreenTree RedTree RedHandles OffsetLookup ParserCursor ParserGrammar ParserTotal LayoutStream Lexer
open LexerTiling ParserLossless
open WorkspaceModel (Bytes)

/-- The range the lexer recorded for a token, as the tree writes ranges. -/
def byteRange (tok : Token) : TextRange := ⟨tok.start, tok.byteEnd - tok.start⟩

/-- A text begins with a byte order mark and has more behind it. -/
def Marked (source : Bytes) : Prop := 0 < bomLength source ∧ bomLength source < source.length

variable {e c p : Red} {a b o : Nat} {toks : List Token} {cs : List Red} {source : Bytes}

section Leaves

theorem sideBySide_leaves (p : Red) (i o : Nat) (gs : List Green) :
    (sideBySide p i o gs).flatMap (fun c => leaves c.green) = leavesAll gs := by
  induction gs generalizing i o with
  | nil => rfl
  | cons g gs ih =>
      rw [sideBySide, List.flatMap_cons, ih, leavesAll]
      rfl

/-- The token handles of a tree hold its leaves, in their order. -/
theorem tokens_leaves (e : Red) : (tokens e).map Red.green = (leaves e.green).map .token := by
  induction e using Red.below_induction with
  | h e ih =>
      cases htoken : e.isToken with
      | true =>
          rw [tokens_of_token htoken, List.map_singleton]
          unfold Red.isToken at htoken
          split at htoken
          · rename_i hgreen
            rw [hgreen, leaves, List.map_singleton]
          · cases htoken
      | false =>
          have hchildren : (childHandles e).flatMap (fun c => (tokens c).map Red.green) =
              (childHandles e).flatMap fun c => (leaves c.green).map .token := by
            refine List.flatMap_congr fun c hc => ?_
            obtain ⟨i, hchild⟩ := mem_childHandles.mp hc
            exact ih i c hchild
          rw [tokens_of_node htoken, List.map_flatMap, hchildren, ← List.map_flatMap, childHandles, sideBySide_leaves,
            Red.children]
          unfold Red.isToken at htoken
          split at htoken
          · cases htoken
          · rename_i hgreen
            rw [hgreen, leaves]

end Leaves

section Ranges

theorem Abuts.le (h : Abuts a toks b) : a ≤ b := by
  induction toks generalizing a with
  | nil => exact Nat.le_of_eq h
  | cons tok toks ih =>
      obtain ⟨rfl, hle, hrest⟩ := h
      exact Nat.le_trans hle (ih hrest)

theorem text_length {tok : Token} (h : tok.byteEnd ≤ source.length) :
    (text source tok).length = tok.byteEnd - tok.start := by
  rw [text, List.length_take, List.length_drop]
  omega

/-- Elements with the texts of abutting tokens lie where the tokens do, up to how far
the two rows stand apart. -/
theorem ranges_shifted (htoks : Abuts (o + a) toks b) (hb : b ≤ source.length) (hcs : Tiled o cs)
    (hgreen : cs.map Red.green = toks.map fun tok => .token (leafOf source tok)) :
    toks.map byteRange = cs.map fun c => ⟨c.textRange.start + a, c.textRange.length⟩ := by
  induction toks generalizing o cs with
  | nil =>
      rw [List.map_nil, List.map_eq_nil_iff] at hgreen
      rw [hgreen]
      rfl
  | cons tok toks ih =>
      obtain ⟨c, cs, rfl, hc, hrest⟩ := List.map_eq_cons_iff.mp hgreen
      obtain ⟨hstart, hle, habuts⟩ := htoks
      obtain ⟨hoffset, htiled⟩ := hcs
      have hstop := Abuts.le habuts
      have hlen : textLen c.green = tok.byteEnd - tok.start := by
        rw [hc, textLen, leafOf, text_length (by omega)]
      have hnext : Abuts (o + textLen c.green + a) toks b := by
        rwa [show o + textLen c.green + a = tok.byteEnd by omega]
      rw [List.map_cons, List.map_cons, ih hnext htiled hrest, byteRange, Red.textRange, hoffset, hlen, hstart]

theorem ranges_iff (htoks : Abuts a toks source.length) (hcs : Tiled 0 cs)
    (hgreen : cs.map Red.green = toks.map fun tok => .token (leafOf source tok)) :
    cs.map Red.textRange = toks.map byteRange ↔ a = 0 ∨ toks = [] := by
  have hshifted := ranges_shifted (o := 0) (by rwa [Nat.zero_add]) (Nat.le_refl _) hcs hgreen
  rw [hshifted]
  constructor
  · intro h
    cases cs with
    | nil =>
        rw [List.map_nil] at hgreen
        exact .inr (List.map_eq_nil_iff.mp hgreen.symm)
    | cons c cs =>
        have hhead := (List.cons.inj h).1
        have hstart := congrArg TextRange.start hhead
        simp only at hstart
        left
        omega
  · rintro (rfl | rfl)
    · rfl
    · rw [List.map_nil, List.map_eq_nil_iff] at hgreen
      rw [hgreen]
      rfl

end Ranges

section Marks

/-- Behind the last byte the lexer reads the end token and the layout pass adds nothing. -/
theorem body_empty {pulls : List Lexed} {out : List Token} (hpulls : Pulls source a pulls) (ha : a = source.length)
    (hrun : layoutStream a pulls = some (.ok out)) : out = [LexerTiling.endToken source] := by
  cases hpulls with
  | eof =>
      cases hrun
      rfl
  | cons hlt hbound _ _ => omega

variable {π : Type}

/-- The tokens of a parsed tree are those of the layout pass, and their text ranges are
the byte ranges of the lexer unless a byte order mark stands before them. -/
theorem tree_offsets (intern : Intern π) (source : Bytes) (pool : π) (kws : ParserKws) :
    ∃ pulls l, lexPulls intern source pool = some (pulls, l) ∧
      ∀ out, layoutStream (bomLength source) pulls = some (.ok out) → ∃ root errors,
        parseFileGreen out source kws = some (root, errors) ∧
        (tokens (.root root)).map Red.green = out.dropLast.map (fun tok => .token (leafOf source tok)) ∧
        ((tokens (.root root)).map Red.textRange = out.dropLast.map byteRange ↔ ¬ Marked source) := by
  obtain ⟨pulls, l, hlex, hpulls, -⟩ := lexPulls_spec intern source pool
  refine ⟨pulls, l, hlex, fun out hrun => ?_⟩
  obtain ⟨body, rfl, habuts, hbody⟩ := layoutStream_abuts hpulls hrun
  obtain ⟨cs, errors, -, hparse, -, hleaves, -⟩ :=
    parseFileGreen_spec source kws rfl (show (LexerTiling.endToken source).kind = .eof from rfl) hbody
  have hgreen : (tokens (.root (.node .sourceFile cs))).map Red.green =
      body.map fun tok => .token (leafOf source tok) := by
    rw [tokens_leaves, Red.green, leaves, hleaves, List.map_map]
    rfl
  rw [List.dropLast_concat]
  refine ⟨_, errors, hparse, hgreen,
    (ranges_iff habuts (tiled_tokens (.root (.node .sourceFile cs))) hgreen).trans ⟨?_, fun hmarked => ?_⟩⟩
  · rintro (hbom | rfl) ⟨hpos, hlt⟩
    · omega
    · have hend : bomLength source = source.length := habuts
      omega
  · have hle := bomLength_le source
    by_cases hbom : bomLength source = 0
    · exact .inl hbom
    · have hend : bomLength source = source.length := by
        have hlt : ¬ bomLength source < source.length := fun hlt => hmarked ⟨Nat.pos_of_ne_zero hbom, hlt⟩
        omega
      exact .inr (List.append_cancel_right (body_empty hpulls hend hrun))

def markedName : Bytes := [0xEF, 0xBB, 0xBF, 0x61]

def nameTokens : List Token := [⟨.ident, 0, 3, 4⟩, ⟨.virtualSemi, 0, 4, 4⟩, ⟨.eof, 0, 4, 4⟩]

def nameKws : ParserKws := ⟨1, 2, 3, 4, 5, 6, 7, 8, 9, 10, 11, 12, 13, 14⟩
/-- The name behind the mark is the first token of the tree, three bytes before its place. -/
theorem mark_displaces : ∃ pulls l root errors, lexPulls (fun n _ => (n + 1, n)) markedName 0 = some (pulls, l) ∧
    layoutStream (bomLength markedName) pulls = some (.ok nameTokens) ∧
    parseFileGreen nameTokens markedName nameKws = some (root, errors) ∧
    (tokens (.root root)).map Red.textRange = [⟨0, 1⟩, ⟨1, 0⟩] ∧
    nameTokens.dropLast.map byteRange = [⟨3, 1⟩, ⟨4, 0⟩] :=
  ⟨_, _, _, _, rfl, rfl, rfl, rfl, rfl⟩

end Marks

end Ore.TreeOffsets
