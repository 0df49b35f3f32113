import Mathlib.Algebra.Order.BigOperators.Group.List
import Mathlib.Algebra.Order.Group.Nat
import Ore.OffsetLookup
import Ore.Preorder

namespace Ore.TextChunks

open GreenTree RedTree RedHandles Ore.Preorder OffsetLookup
open WorkspaceModel (Bytes)

/-- A view of the text below a node. -/
structure SyntaxText where
  node : Red
  range : TextRange

def tokenText (t : Red) : Bytes :=
  match t.green with
  | .token tok => tok.text
  | .node .. => []

def clip (window : TextRange) (t : Red) : Option Bytes :=
  let tr := t.textRange
  if tr.stop ≤ window.start ∨ window.stop ≤ tr.start then none
  else
    let lo := if tr.start < window.start then window.start - tr.start else 0
    let hi := if window.stop < tr.stop then tr.length - (tr.stop - window.stop) else tr.length
    if 0 < hi - lo then some (((tokenText t).drop lo).take (hi - lo)) else none

/-- A visitor gives its state after a chunk and whether to go on. It has no answer
when it reads a variable that was never set. -/
abbrev Visitor (σ : Type) := σ → Bytes → Option (σ × Bool)

variable {σ : Type} {window : TextRange} {visitor : Visitor σ} {user : σ} {st : SyntaxText} {start e p c d : Red}
    {evs : List WalkEvent} {cs : List Red} {b : Nat}

def chunkLoop (window : TextRange) (visitor : Visitor σ) : Nat → SyntaxPreorder → σ → Option (σ × Bool)
  | 0, _, _ => none
  | fuel + 1, it, user => match syntaxPreorderNext it with
    | (_, none) => some (user, true)
    | (it, some (.leave _)) => chunkLoop window visitor fuel it user
    | (it, some (.enter e)) => match if e.isToken then clip window e else none with
      | none => chunkLoop window visitor fuel it user
      | some chunk => (visitor user chunk).bind fun (user, more) =>
          if more then chunkLoop window visitor fuel it user else some (user, false)

def forEachChunk (fuel : Nat) (st : SyntaxText) (visitor : Visitor σ) (user : σ) : Option (σ × Bool) :=
  if st.range.length = 0 then some (user, true)
  else chunkLoop st.range visitor fuel (syntaxPreorderInit st.node) user

def walkOf (st : SyntaxText) : List WalkEvent := visits (fun _ => false) st.node

def visitAll (visitor : Visitor σ) : List Bytes → σ → Option (σ × Bool)
  | [], user => some (user, true)
  | chunk :: chunks, user => (visitor user chunk).bind fun (user, more) =>
      if more then visitAll visitor chunks user else some (user, false)

def chunks (st : SyntaxText) : List Bytes :=
  if st.range.length = 0 then [] else (tokens st.node).filterMap (clip st.range)

def bytes (g : Green) : Bytes := (leaves g).flatMap GreenToken.text

def flat (st : SyntaxText) : Bytes :=
  ((bytes st.node.green).drop (st.range.start - st.node.offset)).take st.range.length

section Walk

def enteredToken : WalkEvent → Option Red
  | .enter e => if e.isToken then some e else none
  | .leave _ => none

def enteredTokens (evs : List WalkEvent) : List Red := evs.filterMap enteredToken

theorem enteredTokens_token (h : e.isToken = true) (evs : List WalkEvent) :
    enteredTokens (.enter e :: evs) = e :: enteredTokens evs := by
  simp [enteredTokens, enteredToken, h]

theorem chunkLoop_drain {fuel : Nat} {it : SyntaxPreorder} (h : (drain (fun _ => false) fuel it).length < fuel) :
    chunkLoop window visitor fuel it user =
      visitAll visitor ((enteredTokens (drain (fun _ => false) fuel it)).filterMap (clip window)) user := by
  induction fuel generalizing it user with
  | zero => exact absurd h (Nat.not_lt_zero _)
  | succ fuel ih =>
      rw [chunkLoop]
      rw [drain] at h ⊢
      cases hnext : syntaxPreorderNext it with
      | mk it' ev =>
          rw [hnext] at h
          cases ev with
          | none => rfl
          | some ev =>
              cases ev with
              | leave e =>
                  simp only [List.length_cons, Nat.add_lt_add_iff_right] at h
                  exact ih h
              | enter e =>
                  simp only [Bool.false_eq_true, if_false, List.length_cons, Nat.add_lt_add_iff_right] at h
                  cases htoken : e.isToken with
                  | false => simpa [enteredTokens, enteredToken, htoken] using ih h
                  | true =>
                      cases hclip : clip window e with
                      | none => simpa [enteredTokens, enteredToken, htoken, hclip] using ih h
                      | some chunk =>
                          simp only [htoken, hclip, if_true, Bool.false_eq_true, if_false]
                          rw [enteredTokens_token htoken, List.filterMap_cons_some hclip, visitAll]
                          congr 1
                          funext step
                          obtain ⟨user, more⟩ := step
                          cases more with
                          | true => exact ih h
                          | false => rfl

theorem entered_visits (e : Red) : enteredTokens (visits (fun _ => false) e) = tokens e := by
  induction e using Red.below_induction with
  | h e ih =>
      rw [visits_eq, inside]
      simp only [Bool.false_eq_true, if_false, enteredTokens, List.filterMap_cons, List.filterMap_append,
        List.filterMap_nil, enteredToken, List.append_nil, List.filterMap_flatMap]
      cases htoken : e.isToken with
      | true => simp [childHandles_of_token htoken, tokens_of_token htoken]
      | false =>
          rw [tokens_of_node htoken]
          simp only [Bool.false_eq_true, if_false]
          refine List.flatMap_congr fun c hc => ?_
          obtain ⟨i, hchild⟩ := mem_childHandles.mp hc
          exact ih i c hchild

theorem flatMap_split {α β : Type} {f : α → List β} {l : List α} {x : β} {a b : List β}
    (h : l.flatMap f = a ++ x :: b) :
    ∃ l₁ c l₂ a₁ b₁, l = l₁ ++ c :: l₂ ∧ f c = a₁ ++ x :: b₁ ∧ a = l₁.flatMap f ++ a₁ := by
  induction l generalizing a with
  | nil => simp at h
  | cons c l ih =>
      rw [List.flatMap_cons] at h
      rcases List.append_eq_append_iff.mp h with ⟨a', ha, hrest⟩ | ⟨b', hc, hrest⟩
      · obtain ⟨l₁, d, l₂, a₁, b₁, rfl, hd, rfl⟩ := ih hrest
        exact ⟨c :: l₁, d, l₂, a₁, b₁, rfl, hd, by rw [ha, List.flatMap_cons, List.append_assoc]⟩
      · cases b' with
        | nil =>
            rw [List.nil_append] at hrest
            obtain ⟨l₁, d, l₂, a₁, b₁, rfl, hd, ha₁⟩ := ih (a := []) (by rw [← hrest]; rfl)
            refine ⟨c :: l₁, d, l₂, a₁, b₁, rfl, hd, ?_⟩
            rw [List.flatMap_cons, List.append_assoc, ← ha₁, List.append_nil, hc, List.append_nil]
        | cons y b' =>
            obtain ⟨rfl, -⟩ := List.cons.inj hrest
            exact ⟨[], c, l, a, b', rfl, hc, rfl⟩

theorem left_covers {a b : List WalkEvent} (h : visits (fun _ => false) e = a ++ .leave d :: b) :
    textLen d.green ≤ textOf (enteredTokens a) := by
  induction e using Red.below_induction generalizing a b with
  | h e ih =>
      have hall := entered_visits e
      rw [visits_eq] at h hall
      cases a with
      | nil => cases h
      | cons ev a =>
          rw [List.cons_append, List.cons.injEq] at h
          obtain ⟨rfl, h⟩ := h
          rcases List.append_eq_append_iff.mp h with ⟨a', ha, hrest⟩ | ⟨b', hc, hrest⟩
          · cases a' with
            | nil =>
                obtain ⟨heq, -⟩ := List.cons.inj hrest
                obtain rfl := WalkEvent.leave.inj heq
                rw [List.append_nil] at ha
                subst ha
                simp only [enteredTokens, List.filterMap_cons, List.filterMap_append, enteredToken, List.filterMap_nil,
                  List.append_nil] at hall ⊢
                rw [hall, textOf_tokens]
            | cons y a' => simp at hrest
          · cases b' with
            | nil =>
                obtain ⟨heq, -⟩ := List.cons.inj hrest
                obtain rfl := WalkEvent.leave.inj heq
                rw [List.append_nil] at hc
                subst hc
                simp only [enteredTokens, List.filterMap_cons, List.filterMap_append, enteredToken, List.filterMap_nil,
                  List.append_nil] at hall ⊢
                rw [hall, textOf_tokens]
            | cons y b' =>
                obtain ⟨rfl, -⟩ := List.cons.inj hrest
                rw [inside, if_neg Bool.false_ne_true] at hc
                obtain ⟨l₁, c, l₂, a₁, b₁, hl, hfc, rfl⟩ := flatMap_split hc
                obtain ⟨i, hchild⟩ := mem_childHandles.mp (show c ∈ childHandles e by rw [hl]; simp)
                have hle := ih i c hchild hfc
                rw [enteredTokens, ← List.cons_append, List.filterMap_append, textOf_append]
                exact hle.trans (Nat.le_add_left _ _)

theorem upTo_split (start : Red) (evs : List WalkEvent) : ∃ rest, evs = upTo start evs ++ rest ∧
    (rest = [] ∨ ∃ pre d, upTo start evs = pre ++ [.leave d] ∧ looksLike start d = true) := by
  induction evs with
  | nil => exact ⟨[], rfl, .inl rfl⟩
  | cons ev evs ih =>
      obtain ⟨rest, hrest, hend⟩ := ih
      have hcons (ev : WalkEvent) : ∃ rest, ev :: evs = ev :: upTo start evs ++ rest ∧
          (rest = [] ∨ ∃ pre d, ev :: upTo start evs = pre ++ [.leave d] ∧ looksLike start d = true) := by
        refine ⟨rest, by rw [List.cons_append, ← hrest], hend.imp_right ?_⟩
        rintro ⟨pre, d, hpre, hd⟩
        exact ⟨ev :: pre, d, by rw [hpre, List.cons_append], hd⟩
      cases ev with
      | enter e => exact hcons (.enter e)
      | leave e =>
          rw [upTo]
          split_ifs with hlook
          · exact ⟨evs, rfl, .inr ⟨[], e, rfl, hlook⟩⟩
          · exact hcons (.leave e)

theorem clip_blank (h : textLen e.green = 0) : clip window e = none := by
  have hlen : e.textRange.length = 0 := h
  unfold clip
  simp only [hlen]
  split_ifs <;> first | rfl | omega

/-- Where the walk ends early, only tokens without text are missed. -/
theorem clips_upTo : (enteredTokens (upTo start (visits (fun _ => false) start))).filterMap (clip window) =
    (tokens start).filterMap (clip window) := by
  obtain ⟨rest, hsplit, hend⟩ := upTo_split start (visits (fun _ => false) start)
  have htokens := entered_visits start
  rw [hsplit, enteredTokens, List.filterMap_append] at htokens
  rw [← htokens, List.filterMap_append]
  rcases hend with rfl | ⟨pre, d, hpre, hlook⟩
  · rw [List.filterMap_nil, List.filterMap_nil, List.append_nil]
    rfl
  · have hlen : textLen d.green = textLen start.green := by
      simp only [looksLike, Bool.and_eq_true, beq_iff_eq] at hlook
      exact congrArg TextRange.length hlook.2
    rw [hpre, List.append_assoc] at hsplit
    have hcovers := left_covers hsplit
    have htotal := congrArg textOf htokens
    rw [textOf_append, textOf_tokens, hpre, List.filterMap_append, textOf_append] at htotal
    rw [enteredTokens] at hcovers
    have hzero : textOf (rest.filterMap enteredToken) = 0 := by omega
    have hblank : (rest.filterMap enteredToken).filterMap (clip window) = [] := by
      refine List.filterMap_eq_nil_iff.mpr fun t ht => clip_blank ?_
      have hmem : textLen t.green ≤ textOf (rest.filterMap enteredToken) :=
        List.single_le_sum (fun _ _ => Nat.zero_le _) _ (List.mem_map_of_mem (f := fun c => textLen c.green) ht)
      omega
    rw [hblank, List.append_nil]
    rfl

theorem forEachChunk_eq (hnode : st.node.isToken = false) {fuel : Nat} (hfuel : (walkOf st).length < fuel)
    (visitor : Visitor σ) (user : σ) : forEachChunk fuel st visitor user = visitAll visitor (chunks st) user := by
  rw [forEachChunk, chunks]
  split_ifs with hempty
  · rfl
  · have hdrain := drain_init hnode hfuel
    have hlen : (drain (fun _ => false) fuel (syntaxPreorderInit st.node)).length < fuel := by
      rw [walkOf] at hfuel
      rw [hdrain]
      obtain ⟨rest, hsplit, -⟩ := upTo_split st.node (visits (fun _ => false) st.node)
      have hlen := congrArg List.length hsplit
      rw [List.length_append] at hlen
      exact Nat.lt_of_le_of_lt (by omega) hfuel
    rw [chunkLoop_drain hlen, hdrain, clips_upTo]

end Walk

section Flat

theorem tokenText_length (h : e.isToken = true) : (tokenText e).length = textLen e.green := by
  unfold Red.isToken at h
  unfold tokenText
  split at h
  · rename_i hgreen
    rw [hgreen]
    rfl
  · cases h

theorem sideBySide_bytes (p : Red) (i o : Nat) (gs : List Green) :
    (sideBySide p i o gs).flatMap (fun c => bytes c.green) = (leavesAll gs).flatMap GreenToken.text := by
  induction gs generalizing i o with
  | nil => rfl
  | cons g gs ih =>
      rw [sideBySide, List.flatMap_cons, ih, leavesAll, List.flatMap_append]
      rfl

theorem tokens_bytes (e : Red) : (tokens e).flatMap tokenText = bytes e.green := by
  induction e using Red.below_induction with
  | h e ih =>
      cases htoken : e.isToken with
      | true =>
          rw [tokens_of_token htoken, List.flatMap_singleton]
          unfold Red.isToken at htoken
          split at htoken
          · rename_i hgreen
            rw [tokenText, hgreen, bytes, leaves, List.flatMap_singleton]
          · cases htoken
      | false =>
          rw [tokens_of_node htoken, List.flatMap_assoc]
          have hchildren : (childHandles e).flatMap (fun c => (tokens c).flatMap tokenText) =
              (childHandles e).flatMap fun c => bytes c.green := by
            refine List.flatMap_congr fun c hc => ?_
            obtain ⟨i, hchild⟩ := mem_childHandles.mp hc
            exact ih i c hchild
          rw [hchildren, childHandles, sideBySide_bytes, Red.children]
          unfold Red.isToken at htoken
          split at htoken
          · cases htoken
          · rename_i hgreen
            rw [hgreen, bytes, leaves]

theorem clip_eq (window : TextRange) (t : Red) : clip window t =
    if 0 < min (textLen t.green) (window.stop - t.offset) - (window.start - t.offset) then
      some (((tokenText t).drop (window.start - t.offset)).take
        (min (textLen t.green) (window.stop - t.offset) - (window.start - t.offset)))
    else none := by
  have hlo : (if t.offset < window.start then window.start - t.offset else 0) = window.start - t.offset := by
    split_ifs <;> omega
  by_cases hout : t.textRange.stop ≤ window.start ∨ window.stop ≤ t.textRange.start
  · rw [clip, if_pos hout, if_neg]
    simp only [Red.textRange, TextRange.stop] at hout ⊢
    omega
  · have hhi : (if window.stop < t.textRange.stop then t.textRange.length - (t.textRange.stop - window.stop)
        else t.textRange.length) = min (textLen t.green) (window.stop - t.offset) := by
      by_cases hstop : window.stop < t.textRange.stop
      · rw [if_pos hstop]
        simp only [Red.textRange, TextRange.stop] at hout hstop ⊢
        omega
      · rw [if_neg hstop]
        simp only [Red.textRange, TextRange.stop] at hout hstop ⊢
        omega
    rw [clip, if_neg hout]
    simp only [hhi]
    rw [show t.textRange.start = t.offset from rfl, hlo]

theorem clip_slice (h : e.isToken = true) (window : TextRange) : (clip window e).toList.flatten =
    ((tokenText e).drop (window.start - e.offset)).take (window.stop - max e.offset window.start) := by
  have hlen := tokenText_length h
  rw [clip_eq]
  split_ifs with hpos
  · simp only [Option.toList_some, List.flatten_cons, List.flatten_nil, List.append_nil]
    rw [List.take_eq_take_iff, List.length_drop, hlen]
    omega
  · symm
    refine List.eq_nil_of_length_eq_zero ?_
    rw [List.length_take, List.length_drop, hlen]
    omega

theorem clips_flat (h : Tiled b cs) (htokens : ∀ t ∈ cs, t.isToken = true) :
    (cs.filterMap (clip window)).flatten =
      ((cs.flatMap tokenText).drop (window.start - b)).take (window.stop - max b window.start) := by
  induction cs generalizing b with
  | nil => simp
  | cons c cs ih =>
      obtain ⟨rfl, hcs⟩ := h
      have hc := htokens c List.mem_cons_self
      have hlen := tokenText_length hc
      have hclip := clip_slice hc window
      have hrest := ih hcs fun t ht => htokens t (List.mem_cons_of_mem _ ht)
      have hsplit : ((c :: cs).filterMap (clip window)).flatten =
          (clip window c).toList.flatten ++ (cs.filterMap (clip window)).flatten := by
        cases hc : clip window c with
        | none => simp [hc]
        | some chunk => simp [hc]
      rw [hsplit, hclip, hrest, List.flatMap_cons, List.drop_append, List.take_append, List.length_drop, hlen]
      congr 2
      · omega
      · congr 1
        omega

theorem bytes_length (e : Red) : (bytes e.green).length = textLen e.green := by
  rw [← tokens_bytes, List.length_flatMap, ← tokens_textLen]
  congr 1
  refine List.map_congr_left fun t ht => tokenText_length (mem_tokens.mp ht).2

theorem contained (h : st.node.textRange.contains st.range = true) : st.node.offset ≤ st.range.start ∧
    st.range.start + st.range.length ≤ st.node.offset + textLen st.node.green :=
  contains_iff.mp h

theorem flat_length (hrange : st.node.textRange.contains st.range = true) : (flat st).length = st.range.length := by
  obtain ⟨hle, hstop⟩ := contained hrange
  rw [flat, List.length_take, List.length_drop, bytes_length]
  omega

theorem chunks_flat (hrange : st.node.textRange.contains st.range = true) : (chunks st).flatten = flat st := by
  rw [chunks, flat]
  split_ifs with hempty
  · rw [hempty]
    rfl
  · rw [clips_flat (tiled_tokens st.node) fun t ht => (mem_tokens.mp ht).2, tokens_bytes]
    obtain ⟨hle, -⟩ := contained hrange
    rw [TextRange.stop, max_eq_right hle, Nat.add_sub_cancel_left]

end Flat

end Ore.TextChunks
