import Ore.LayoutStream

namespace Ore.LayoutBalance

open SyntaxKinds LayoutStream

inductive Brace
  | literal | virtual
  deriving DecidableEq, Repr

/-- Reading one output token with one stack for literal and virtual braces.
`none` is a virtual left brace popped by a literal right brace, or a virtual
right brace that finds nothing to pop. -/
def readBrace (stack : List Brace) (tok : Token) : Option (List Brace) :=
  match tok.kind, stack with
  | .lbrace, stack => some (.literal :: stack)
  | .virtualLbrace, stack => some (.virtual :: stack)
  | .rbrace, [] => some []
  | .rbrace, .literal :: stack => some stack
  | .rbrace, .virtual :: _ => none
  | .virtualRbrace, [] => none
  | .virtualRbrace, _ :: stack => some stack
  | _, stack => some stack

def readBraces (stack : List Brace) (toks : List Token) : Option (List Brace) := toks.foldlM readBrace stack

def eraseVirtual (toks : List Token) : List Token := toks.filter fun tok => !kindIsVirtualLayout tok.kind

/-- The byte ranges follow each other between the two offsets. -/
def Between (lo : Nat) : List Token → Nat → Prop
  | [], hi => lo ≤ hi
  | tok :: toks, hi => lo ≤ tok.start ∧ tok.start ≤ tok.byteEnd ∧ Between tok.byteEnd toks hi

def offsets (toks : List Token) : List Nat := toks.flatMap fun tok => [tok.start, tok.byteEnd]

/-- The output has balanced braces and differs from the input in virtual tokens only. -/
def LaidOut (input out : List Token) : Prop :=
  readBraces [] out = some [] ∧ eraseVirtual out = input ∧ (offsets out).Pairwise (· ≤ ·)

/-- A raw stream from offset `lo` on: ordered byte ranges that start below the 32-bit
limit, no virtual token, and the end token last and only there. -/
inductive RawStream : Nat → List Lexed → Prop
  | eof {lo : Nat} {tok : Token} {lines : List Nat} (hlo : lo ≤ tok.start) (hrange : tok.start ≤ tok.byteEnd)
      (hkind : tok.kind = .eof) : RawStream lo [⟨tok, lines⟩]
  | cons {lo : Nat} {tok : Token} {lines : List Nat} {rest : List Lexed} (hlo : lo ≤ tok.start)
      (hrange : tok.start ≤ tok.byteEnd) (hlimit : tok.start + 1 < 2 ^ 32) (hkind : tok.kind ≠ .eof)
      (hreal : kindIsVirtualLayout tok.kind = false) (hrest : RawStream tok.byteEnd rest) :
      RawStream lo (⟨tok, lines⟩ :: rest)

def braceOf (frame : LayoutFrame) : Option Brace :=
  match frame.kind with
  | .root => none
  | .layout => some .virtual
  | .explicit => some .literal

def Rooted : List LayoutFrame → Prop
  | [] => False
  | [frame] => frame = ⟨1, .root⟩
  | frame :: frames => frame.kind ≠ .root ∧ Rooted frames

def openBraces (s : State) : List Brace := (s.current :: s.frames).filterMap braceOf

/-- What has been emitted so far, apart from the frames: the braces read to
`stack`, and with the pending trivia the tokens are those consumed. -/
structure Emitted (consumed : List Token) (lo : Nat) (stack : List Brace) (s : State) : Prop where
  braces : readBraces [] s.outTokens = some stack
  erased : eraseVirtual s.outTokens ++ s.triviaBuf = consumed
  ordered : Between 0 s.outTokens s.prevByteEnd
  pending : Between s.prevByteEnd s.triviaBuf lo
  trivia : ∀ tok ∈ s.triviaBuf, tokenIsTrivia tok.kind = true

structure Inv (consumed : List Token) (lo : Nat) (s : State) : Prop where
  emitted : Emitted consumed lo (openBraces s) s
  rooted : Rooted (s.current :: s.frames)
  lineCur : s.lineCur < s.lineStarts.length
  lineStart : s.lineStarts.getD s.lineCur 0 ≤ lo

namespace Between

variable {lo mid hi : Nat} {toks more : List Token}

theorem mono (h : Between lo toks mid) (hle : mid ≤ hi) : Between lo toks hi := by
  induction toks generalizing lo with
  | nil => exact Nat.le_trans h hle
  | cons tok toks ih => exact ⟨h.1, h.2.1, ih h.2.2⟩

theorem append (h : Between lo toks mid) (hmore : Between mid more hi) : Between lo (toks ++ more) hi := by
  induction toks generalizing lo with
  | nil =>
      cases more with
      | nil => exact Nat.le_trans h hmore
      | cons tok more => exact ⟨Nat.le_trans h hmore.1, hmore.2⟩
  | cons tok toks ih => exact ⟨h.1, h.2.1, ih h.2.2⟩

theorem single {tok : Token} (hlo : lo ≤ tok.start) (hrange : tok.start ≤ tok.byteEnd) :
    Between lo [tok] tok.byteEnd :=
  ⟨hlo, hrange, Nat.le_refl _⟩

theorem lower (h : Between lo toks hi) : ∀ tok ∈ toks, lo ≤ tok.start ∧ lo ≤ tok.byteEnd := by
  induction toks generalizing lo with
  | nil => simp
  | cons tok toks ih =>
      obtain ⟨hlo, hrange, hrest⟩ := h
      intro t ht
      rcases List.mem_cons.mp ht with rfl | ht
      · omega
      · have := ih hrest t ht
        omega

/-- Ordered ranges list their offsets in non-decreasing order. -/
theorem pairwise (h : Between lo toks hi) :
    (offsets toks).Pairwise (· ≤ ·) := by
  induction toks generalizing lo with
  | nil => simp [offsets]
  | cons tok toks ih =>
      obtain ⟨hlo, hrange, hrest⟩ := h
      have hlower : ∀ x ∈ offsets toks, tok.byteEnd ≤ x := by
        intro x hx
        obtain ⟨t, ht, hx⟩ := List.mem_flatMap.mp hx
        have := hrest.lower t ht
        simp only [List.mem_cons, List.not_mem_nil, or_false] at hx
        omega
      simp only [offsets, List.flatMap_cons, List.cons_append, List.nil_append, List.pairwise_cons, List.mem_cons]
      refine ⟨?_, hlower, ih hrest⟩
      rintro x (rfl | hx)
      · exact hrange
      · exact Nat.le_trans hrange (hlower x hx)

end Between

theorem readBraces_append (stack : List Brace) (toks more : List Token) :
    readBraces stack (toks ++ more) = (readBraces stack toks).bind fun stack => readBraces stack more := by
  simp [readBraces, List.foldlM_append]

theorem readBraces_single (stack : List Brace) (tok : Token) : readBraces stack [tok] = readBrace stack tok := by
  simp [readBraces]

theorem trivia_cases {kind : SyntaxKind} (h : tokenIsTrivia kind = true) :
    kind = .whitespace ∨ kind = .newline ∨ kind = .comment := by
  unfold tokenIsTrivia at h
  split at h <;> simp_all

theorem readBraces_trivia {toks : List Token} (h : ∀ tok ∈ toks, tokenIsTrivia tok.kind = true)
    (stack : List Brace) : readBraces stack toks = some stack := by
  induction toks with
  | nil => rfl
  | cons tok toks ih =>
      have htok : readBrace stack tok = some stack := by
        rcases trivia_cases (h tok (by simp)) with hk | hk | hk <;> simp [readBrace, hk]
      simpa [readBraces, htok] using ih fun t ht => h t (by simp [ht])

theorem eraseVirtual_trivia {toks : List Token} (h : ∀ tok ∈ toks, tokenIsTrivia tok.kind = true) :
    eraseVirtual toks = toks := by
  rw [eraseVirtual, List.filter_eq_self]
  intro tok ht
  rcases trivia_cases (h tok ht) with hk | hk | hk <;> simp [kindIsVirtualLayout, hk]

namespace Emitted

variable {consumed : List Token} {lo : Nat} {stack stack' : List Brace} {s : State}

theorem synthetic (h : Emitted consumed lo stack s) {kind : SyntaxKind} (hkind : kindIsVirtualLayout kind = true)
    (hread : readBrace stack ⟨kind, 0, s.prevByteEnd, s.prevByteEnd⟩ = some stack') :
    Emitted consumed lo stack' (emitSynthetic s kind) where
  braces := by simp [emitSynthetic, readBraces_append, h.braces, readBraces_single, hread]
  erased := by simpa [emitSynthetic, eraseVirtual, hkind] using h.erased
  ordered := h.ordered.append (Between.single (Nat.le_refl _) (Nat.le_refl _))
  pending := h.pending
  trivia := h.trivia

theorem semicolon (h : Emitted consumed lo stack s) : Emitted consumed lo stack (emitSemicolon s) := by
  unfold emitSemicolon
  split
  · exact h.synthetic rfl (by simp [readBrace])
  · exact h

theorem real (h : Emitted consumed lo stack s) {tok : Token} (hkind : kindIsVirtualLayout tok.kind = false)
    (hlo : lo ≤ tok.start) (hrange : tok.start ≤ tok.byteEnd) (hread : readBrace stack tok = some stack') :
    Emitted (consumed ++ [tok]) tok.byteEnd stack' (advance (emitReal s tok) tok) where
  braces := by
    simp [advance, emitReal, readBraces_append, h.braces, readBraces_trivia h.trivia, readBraces_single, hread]
  erased := by
    have := eraseVirtual_trivia h.trivia
    simp only [eraseVirtual] at this
    simp [advance, emitReal, eraseVirtual, hkind, this, ← h.erased]
  ordered := by
    have hpending := h.pending.append (Between.single hlo hrange)
    simpa [advance, emitReal] using h.ordered.append hpending
  pending := Nat.le_refl _
  trivia := by simp [advance, emitReal]

theorem congr (h : Emitted consumed lo stack s) {s' : State} (hout : s'.outTokens = s.outTokens)
    (hend : s'.prevByteEnd = s.prevByteEnd) (htrivia : s'.triviaBuf = s.triviaBuf) : Emitted consumed lo stack s' where
  braces := hout ▸ h.braces
  erased := by rw [hout, htrivia]; exact h.erased
  ordered := by rw [hout, hend]; exact h.ordered
  pending := by rw [htrivia, hend]; exact h.pending
  trivia := by rw [htrivia]; exact h.trivia

theorem mono (h : Emitted consumed lo stack s) {hi : Nat} (hle : lo ≤ hi) : Emitted consumed hi stack s :=
  { h with pending := h.pending.mono hle }

end Emitted

theorem colAdvance_spec {byteStart cur : Nat} {lineStarts : List Nat} (hcur : cur < lineStarts.length)
    (hle : lineStarts.getD cur 0 ≤ byteStart) :
    (colAdvance byteStart lineStarts cur).2 < lineStarts.length ∧
      lineStarts.getD (colAdvance byteStart lineStarts cur).2 0 ≤ byteStart ∧
      (byteStart + 1 < 2 ^ 32 → 1 ≤ (colAdvance byteStart lineStarts cur).1) := by
  have hne : lineStarts.length ≠ 0 := by omega
  simp only [colAdvance, if_neg hne]
  generalize hw : (lineStarts.drop (cur + 1)).takeWhile (· ≤ byteStart) = walked
  have hpre : walked <+: lineStarts.drop (cur + 1) := hw ▸ List.takeWhile_prefix _
  have hlen : walked.length ≤ lineStarts.length - (cur + 1) := by
    simpa using hpre.length_le
  have hget : lineStarts.getD (cur + walked.length) 0 ≤ byteStart := by
    rcases Nat.eq_zero_or_pos walked.length with hzero | hpos
    · simpa [hzero] using hle
    · have hlast : walked.length - 1 < walked.length := by omega
      have hall : walked.all (· ≤ byteStart) = true := hw ▸ List.all_takeWhile
      have hmem := List.all_eq_true.mp hall _ (List.getElem_mem hlast)
      have heq := hpre.getElem hlast
      have hidx : cur + 1 + (walked.length - 1) = cur + walked.length := by omega
      simp only [List.getElem_drop, hidx] at heq
      rw [heq] at hmem
      simpa [List.getD, List.getElem?_eq_getElem (show cur + walked.length < lineStarts.length by omega)] using hmem
  exact ⟨by omega, hget, by omega⟩

theorem Rooted.tail {frame next : LayoutFrame} {frames : List LayoutFrame} (h : Rooted (frame :: next :: frames)) :
    frame.kind ≠ .root ∧ Rooted (next :: frames) := h

theorem Rooted.push {frame : LayoutFrame} {frames : List LayoutFrame} (h : Rooted frames) (hkind : frame.kind ≠ .root) :
    Rooted (frame :: frames) := by
  cases frames with
  | nil => exact h.elim
  | cons next frames => exact ⟨hkind, h⟩

theorem openBraces_pop {s : State} {frame : LayoutFrame} {frames : List LayoutFrame} (hf : s.frames = frame :: frames)
    (h : Rooted (s.current :: s.frames)) :
    ∃ brace, openBraces s = brace :: (frame :: frames).filterMap braceOf ∧
      (brace = .virtual ↔ s.current.kind = .layout) := by
  rw [hf] at h
  obtain ⟨hkind, -⟩ := h.tail
  rw [openBraces, hf, List.filterMap_cons]
  cases hk : s.current.kind with
  | root => exact absurd hk hkind
  | layout => exact ⟨.virtual, by simp [braceOf, hk]⟩
  | explicit => exact ⟨.literal, by simp [braceOf, hk]⟩

variable {consumed : List Token} {lo : Nat} {s : State}

theorem Emitted.pop (h : Emitted consumed lo (openBraces s) s) {frame : LayoutFrame} {frames : List LayoutFrame}
    (hf : s.frames = frame :: frames) (hroot : Rooted (s.current :: s.frames)) :
    Emitted consumed lo ((frame :: frames).filterMap braceOf) (emitSynthetic s .virtualRbrace) := by
  obtain ⟨brace, hopen, -⟩ := openBraces_pop hf hroot
  exact h.synthetic rfl (by simp [readBrace, hopen])

theorem closeLayouts_spec (frames : List LayoutFrame) (s : State) (hf : s.frames = frames)
    (h : Emitted consumed lo (openBraces s) s) (hroot : Rooted (s.current :: s.frames)) :
    let t := closeLayouts frames s
    Emitted consumed lo (openBraces t) t ∧ Rooted (t.current :: t.frames) ∧ t.current.kind ≠ .layout ∧
      t.lineCur = s.lineCur ∧ t.lineStarts = s.lineStarts := by
  induction frames generalizing s with
  | nil =>
      rw [hf] at hroot
      have hcurrent : s.current = ⟨1, .root⟩ := hroot
      exact ⟨h, by rw [closeLayouts, hf]; exact hroot, by simp [closeLayouts, hcurrent], rfl, rfl⟩
  | cons frame frames ih =>
      by_cases hk : s.current.kind = .layout
      · rw [closeLayouts, if_pos hk]
        have hpop := h.pop hf hroot
        rw [hf] at hroot
        exact ih _ rfl (hpop.congr rfl rfl rfl) hroot.tail.2
      · simp only [closeLayouts, if_neg hk]
        exact ⟨h, hroot, hk, trivial, trivial⟩

theorem closeAll_spec (frames : List LayoutFrame) (s : State) (hf : s.frames = frames)
    (h : Emitted consumed lo (openBraces s) s) (hroot : Rooted (s.current :: s.frames)) :
    Emitted consumed lo [] (closeAll frames s) := by
  induction frames generalizing s with
  | nil =>
      rw [hf] at hroot
      have hcurrent : s.current = ⟨1, .root⟩ := hroot
      have hempty : openBraces s = [] := by simp [openBraces, hf, hcurrent, braceOf]
      exact hempty ▸ h
  | cons frame frames ih =>
      have hpop := h.pop hf hroot
      have hsemi : Emitted consumed lo ((frame :: frames).filterMap braceOf)
          (emitSynthetic (emitSynthetic s .virtualRbrace) .virtualSemi) := hpop.synthetic rfl (by simp [readBrace])
      rw [hf] at hroot
      exact ih _ rfl (hsemi.congr rfl rfl rfl) hroot.tail.2

theorem readBrace_other {tok : Token} (hreal : kindIsVirtualLayout tok.kind = false) (hleft : tok.kind ≠ .lbrace)
    (hright : tok.kind ≠ .rbrace) (stack : List Brace) : readBrace stack tok = some stack := by
  unfold readBrace
  split <;> simp_all [kindIsVirtualLayout]

variable {held : Token}

theorem Inv.moveCursor (h : Inv consumed held.start s) :
    Inv consumed held.start { s with lineCur := (colAdvance held.start s.lineStarts s.lineCur).2 } ∧
      (held.start + 1 < 2 ^ 32 → 1 ≤ (colAdvance held.start s.lineStarts s.lineCur).1) := by
  obtain ⟨hcur, hle, hpos⟩ := colAdvance_spec h.lineCur h.lineStart
  exact ⟨⟨h.emitted.congr rfl rfl rfl, h.rooted, hcur, hle⟩, hpos⟩

@[simp] theorem emitSemicolon_frames (s : State) : (emitSemicolon s).frames = s.frames := by
  unfold emitSemicolon
  split <;> rfl

@[simp] theorem emitSemicolon_current (s : State) : (emitSemicolon s).current = s.current := by
  unfold emitSemicolon
  split <;> rfl

@[simp] theorem emitSemicolon_newlineSeen (s : State) : (emitSemicolon s).newlineSeen = s.newlineSeen := by
  unfold emitSemicolon
  split <;> rfl

namespace Inv

theorem semicolon (h : Inv consumed lo s) : Inv consumed lo (emitSemicolon s) := by
  have hsemi := h.emitted.semicolon
  unfold emitSemicolon at hsemi ⊢
  split
  · rename_i hkind
    rw [if_pos hkind] at hsemi
    exact ⟨hsemi, h.rooted, h.lineCur, h.lineStart⟩
  · exact h

theorem mark (h : Inv consumed lo s) (kind : SyntaxKind) (seen : Bool) :
    Inv consumed lo { s with prevKind := kind, newlineSeen := seen } :=
  ⟨h.emitted.congr rfl rfl rfl, h.rooted, h.lineCur, h.lineStart⟩

theorem openVirtual (h : Inv consumed lo s) (indent : Nat) :
    Inv consumed lo
      { emitSynthetic s .virtualLbrace with frames := s.current :: s.frames, current := ⟨indent, .layout⟩ } := by
  have hvirtual := h.emitted.synthetic (show kindIsVirtualLayout .virtualLbrace = true from rfl) rfl
  exact ⟨hvirtual.congr rfl rfl rfl, h.rooted.push (by simp), h.lineCur, h.lineStart⟩

theorem closeVirtual (h : Inv consumed lo s) {frame : LayoutFrame} {frames : List LayoutFrame}
    (hf : s.frames = frame :: frames) :
    Inv consumed lo { emitSynthetic s .virtualRbrace with frames := frames, current := frame } := by
  have hpop := h.emitted.pop hf h.rooted
  have hrooted := h.rooted
  rw [hf] at hrooted
  exact ⟨hpop.congr rfl rfl rfl, hrooted.tail.2, h.lineCur, h.lineStart⟩

/-- A real token that is no brace goes out behind the pending trivia. -/
theorem real (h : Inv consumed held.start s) (hrange : held.start ≤ held.byteEnd)
    (hreal : kindIsVirtualLayout held.kind = false) (hleft : held.kind ≠ .lbrace) (hright : held.kind ≠ .rbrace) :
    Inv (consumed ++ [held]) held.byteEnd (advance (emitReal s held) held) :=
  ⟨h.emitted.real hreal (Nat.le_refl _) hrange (readBrace_other hreal hleft hright _), h.rooted, h.lineCur,
    Nat.le_trans h.lineStart hrange⟩

theorem openLiteral (h : Inv consumed held.start s) (hrange : held.start ≤ held.byteEnd) (hkind : held.kind = .lbrace)
    (indent : Nat) :
    Inv (consumed ++ [held]) held.byteEnd
      (advance { emitReal s held with frames := s.current :: s.frames, current := ⟨indent, .explicit⟩ } held) := by
  have hread : readBrace (openBraces s) held = some (.literal :: openBraces s) := by simp [readBrace, hkind]
  have hliteral := h.emitted.real (by simp [hkind, kindIsVirtualLayout]) (Nat.le_refl _) hrange hread
  exact ⟨hliteral.congr rfl rfl rfl, h.rooted.push (by simp [advance]), h.lineCur, Nat.le_trans h.lineStart hrange⟩

theorem closeLayouts (h : Inv consumed lo s) :
    Inv consumed lo (closeLayouts s.frames s) ∧ (LayoutStream.closeLayouts s.frames s).current.kind ≠ .layout := by
  obtain ⟨hemitted, hrooted, hkind, hcur, hlines⟩ := closeLayouts_spec s.frames s rfl h.emitted h.rooted
  refine ⟨⟨hemitted, hrooted, ?_, ?_⟩, hkind⟩
  · rw [hcur, hlines]
    exact h.lineCur
  · rw [hcur, hlines]
    exact h.lineStart

theorem current_root (h : Inv consumed lo s) (hf : s.frames = []) : s.current = ⟨1, .root⟩ := by
  have hrooted := h.rooted
  rw [hf] at hrooted
  exact hrooted

end Inv

/-- Outside every layout block a literal right brace closes the innermost
literal brace, or is stray at the root. -/
theorem Inv.closeLiteral (h : Inv consumed held.start s) (hrange : held.start ≤ held.byteEnd)
    (hkind : held.kind = .rbrace) (hcurrent : s.current.kind ≠ .layout) :
    Inv (consumed ++ [held]) held.byteEnd (advance (popFrame (emitReal s held)) held) := by
  have hreal : kindIsVirtualLayout held.kind = false := by simp [hkind, kindIsVirtualLayout]
  cases hf : s.frames with
  | nil =>
      have hroot := h.current_root hf
      have hopen : openBraces s = [] := by simp [openBraces, hf, hroot, braceOf]
      have hread : readBrace (openBraces s) held = some (openBraces s) := by simp [readBrace, hkind, hopen]
      have hstray := h.emitted.real hreal (Nat.le_refl _) hrange hread
      have hpop : popFrame (emitReal s held) = emitReal s held := by simp [popFrame, emitReal, hf]
      rw [hpop]
      exact ⟨hstray, h.rooted, h.lineCur, Nat.le_trans h.lineStart hrange⟩
  | cons frame frames =>
      obtain ⟨brace, hopen, hbrace⟩ := openBraces_pop hf h.rooted
      have hliteral : brace = .literal := by
        cases brace with
        | literal => rfl
        | virtual => exact absurd (hbrace.mp rfl) hcurrent
      have hread : readBrace (openBraces s) held = some ((frame :: frames).filterMap braceOf) := by
        simp [readBrace, hkind, hopen, hliteral]
      have hclosed := h.emitted.real hreal (Nat.le_refl _) hrange hread
      have hpop : popFrame (emitReal s held) = { emitReal s held with current := frame, frames := frames } := by
        simp [popFrame, emitReal, hf]
      have hrooted := h.rooted
      rw [hf] at hrooted
      rw [hpop]
      exact ⟨hclosed.congr rfl rfl rfl, hrooted.tail.2, h.lineCur, Nat.le_trans h.lineStart hrange⟩

/-- How many more turns the held token can take. -/
def turns (s : State) : Nat := if s.newlineSeen then s.frames.length + 1 else 0

theorem Inv.mono (h : Inv consumed lo s) {hi : Nat} (hle : lo ≤ hi) : Inv consumed hi s :=
  ⟨h.emitted.mono hle, h.rooted, h.lineCur, Nat.le_trans h.lineStart hle⟩

theorem Inv.moreLines (h : Inv consumed lo s) (lines : List Nat) :
    Inv consumed lo { s with lineStarts := s.lineStarts ++ lines } := by
  refine ⟨h.emitted.congr rfl rfl rfl, h.rooted, ?_, ?_⟩
  · have := h.lineCur
    simp only [List.length_append]
    omega
  · simpa [List.getD, List.getElem?_append_left h.lineCur] using h.lineStart

theorem Inv.keepTrivia (h : Inv consumed held.start s) (hrange : held.start ≤ held.byteEnd)
    (htrivia : tokenIsTrivia held.kind = true) :
    Inv (consumed ++ [held]) held.byteEnd { s with triviaBuf := s.triviaBuf ++ [held] } := by
  refine ⟨⟨h.emitted.braces, ?_, h.emitted.ordered, ?_, ?_⟩, h.rooted, h.lineCur, Nat.le_trans h.lineStart hrange⟩
  · simp [← h.emitted.erased]
  · exact h.emitted.pending.append (Between.single (Nat.le_refl _) hrange)
  · intro tok htok
    rcases List.mem_append.mp htok with htok | htok
    · exact h.emitted.trivia tok htok
    · simpa [List.mem_singleton.mp htok] using htrivia

theorem Inv.resolveIndent (h : Inv consumed held.start s) : Inv consumed held.start (resolveIndent held s) := by
  unfold LayoutStream.resolveIndent
  split
  · rename_i hexplicit
    obtain ⟨hinv, -⟩ := h.moveCursor
    generalize colAdvance held.start s.lineStarts s.lineCur = col at hinv ⊢
    obtain ⟨indent, lineCur⟩ := col
    have hopen : openBraces { s with current := ⟨indent, s.current.kind⟩, lineCur := lineCur } = openBraces s := by
      simp [openBraces, List.filterMap_cons, braceOf]
    refine ⟨?_, ?_, hinv.lineCur, hinv.lineStart⟩
    · simp only [hopen]
      exact hinv.emitted.congr rfl rfl rfl
    · have hrooted := h.rooted
      cases hf : s.frames with
      | nil => simp [h.current_root hf] at hexplicit
      | cons frame frames =>
          rw [hf] at hrooted
          exact hrooted
  · exact h

theorem finishEof_spec (h : Inv consumed held.start s) (hrange : held.start ≤ held.byteEnd) (hkind : held.kind = .eof) :
    LaidOut (consumed ++ [held]) (finishEof held s) := by
  have hsemi := h.semicolon
  have hclosed := closeAll_spec _ (emitSemicolon s) rfl hsemi.emitted hsemi.rooted
  have hread : readBrace [] held = some [] := by simp [readBrace, hkind]
  have hdone := hclosed.real (by simp [hkind, kindIsVirtualLayout]) (Nat.le_refl _) hrange hread
  refine ⟨hdone.braces, ?_, hdone.ordered.pairwise⟩
  simpa [finishEof, advance, emitReal] using hdone.erased

theorem RawStream.fromHead {lineStart : Nat} {raw : List Lexed} (h : RawStream lineStart raw) :
    lineStart ≤ (initial lineStart raw).prevByteEnd ∧ RawStream (initial lineStart raw).prevByteEnd raw := by
  cases h with
  | eof hlo hrange hkind => exact ⟨hlo, .eof (Nat.le_refl _) hrange hkind⟩
  | cons hlo hrange hlimit hkind hreal hrest => exact ⟨hlo, .cons (Nat.le_refl _) hrange hlimit hkind hreal hrest⟩

theorem initial_inv {lineStart : Nat} {raw : List Lexed} (hle : lineStart ≤ (initial lineStart raw).prevByteEnd) :
    Inv [] (initial lineStart raw).prevByteEnd (initial lineStart raw) where
  emitted := ⟨rfl, rfl, Nat.zero_le _, Nat.le_refl _, by simp [initial]⟩
  rooted := rfl
  lineCur := by simp [initial]
  lineStart := by simpa [initial] using hle

end Ore.LayoutBalance
