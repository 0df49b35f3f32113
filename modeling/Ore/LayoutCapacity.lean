import Ore.LexerTiling

namespace Ore.LayoutCapacity

open SyntaxKinds LayoutStream LayoutBalance Lexer LexerTiling
open LexerScans (isReal)
open WorkspaceModel (Bytes)

def openFrame (s : State) (frame : LayoutFrame) : State := { s with frames := s.current :: s.frames, current := frame }

/-- One turn of the re-examination loop with a frame stack as large as needed. -/
def examineFree (held : Token) (s : State) : State ⊕ State :=
  let (indent, lineCur) := colAdvance held.start s.lineStarts s.lineCur
  let s := { s with lineCur := lineCur }
  let layoutCol := s.current.indent
  if s.newlineSeen ∧ indent > layoutCol ∧ !isExprContinuation s.prevKind held.kind then
    .inl { openFrame (emitSynthetic s .virtualLbrace) ⟨indent, .layout⟩ with
      prevKind := .virtualLbrace, newlineSeen := false }
  else if s.newlineSeen ∧ indent < layoutCol ∧ ¬ (held.kind = .rbrace ∧ s.current.kind = .explicit) then
    .inl { popFrame (emitSynthetic (emitSemicolon s) .virtualRbrace) with prevKind := .virtualRbrace }
  else if held.kind = .lbrace then .inr (advance (openFrame (emitReal s held) ⟨indentUnresolved, .explicit⟩) held)
  else if held.kind = .rbrace then
    .inr (advance (popFrame (emitReal (emitSemicolon (closeLayouts s.frames s)) held)) held)
  else if s.newlineSeen ∧ indent = layoutCol ∧ !isExprContinuation s.prevKind held.kind then
    .inr (advance (emitReal (emitSemicolon s) held) held)
  else .inr (advance (emitReal s held) held)

def examineFreeLoop (held : Token) (s : State) : Option State :=
  Loop.run (examineFree held) (s.frames.length + 3) s

/-- The driver with buffers as large as needed. A re-examination that never ends is `none`. -/
def layoutFree : List Lexed → State → Option (List Token)
  | [], _ => none
  | ⟨held, lines⟩ :: rest, s =>
      let s := { s with lineStarts := s.lineStarts ++ lines }
      if tokenIsTrivia held.kind then
        layoutFree rest
          { s with newlineSeen := s.newlineSeen || held.kind == SyntaxKind.newline, triviaBuf := s.triviaBuf ++ [held] }
      else
        let s := resolveIndent held s
        if held.kind = .eof then some (finishEof held s)
        else if held.kind = .lexError then layoutFree rest (advance (emitReal s held) held)
        else (examineFreeLoop held s).bind (layoutFree rest)

/-- Reading these tokens opens no brace. -/
def Quiet (toks : List Token) : Prop := ∀ tok ∈ toks, tok.kind ≠ .lbrace ∧ tok.kind ≠ .virtualLbrace

/-- The output grew by tokens of which only the last may open a brace. -/
def Grows (s s' : State) : Prop :=
  ∃ quiet last, s'.outTokens = s.outTokens ++ (quiet ++ last) ∧ Quiet quiet ∧ last.length ≤ 1

/-- The tokens written or pending, and two for each open frame. -/
def spent (s : State) : Nat := s.outTokens.length + s.triviaBuf.length + 2 * s.frames.length

def charge (held : Token) (s : State) : Nat :=
  spent s + if s.newlineSeen && !isStartContinuation held.kind then 3 else 0

/-- What the last turn on a token may add. -/
def exitCost (held : Token) : Nat := if isStartContinuation held.kind then 3 else 1

/-- No part of the output up to a token has more open braces. -/
def NestedWithin (k : Nat) (stack : List Brace) (toks : List Token) : Prop :=
  ∀ pre st, pre <+: toks → readBraces stack pre = some st → st.length ≤ k

variable {consumed : List Token} {lo k : Nat} {s s' : State} {held : Token} {stack : List Brace}
    {toks more : List Token}

theorem Quiet.append (h : Quiet toks) (hmore : Quiet more) : Quiet (toks ++ more) :=
  List.forall_mem_append.mpr ⟨h, hmore⟩

theorem quiet_trivia (h : ∀ tok ∈ toks, tokenIsTrivia tok.kind = true) : Quiet toks := by
  intro tok hmem
  rcases trivia_cases (h tok hmem) with hk | hk | hk <;> simp [hk]

theorem readBrace_quiet {tok : Token} {st : List Brace} (hleft : tok.kind ≠ .lbrace)
    (hvirtual : tok.kind ≠ .virtualLbrace)
    (h : readBrace stack tok = some st) : st.length ≤ stack.length := by
  unfold readBrace at h
  split at h <;> simp_all

theorem readBraces_quiet {st : List Brace} (hquiet : Quiet toks) (h : readBraces stack toks = some st) :
    st.length ≤ stack.length := by
  induction toks generalizing stack with
  | nil =>
      obtain rfl := Option.some.inj h
      exact Nat.le_refl _
  | cons tok toks ih =>
      obtain ⟨mid, hmid, hrest⟩ := Option.bind_eq_some_iff.mp (by simpa [readBraces] using h)
      have htok := hquiet tok (List.mem_cons_self ..)
      exact (ih (fun t ht => hquiet t (List.mem_cons_of_mem _ ht)) hrest).trans (readBrace_quiet htok.1 htok.2 hmid)

theorem prefix_append_cases {pre : List Token} (h : pre <+: toks ++ more) :
    pre <+: toks ∨ ∃ rest, pre = toks ++ rest ∧ rest <+: more := by
  rcases List.prefix_or_prefix_of_prefix h (List.prefix_append toks more) with hpre | ⟨rest, rfl⟩
  · exact .inl hpre
  · exact .inr ⟨rest, rfl, (List.prefix_append_right_inj toks).mp h⟩

theorem NestedWithin.append {st : List Brace} (h : NestedWithin k stack toks) (hread : readBraces stack toks = some st)
    (hmore : NestedWithin k st more) : NestedWithin k stack (toks ++ more) := by
  intro pre st' hpre hst
  rcases prefix_append_cases hpre with hpre | ⟨rest, rfl, hrest⟩
  · exact h pre st' hpre hst
  · rw [readBraces_append, hread, Option.bind_some] at hst
    exact hmore rest st' hrest hst

theorem nested_growth {quiet last : List Token} {st : List Brace} (hquiet : Quiet quiet) (hlast : last.length ≤ 1)
    (hstack : stack.length ≤ k) (hread : readBraces stack (quiet ++ last) = some st) (hst : st.length ≤ k) :
    NestedWithin k stack (quiet ++ last) := by
  intro pre st' hpre hst'
  rcases prefix_append_cases hpre with ⟨more, rfl⟩ | ⟨rest, rfl, hrest⟩
  · exact (readBraces_quiet (fun t ht => hquiet t (List.mem_append_left _ ht)) hst').trans hstack
  · cases rest with
    | nil =>
        rw [List.append_nil] at hst'
        exact (readBraces_quiet hquiet hst').trans hstack
    | cons tok rest =>
        have hwhole : tok :: rest = last := hrest.eq_of_length_le (by rw [List.length_cons]; omega)
        rw [hwhole, hread] at hst'
        obtain rfl := Option.some.inj hst'
        exact hst

@[simp] theorem spent_synthetic (s : State) (kind : SyntaxKind) : spent (emitSynthetic s kind) = spent s + 1 := by
  simp only [spent, emitSynthetic, List.length_append, List.length_singleton]
  omega

theorem spent_semicolon (s : State) : spent (emitSemicolon s) ≤ spent s + 1 := by
  unfold emitSemicolon
  split
  · exact Nat.le_of_eq (spent_synthetic s .virtualSemi)
  · exact Nat.le_succ _

@[simp] theorem spent_real (s : State) (tok : Token) : spent (advance (emitReal s tok) tok) = spent s + 1 := by
  simp only [spent, advance, emitReal, List.length_append, List.length_singleton, List.length_nil]
  omega

@[simp] theorem semicolon_trivia (s : State) : (emitSemicolon s).triviaBuf = s.triviaBuf := by
  unfold emitSemicolon
  split <;> rfl

/-- More output that opens no brace. -/
def QuietOut (s s' : State) : Prop := ∃ more, s'.outTokens = s.outTokens ++ more ∧ Quiet more

theorem QuietOut.grows (h : QuietOut s s') : Grows s s' := by
  obtain ⟨more, hout, hquiet⟩ := h
  exact ⟨more, [], by rw [hout, List.append_nil], hquiet, Nat.zero_le _⟩

theorem QuietOut.trans {t : State} (h : QuietOut s s') (h' : QuietOut s' t) : QuietOut s t := by
  obtain ⟨more, hout, hquiet⟩ := h
  obtain ⟨more', hout', hquiet'⟩ := h'
  exact ⟨more ++ more', by rw [hout', hout, List.append_assoc], hquiet.append hquiet'⟩

theorem synthetic_out (s : State) {kind : SyntaxKind} (hleft : kind ≠ .lbrace) (hvirtual : kind ≠ .virtualLbrace) :
    QuietOut s (emitSynthetic s kind) :=
  ⟨_, rfl, by simp [Quiet, hleft, hvirtual]⟩

theorem real_out (held : Token) (htrivia : ∀ tok ∈ s.triviaBuf, tokenIsTrivia tok.kind = true)
    (hleft : held.kind ≠ .lbrace)
    (hvirtual : held.kind ≠ .virtualLbrace) : QuietOut s (emitReal s held) :=
  ⟨s.triviaBuf ++ [held], List.append_assoc .., (quiet_trivia htrivia).append (by simp [Quiet, hleft, hvirtual])⟩

theorem semicolon_out (s : State) : QuietOut s (emitSemicolon s) := by
  unfold emitSemicolon
  split
  · exact synthetic_out s (by decide) (by decide)
  · exact ⟨[], (List.append_nil _).symm, by simp [Quiet]⟩

theorem closeLayouts_out (frames : List LayoutFrame) (s : State) (hf : s.frames = frames) :
    QuietOut s (closeLayouts frames s) ∧
      (closeLayouts frames s).triviaBuf = s.triviaBuf ∧ spent (closeLayouts frames s) ≤ spent s := by
  induction frames generalizing s with
  | nil => exact ⟨⟨[], (List.append_nil _).symm, by simp [Quiet]⟩, rfl, Nat.le_refl _⟩
  | cons frame frames ih =>
      rw [closeLayouts]
      split
      · obtain ⟨hout, htrivia, hspent⟩ :=
          ih { emitSynthetic s .virtualRbrace with current := frame, frames := frames } rfl
        refine ⟨(synthetic_out s (by decide) (by decide)).trans hout, htrivia, hspent.trans ?_⟩
        simp only [spent, emitSynthetic, hf, List.length_append, List.length_cons, List.length_nil]
        omega
      · exact ⟨⟨[], (List.append_nil _).symm, by simp [Quiet]⟩, rfl, Nat.le_refl _⟩

theorem closeAll_out (frames : List LayoutFrame) (s : State) (hf : s.frames = frames) :
    QuietOut s (closeAll frames s) ∧
      (closeAll frames s).triviaBuf = s.triviaBuf ∧ spent (closeAll frames s) = spent s := by
  induction frames generalizing s with
  | nil => exact ⟨⟨[], (List.append_nil _).symm, by simp [Quiet]⟩, rfl, rfl⟩
  | cons frame frames ih =>
      obtain ⟨hout, htrivia, hspent⟩ :=
        ih { emitSynthetic (emitSynthetic s .virtualRbrace) .virtualSemi with current := frame, frames := frames } rfl
      have hbrace := synthetic_out s (show SyntaxKind.virtualRbrace ≠ .lbrace by decide) (by decide)
      have hsemi := synthetic_out (emitSynthetic s .virtualRbrace) (show SyntaxKind.virtualSemi ≠ .lbrace by decide)
        (by decide)
      rw [closeAll]
      refine ⟨(hbrace.trans hsemi).trans hout, htrivia, hspent.trans ?_⟩
      simp only [spent, emitSynthetic, hf, List.length_append, List.length_cons, List.length_nil]
      omega

@[simp] theorem popFrame_out (s : State) : (popFrame s).outTokens = s.outTokens := by
  unfold popFrame
  split <;> rfl

@[simp] theorem popFrame_trivia (s : State) : (popFrame s).triviaBuf = s.triviaBuf := by
  unfold popFrame
  split <;> rfl

theorem spent_pop (s : State) : spent (popFrame s) ≤ spent s := by
  unfold popFrame
  split
  · exact Nat.le_refl _
  · rename_i hf
    simp only [spent, hf, List.length_cons]
    omega

theorem free_next (h : Inv consumed held.start s) (hlimit : held.start + 1 < 2 ^ 32)
    (hnext : examineFree held s = .inl s') :
    Inv consumed held.start s' ∧ turns s' < turns s ∧ Grows s s' ∧ charge held s' ≤ charge held s := by
  obtain ⟨hinv, hpos⟩ := h.moveCursor
  have hpos := hpos hlimit
  simp only [examineFree] at hnext
  generalize colAdvance held.start s.lineStarts s.lineCur = col at hnext hinv hpos
  obtain ⟨indent, lineCur⟩ := col
  simp only at hnext hinv hpos
  split at hnext
  · rename_i hopen
    injection hnext with hnext
    subst hnext
    have hcontinue : isStartContinuation held.kind = false := by
      have hboth := hopen.2.2
      simp only [isExprContinuation, Bool.not_eq_true', Bool.or_eq_false_iff] at hboth
      exact hboth.1
    refine ⟨(hinv.openVirtual indent).mark .virtualLbrace false, by simp [turns, hopen.1],
      ⟨[], [⟨.virtualLbrace, 0, s.prevByteEnd, s.prevByteEnd⟩], rfl, by simp [Quiet], Nat.le_refl _⟩, ?_⟩
    simp only [charge, hopen.1, hcontinue, spent, openFrame, emitSynthetic, List.length_append, List.length_cons,
      List.length_nil, Bool.not_false, Bool.and_true, if_true, Bool.false_eq_true, if_false]
    omega
  · split at hnext
    · rename_i hclose
      injection hnext with hnext
      cases hf : s.frames with
      | nil =>
          have hroot := h.current_root hf
          simp only [hroot] at hclose
          omega
      | cons frame frames =>
          have hframes : (emitSemicolon { s with lineCur := lineCur }).frames = frame :: frames := by simp [hf]
          have hpop := hinv.semicolon.closeVirtual hframes
          have hs' : s' = { { emitSynthetic (emitSemicolon { s with lineCur := lineCur }) .virtualRbrace with
              frames := frames, current := frame } with prevKind := .virtualRbrace } := by
            rw [← hnext, popFrame]
            simp [emitSynthetic, hf]
          have hout : QuietOut s (emitSynthetic (emitSemicolon { s with lineCur := lineCur }) .virtualRbrace) :=
            (semicolon_out { s with lineCur := lineCur }).trans (synthetic_out _ (by decide) (by decide))
          have hspent := spent_semicolon { s with lineCur := lineCur }
          rw [hs']
          refine ⟨hpop.mark _ _, by simp [turns, emitSynthetic, hf, hclose.1], hout.grows, ?_⟩
          simp only [charge, spent, hf, emitSynthetic, emitSemicolon_newlineSeen,
            emitSemicolon_frames, semicolon_trivia,
            List.length_append, List.length_cons, List.length_nil] at hspent ⊢
          omega
    · split at hnext
      · cases hnext
      · split at hnext
        · cases hnext
        · split at hnext <;> cases hnext

theorem free_exit (h : Inv consumed held.start s) (hrange : held.start ≤ held.byteEnd)
    (hreal : kindIsVirtualLayout held.kind = false)
    (hexit : examineFree held s = .inr s') :
    Inv (consumed ++ [held]) held.byteEnd s' ∧ Grows s s' ∧ spent s' ≤ charge held s + exitCost held ∧
      s'.triviaBuf = [] := by
  obtain ⟨hinv, -⟩ := h.moveCursor
  have hvirtual : held.kind ≠ .virtualLbrace := by
    intro heq
    rw [heq] at hreal
    cases hreal
  have hcharge : spent s ≤ charge held s := Nat.le_add_right ..
  simp only [examineFree] at hexit
  generalize colAdvance held.start s.lineStarts s.lineCur = col at hexit hinv
  obtain ⟨indent, lineCur⟩ := col
  simp only at hexit hinv
  have htrivia := hinv.emitted.trivia
  split at hexit
  · cases hexit
  split at hexit
  · cases hexit
  split at hexit
  · rename_i hleft
    injection hexit with hexit
    subst hexit
    refine ⟨hinv.openLiteral hrange hleft _, ⟨s.triviaBuf, [held], ?_, quiet_trivia htrivia, Nat.le_refl _⟩, ?_, rfl⟩
    · exact List.append_assoc ..
    · have hcost : exitCost held = 3 := by rw [exitCost, hleft]; rfl
      simp only [spent, advance, openFrame, emitReal, List.length_append, List.length_cons,
        List.length_nil] at hcharge ⊢
      omega
  rename_i hleft
  split at hexit
  · rename_i hright
    injection hexit with hexit
    subst hexit
    obtain ⟨hclosed, hkind⟩ := hinv.closeLayouts
    obtain ⟨hout, htrivia', hspent⟩ := closeLayouts_out s.frames { s with lineCur := lineCur } rfl
    have hsemi := semicolon_out (closeLayouts s.frames { s with lineCur := lineCur })
    have hcost : exitCost held = 3 := by rw [exitCost, hright]; rfl
    refine ⟨hclosed.semicolon.closeLiteral hrange hright (by simpa using hkind), ?_, ?_, popFrame_trivia _⟩
    · have hreal := real_out held (hclosed.semicolon.emitted.trivia) hleft hvirtual
      obtain ⟨more, hmore, hquiet⟩ := (hout.trans hsemi).trans hreal
      exact QuietOut.grows ⟨more, (popFrame_out _).trans hmore, hquiet⟩
    · have hpop := spent_pop (emitReal (emitSemicolon (closeLayouts s.frames { s with lineCur := lineCur })) held)
      have hemit := spent_real (emitSemicolon (closeLayouts s.frames { s with lineCur := lineCur })) held
      have hsemi' := spent_semicolon (closeLayouts s.frames { s with lineCur := lineCur })
      have hsame : spent { s with lineCur := lineCur } = spent s := rfl
      have hadvance (t : State) : spent (advance t held) = spent t := rfl
      rw [hadvance] at hemit ⊢
      omega
  rename_i hright
  split at hexit
  · rename_i hsame
    injection hexit with hexit
    subst hexit
    have hcontinue : isStartContinuation held.kind = false := by
      have hboth := hsame.2.2
      simp only [isExprContinuation, Bool.not_eq_true', Bool.or_eq_false_iff] at hboth
      exact hboth.1
    have hspent := spent_semicolon { s with lineCur := lineCur }
    refine ⟨hinv.semicolon.real hrange hreal hleft hright, ?_, ?_, rfl⟩
    · exact ((semicolon_out _).trans (real_out held hinv.semicolon.emitted.trivia hleft hvirtual)).grows
    · have hsaved : charge held s = spent s + 3 := by simp [charge, hsame.1, hcontinue]
      rw [spent_real, hsaved]
      have hsame' : spent { s with lineCur := lineCur } = spent s := rfl
      omega
  · injection hexit with hexit
    subst hexit
    refine ⟨hinv.real hrange hreal hleft hright, (real_out held htrivia hleft hvirtual).grows, ?_, rfl⟩
    have hcost : 1 ≤ exitCost held := by
      rw [exitCost]
      split <;> omega
    rw [spent_real]
    have hsame' : spent { s with lineCur := lineCur } = spent s := rfl
    omega

theorem popFrame_frames (s : State) : (popFrame s).frames.length ≤ s.frames.length := by
  unfold popFrame
  split
  · exact Nat.le_refl _
  · rename_i hf
    rw [hf, List.length_cons]
    exact Nat.le_succ _

theorem closeLayouts_frames (frames : List LayoutFrame) (s : State) (hf : s.frames = frames) :
    (closeLayouts frames s).frames.length ≤ s.frames.length := by
  induction frames generalizing s with
  | nil => exact Nat.le_refl _
  | cons frame frames ih =>
      rw [closeLayouts]
      split
      · have hle := ih { emitSynthetic s .virtualRbrace with current := frame, frames := frames } rfl
        rw [hf, List.length_cons]
        exact hle.trans (Nat.le_succ _)
      · exact Nat.le_refl _

def Leads (held : Token) (s s' : State) : Prop := examineFree held s = .inl s' ∨ examineFree held s = .inr s'

/-- The driver with fixed buffers takes the same turn, or would need one frame more. -/
theorem examine_free (held : Token) (s : State) :
    (examine held s = (examineFree held s).map id .ok ∧
      ∀ s', Leads held s s' → s.frames.length ≤ maxFrames → s'.frames.length ≤ maxFrames) ∨
    examine held s = .inr (.error .frames) ∧ ∀ s', Leads held s s' → maxFrames < s'.frames.length := by
  unfold Leads examine examineFree
  generalize colAdvance held.start s.lineStarts s.lineCur = col
  obtain ⟨indent, lineCur⟩ := col
  simp only
  split
  · by_cases hfull : s.frames.length < maxFrames
    · refine .inl ⟨by simp [pushFrame, emitSynthetic, hfull, openFrame], ?_⟩
      rintro s' (⟨⟨⟩⟩ | ⟨⟨⟩⟩) -
      exact hfull
    · refine .inr ⟨by simp [pushFrame, emitSynthetic, hfull], ?_⟩
      rintro s' (⟨⟨⟩⟩ | ⟨⟨⟩⟩)
      exact Nat.lt_succ_of_le (Nat.le_of_not_lt hfull)
  split
  · refine .inl ⟨rfl, ?_⟩
    rintro s' (⟨⟨⟩⟩ | ⟨⟨⟩⟩) hle
    refine (popFrame_frames _).trans ?_
    rw [emitSynthetic, emitSemicolon_frames]
    exact hle
  split
  · by_cases hfull : s.frames.length < maxFrames
    · refine .inl ⟨by simp [pushFrame, emitReal, hfull, openFrame], ?_⟩
      rintro s' (⟨⟨⟩⟩ | ⟨⟨⟩⟩) -
      exact hfull
    · refine .inr ⟨by simp [pushFrame, emitReal, hfull], ?_⟩
      rintro s' (⟨⟨⟩⟩ | ⟨⟨⟩⟩)
      exact Nat.lt_succ_of_le (Nat.le_of_not_lt hfull)
  split
  · refine .inl ⟨rfl, ?_⟩
    rintro s' (⟨⟨⟩⟩ | ⟨⟨⟩⟩) hle
    refine (popFrame_frames _).trans ?_
    rw [emitReal, emitSemicolon_frames]
    exact (closeLayouts_frames s.frames { s with lineCur := lineCur } rfl).trans hle
  split
  · refine .inl ⟨rfl, ?_⟩
    rintro s' (⟨⟨⟩⟩ | ⟨⟨⟩⟩) hle
    rw [LayoutStream.advance, emitReal, emitSemicolon_frames]
    exact hle
  · refine .inl ⟨rfl, ?_⟩
    rintro s' (⟨⟨⟩⟩ | ⟨⟨⟩⟩) hle
    exact hle

theorem openBraces_length (h : Rooted (s.current :: s.frames)) : (openBraces s).length = s.frames.length := by
  rw [openBraces]
  generalize s.current = current at h ⊢
  generalize s.frames = frames at h ⊢
  induction frames generalizing current with
  | nil =>
      obtain rfl : current = ⟨1, .root⟩ := h
      rfl
  | cons frame frames ih =>
      obtain ⟨hkind, hrest⟩ := h.tail
      have hbrace : ∃ brace, braceOf current = some brace := by
        cases hk : current.kind with
        | root => exact absurd hk hkind
        | layout => exact ⟨.virtual, by rw [braceOf, hk]⟩
        | explicit => exact ⟨.literal, by rw [braceOf, hk]⟩
      obtain ⟨brace, hbrace⟩ := hbrace
      rw [List.filterMap_cons_some hbrace, List.length_cons, ih frame hrest, List.length_cons]

theorem nested_grows {consumed' : List Token} {lo' : Nat} (h : Inv consumed lo s) (h' : Inv consumed' lo' s')
    (hgrows : Grows s s') (hle : s.frames.length ≤ k) (hle' : s'.frames.length ≤ k)
    (hnested : NestedWithin k [] s.outTokens) : NestedWithin k [] s'.outTokens := by
  obtain ⟨quiet, last, hout, hquiet, hlast⟩ := hgrows
  have hread := h'.emitted.braces
  rw [hout, readBraces_append, h.emitted.braces, Option.bind_some] at hread
  rw [hout]
  refine hnested.append h.emitted.braces (nested_growth hquiet hlast ?_ hread ?_)
  · rw [openBraces_length h.rooted]
    exact hle
  · rw [openBraces_length h'.rooted]
    exact hle'

/-- With more frames open than allowed the output is nested too deep, whatever follows. -/
theorem overgrown {out : List Token} (h : Inv consumed lo s) (hpre : s.outTokens <+: out) (hlt : k < s.frames.length) :
    ¬ NestedWithin k [] out := by
  intro hnested
  have hle := hnested s.outTokens _ hpre h.emitted.braces
  rw [openBraces_length h.rooted] at hle
  omega

theorem Grows.kept (h : Grows s s') : s.outTokens <+: s'.outTokens := by
  obtain ⟨quiet, last, hout, -⟩ := h
  exact ⟨quiet ++ last, hout.symm⟩

/-- The end of a run with buffers as large as needed, beside that with fixed ones. -/
def Agrees {α : Type} (free : α) (out : α → List Token) (fits : Prop) (r : Option (Except Overflow α)) : Prop :=
  r = some (.ok free) ∧ fits ∧ NestedWithin maxFrames [] (out free) ∨
    (∃ e, r = some (.error e)) ∧ ¬ (fits ∧ NestedWithin maxFrames [] (out free))

theorem free_loop (hrange : held.start ≤ held.byteEnd) (hlimit : held.start + 1 < 2 ^ 32)
    (hreal : kindIsVirtualLayout held.kind = false) (fuel : Nat) (s : State) (h : Inv consumed held.start s)
    (hfuel : turns s < fuel) :
    ∃ s', Loop.run (examineFree held) fuel s = some s' ∧ Inv (consumed ++ [held]) held.byteEnd s' ∧
      s.outTokens <+: s'.outTokens ∧ spent s' ≤ charge held s + exitCost held ∧ s'.triviaBuf = [] ∧
      (s.frames.length ≤ maxFrames → NestedWithin maxFrames [] s.outTokens →
        Agrees s' State.outTokens (s'.frames.length ≤ maxFrames) (Loop.run (examine held) fuel s)) := by
  induction fuel generalizing s with
  | zero => exact absurd hfuel (Nat.not_lt_zero _)
  | succ fuel ih =>
      have hbounded := examine_free held s
      cases hturn : examineFree held s with
      | inl t =>
          obtain ⟨ht, hturns, hgrows, hcharge⟩ := free_next h hlimit hturn
          obtain ⟨s', hrun, hinv, hpre, hspent, hempty, hagrees⟩ := ih t ht (by omega)
          refine ⟨s', by rw [Loop.run, hturn]; exact hrun, hinv, hgrows.kept.trans hpre, by omega, hempty,
            fun hle hnested => ?_⟩
          rcases hbounded with ⟨hsame, hframes⟩ | ⟨hover, hframes⟩
          · have hle' := hframes t (.inl hturn) hle
            rw [Loop.run, hsame, hturn]
            exact hagrees hle' (nested_grows h ht hgrows hle hle' hnested)
          · rw [Loop.run, hover]
            exact .inr ⟨⟨_, rfl⟩, fun hfits => overgrown ht hpre (hframes t (.inl hturn)) hfits.2⟩
      | inr t =>
          obtain ⟨ht, hgrows, hspent, hempty⟩ := free_exit h hrange hreal hturn
          refine ⟨t, by rw [Loop.run, hturn], ht, hgrows.kept, hspent, hempty, fun hle hnested => ?_⟩
          rcases hbounded with ⟨hsame, hframes⟩ | ⟨hover, hframes⟩
          · have hle' := hframes t (.inr hturn) hle
            rw [Loop.run, hsame, hturn]
            exact .inl ⟨rfl, hle', nested_grows h ht hgrows hle hle' hnested⟩
          · rw [Loop.run, hover]
            exact .inr ⟨⟨_, rfl⟩, fun hfits => absurd hfits.1 (Nat.not_le.mpr (hframes t (.inr hturn)))⟩

/-- No more than the given number of trivia tokens stand in a row, with some pending. -/
def pendingFits : Nat → List Token → Bool
  | _, [] => true
  | n, tok :: toks =>
      if tokenIsTrivia tok.kind then n < triviaScratch && pendingFits (n + 1) toks else pendingFits 0 toks

theorem exitCost_charge (held : Token) (s : State) : charge held s + exitCost held ≤ spent s + 4 := by
  unfold charge exitCost
  cases isStartContinuation held.kind <;> cases s.newlineSeen <;> simp

theorem resolveIndent_same (held : Token) (s : State) : (resolveIndent held s).outTokens = s.outTokens ∧
    (resolveIndent held s).triviaBuf = s.triviaBuf ∧ (resolveIndent held s).frames = s.frames := by
  unfold resolveIndent
  split <;> exact ⟨rfl, rfl, rfl⟩

theorem finishEof_out (held : Token) (htrivia : ∀ tok ∈ s.triviaBuf, tokenIsTrivia tok.kind = true)
    (hkind : held.kind = .eof) :
    (∃ more, finishEof held s = s.outTokens ++ more ∧ Quiet more) ∧ (finishEof held s).length ≤ spent s + 2 := by
  have hsemi := semicolon_out s
  obtain ⟨hclose, hbuf, hspent⟩ := closeAll_out (emitSemicolon s).frames (emitSemicolon s) rfl
  have hreal := real_out (s := closeAll (emitSemicolon s).frames (emitSemicolon s)) held
    (by rw [hbuf, semicolon_trivia]; exact htrivia) (by simp [hkind]) (by simp [hkind])
  refine ⟨(hsemi.trans hclose).trans hreal, ?_⟩
  have hlast := spent_real (closeAll (emitSemicolon s).frames (emitSemicolon s)) held
  have hone := spent_semicolon s
  have hle : (finishEof held s).length ≤
      spent (advance (emitReal (closeAll (emitSemicolon s).frames (emitSemicolon s)) held) held) := by
    simp only [finishEof, spent, advance]
    omega
  omega

theorem nested_quiet {st : List Brace} (hread : readBraces [] toks = some st) (hst : st.length ≤ k)
    (hnested : NestedWithin k [] toks) (hquiet : Quiet more) : NestedWithin k [] (toks ++ more) := by
  refine hnested.append hread fun pre st' hpre hst' => ?_
  obtain ⟨rest, rfl⟩ := hpre
  exact (readBraces_quiet (fun t ht => hquiet t (List.mem_append_left _ ht)) hst').trans hst

/-- The run over the rest of a raw stream with buffers as large as needed: what it lays out
behind the tokens consumed so far, at what length, and how it compares with the run with
fixed ones. -/
theorem free_run {raw : List Lexed} (h : RawStream lo raw) (s : State) (consumed : List Token)
    (hinv : Inv consumed lo s) :
    ∃ out, layoutFree raw s = some out ∧ LaidOut (consumed ++ raw.map (·.tok)) out ∧ s.outTokens <+: out ∧
      out.length + 2 ≤ spent s + 4 * raw.length ∧
      (s.frames.length ≤ maxFrames → NestedWithin maxFrames [] s.outTokens → s.triviaBuf.length ≤ triviaScratch →
        Agrees out id (pendingFits s.triviaBuf.length (raw.map (·.tok)) = true) (layoutLoop raw s)) := by
  induction h generalizing s consumed with
  | @eof lo tok lines hlo hrange hkind =>
      have hheld := ((hinv.mono hlo).moreLines lines).resolveIndent
      have hlaid := finishEof_spec hheld hrange hkind
      obtain ⟨hout, hbuf, hframes⟩ := resolveIndent_same tok { s with lineStarts := s.lineStarts ++ lines }
      simp only [layoutFree, layoutLoop, hkind, if_true, List.map_cons, List.map_nil, pendingFits,
        List.length_singleton]
      have hspent : spent (resolveIndent tok { s with lineStarts := s.lineStarts ++ lines }) = spent s := by
        rw [spent, hout, hbuf, hframes, spent]
      obtain ⟨⟨more, hmore, hquiet⟩, hlen⟩ := finishEof_out tok hheld.emitted.trivia hkind
      refine ⟨_, rfl, hlaid, ⟨more, by rw [hmore, hout]⟩, by omega, fun hle hnested _ => .inl ⟨rfl, rfl, ?_⟩⟩
      rw [hout] at hmore
      rw [id, hmore]
      exact nested_quiet hinv.emitted.braces (by rw [openBraces_length hinv.rooted]; exact hle) hnested hquiet
  | @cons lo tok lines rest hlo hrange hlimit hkind hvirtual hrest ih =>
      have hlines := (hinv.mono hlo).moreLines lines
      rw [List.map_cons, List.append_cons, List.length_cons]
      cases htrivia : tokenIsTrivia tok.kind with
      | true =>
          have hkept := (hlines.keepTrivia hrange htrivia).mark s.prevKind
            (s.newlineSeen || tok.kind == SyntaxKind.newline)
          obtain ⟨out, hrun, hlaid, hpre, hlen, hagrees⟩ := ih _ _ hkept
          refine ⟨out, by simp only [layoutFree, htrivia, if_true]; exact hrun, hlaid, hpre, ?_,
            fun hle hnested hfull => ?_⟩
          · simp only [spent, List.length_append, List.length_singleton] at hlen ⊢
            omega
          · simp only [layoutLoop, htrivia, if_true, pendingFits, Bool.and_eq_true, decide_eq_true_eq]
            by_cases hroom : s.triviaBuf.length < triviaScratch
            · have hrest := hagrees hle hnested (by simp only [List.length_append, List.length_singleton]; omega)
              simp only [List.length_append, List.length_singleton] at hrest
              rw [if_pos hroom]
              simp only [hroom, true_and]
              exact hrest
            · rw [if_neg hroom]
              exact .inr ⟨⟨_, rfl⟩, fun hfits => hroom hfits.1.1⟩
      | false =>
          have hheld := hlines.resolveIndent
          obtain ⟨hout, hbuf, hframes⟩ := resolveIndent_same tok { s with lineStarts := s.lineStarts ++ lines }
          have hspent : spent (resolveIndent tok { s with lineStarts := s.lineStarts ++ lines }) = spent s := by
            rw [spent, hout, hbuf, hframes, spent]
          simp only [layoutFree, layoutLoop, htrivia, Bool.false_eq_true, if_false, if_neg hkind, pendingFits]
          generalize resolveIndent tok { s with lineStarts := s.lineStarts ++ lines } = t at *
          by_cases herror : tok.kind = .lexError
          · rw [if_pos herror, if_pos herror]
            have hreal' := hheld.real hrange hvirtual (by simp [herror]) (by simp [herror])
            obtain ⟨out, hrun, hlaid, hpre, hlen, hagrees⟩ := ih _ _ hreal'
            obtain ⟨more, hmore, hquiet⟩ := real_out tok hheld.emitted.trivia (by simp [herror]) (by simp [herror])
            have hfirst : t.outTokens <+: (advance (emitReal t tok) tok).outTokens := ⟨more, hmore.symm⟩
            have hpre' : s.outTokens <+: out := hout ▸ hfirst.trans hpre
            refine ⟨out, hrun, hlaid, hpre', ?_, fun hle hnested _ => ?_⟩
            · rw [spent_real] at hlen
              omega
            · refine hagrees (by rw [← hframes] at hle; exact hle) ?_ (Nat.zero_le _)
              have hnested' : NestedWithin maxFrames [] (t.outTokens ++ more) :=
                nested_quiet hheld.emitted.braces (by rw [openBraces_length hheld.rooted, hframes]; exact hle)
                  (hout ▸ hnested) hquiet
              rw [← hmore] at hnested'
              exact hnested'
          · rw [if_neg herror, if_neg herror]
            have hturns : turns t < t.frames.length + 3 := by
              unfold turns
              split <;> omega
            obtain ⟨s', hloop, hinv', hpre, hcost, hempty, hagrees⟩ := free_loop hrange hlimit hvirtual _ t hheld hturns
            obtain ⟨out, hrun, hlaid, hpre', hlen, hagrees'⟩ := ih s' _ hinv'
            have hbudget := exitCost_charge tok t
            refine ⟨out, by rw [examineFreeLoop, hloop]; exact hrun, hlaid, hout ▸ hpre.trans hpre', by omega,
              fun hle hnested _ => ?_⟩
            rcases hagrees (hframes ▸ hle) (hout ▸ hnested) with ⟨hok, hle', hnested'⟩ | ⟨⟨e, he⟩, hnot⟩
            · rw [examineLoop, hok]
              have hrest := hagrees' hle' hnested' (by rw [hempty]; exact Nat.zero_le _)
              rw [hempty] at hrest
              exact hrest
            · rw [examineLoop, he]
              refine .inr ⟨⟨e, rfl⟩, fun hfits => ?_⟩
              have hnested' : NestedWithin maxFrames [] s'.outTokens :=
                fun pre st hst => hfits.2 pre st (hst.trans hpre')
              have hgrown : maxFrames < s'.frames.length := Nat.lt_of_not_le fun hle' => hnot ⟨hle', hnested'⟩
              exact overgrown hinv' hpre' hgrown hfits.2

def layoutStreamFree (lineStart : Nat) (raw : List Lexed) : Option (List Token) :=
  layoutFree raw (initial lineStart raw)

theorem pulls_lines {source : Bytes} {a : Nat} {pulls : List Lexed} (h : Pulls source a pulls) :
    (pulls.flatMap (·.lines)).length + a ≤ source.length := by
  induction h with
  | eof => simp
  | @cons tok rest hlt hbound hreal hrest ih =>
      have hlines : (recorded source tok).length ≤ tok.byteEnd - tok.start := by
        unfold recorded
        split
        · exact Nat.zero_le _
        · refine (List.length_filter_le ..).trans ?_
          rw [List.length_range']
      rw [List.flatMap_cons, List.length_append]
      simp only
      omega

/-- At most as many trivia tokens in a row as the buffer holds. -/
def ShortTrivia (toks : List Token) : Prop :=
  ∀ a run b, toks = a ++ run ++ b → (∀ tok ∈ run, tokenIsTrivia tok.kind = true) → run.length ≤ triviaScratch

theorem pendingFits_iff {n : Nat} (hn : n ≤ triviaScratch) : pendingFits n toks = true ↔
    (∀ run b, toks = run ++ b → (∀ tok ∈ run, tokenIsTrivia tok.kind = true) → n + run.length ≤ triviaScratch) ∧
    ShortTrivia toks := by
  induction toks generalizing n with
  | nil =>
      refine ⟨fun _ => ⟨fun run b h _ => ?_, fun a run b h _ => ?_⟩, fun _ => rfl⟩
      · obtain rfl := (List.append_eq_nil_iff.mp h.symm).1
        exact hn
      · obtain rfl := (List.append_eq_nil_iff.mp (List.append_eq_nil_iff.mp h.symm).1).2
        exact Nat.zero_le _
  | cons tok toks ih =>
      rw [pendingFits]
      cases htok : tokenIsTrivia tok.kind with
      | true =>
          simp only [if_true, Bool.and_eq_true, decide_eq_true_eq]
          constructor
          · rintro ⟨hlt, hfits⟩
            obtain ⟨hfirst, hlater⟩ := (ih hlt).mp hfits
            have hbegin (run b : List Token) (h : tok :: toks = run ++ b)
                (hrun : ∀ tok ∈ run, tokenIsTrivia tok.kind = true) : n + run.length ≤ triviaScratch := by
              cases run with
              | nil => exact hn
              | cons t run =>
                  obtain ⟨rfl, rfl⟩ := List.cons.inj h
                  have hle := hfirst run b rfl fun t ht => hrun t (List.mem_cons_of_mem _ ht)
                  rw [List.length_cons]
                  omega
            refine ⟨hbegin, fun a run b h hrun => ?_⟩
            cases a with
            | nil => exact (Nat.le_add_left ..).trans (hbegin run b h hrun)
            | cons t a =>
                obtain ⟨rfl, rfl⟩ := List.cons.inj h
                exact hlater a run b rfl hrun
          · rintro ⟨hfirst, hlater⟩
            have hlt : n < triviaScratch := hfirst [tok] toks rfl (by simp [htok])
            refine ⟨hlt, (ih hlt).mpr ⟨fun run b h hrun => ?_, fun a run b h hrun => ?_⟩⟩
            · have hle := hfirst (tok :: run) b (by rw [h]; rfl) (List.forall_mem_cons.mpr ⟨htok, hrun⟩)
              rw [List.length_cons] at hle
              omega
            · exact hlater (tok :: a) run b (by rw [h]; rfl) hrun
      | false =>
          simp only [Bool.false_eq_true, if_false]
          have hempty (run b : List Token) (h : tok :: toks = run ++ b)
              (hrun : ∀ tok ∈ run, tokenIsTrivia tok.kind = true) : run = [] := by
            cases run with
            | nil => rfl
            | cons t run =>
                obtain ⟨rfl, -⟩ := List.cons.inj h
                exact absurd (hrun tok (List.mem_cons_self ..)) (by simp [htok])
          rw [ih (Nat.zero_le _)]
          constructor
          · rintro ⟨hfirst, hlater⟩
            refine ⟨fun run b h hrun => ?_, fun a run b h hrun => ?_⟩
            · rw [hempty run b h hrun]
              exact hn
            · cases a with
              | nil =>
                  rw [hempty run b h hrun]
                  exact Nat.zero_le _
              | cons t a =>
                  obtain ⟨rfl, rfl⟩ := List.cons.inj h
                  exact hlater a run b rfl hrun
          · rintro ⟨-, hlater⟩
            refine ⟨fun run b h hrun => ?_, fun a run b h hrun => ?_⟩
            · rw [Nat.zero_add]
              exact hlater [tok] run b (by rw [h]; rfl) hrun
            · exact hlater (tok :: a) run b (by rw [h]; rfl) hrun

/-- A whole raw stream: the output with buffers as large as needed is laid out, and the
fixed ones suffice for short runs of trivia and shallow blocks. -/
theorem stream_spec {lineStart : Nat} {raw : List Lexed} (hraw : RawStream lineStart raw) :
    ∃ out, layoutStreamFree lineStart raw = some out ∧ out.length + 2 ≤ 4 * raw.length ∧
      LaidOut (raw.map (·.tok)) out ∧
      (ShortTrivia (raw.map (·.tok)) ∧ NestedWithin maxFrames [] out → layoutStream lineStart raw = some (.ok out)) ∧
      (¬ (ShortTrivia (raw.map (·.tok)) ∧ NestedWithin maxFrames [] out) →
        ∃ e, layoutStream lineStart raw = some (.error e)) := by
  obtain ⟨hle, hstream⟩ := hraw.fromHead
  obtain ⟨out, hrun, hlaid, -, hlen, hagrees⟩ := free_run hstream _ _ (initial_inv hle)
  have hnested : NestedWithin maxFrames [] (initial lineStart raw).outTokens := by
    intro pre st hpre hst
    obtain rfl := List.prefix_nil.mp hpre
    obtain rfl := Option.some.inj hst
    exact Nat.zero_le _
  have hfits : pendingFits 0 (raw.map (·.tok)) = true ↔ ShortTrivia (raw.map (·.tok)) := by
    rw [pendingFits_iff (Nat.zero_le _)]
    refine ⟨And.right, fun h => ⟨fun run b hsplit hrun => ?_, h⟩⟩
    rw [Nat.zero_add]
    exact h [] run b hsplit hrun
  have hzero : spent (initial lineStart raw) = 0 := rfl
  refine ⟨out, hrun, by omega, hlaid, ?_⟩
  have hfinal := hagrees (Nat.zero_le _) hnested (Nat.zero_le _)
  rw [Agrees, show (initial lineStart raw).triviaBuf.length = 0 from rfl, hfits] at hfinal
  rcases hfinal with ⟨hok, hboth⟩ | ⟨herror, hnot⟩
  · exact ⟨fun _ => hok, fun hnot => absurd hboth hnot⟩
  · exact ⟨fun hboth => absurd hboth hnot, fun _ => herror⟩

/-- Within the two capacities the layout pass emits balanced braces and keeps the raw stream;
beyond them it stops. -/
theorem layoutStream_laidOut (lineStart : Nat) (raw : List Lexed) (hraw : RawStream lineStart raw) :
    ∃ free, layoutStreamFree lineStart raw = some free ∧
      (ShortTrivia (raw.map (·.tok)) ∧ NestedWithin maxFrames [] free →
        layoutStream lineStart raw = some (.ok free) ∧ LaidOut (raw.map (·.tok)) free) ∧
      (¬ (ShortTrivia (raw.map (·.tok)) ∧ NestedWithin maxFrames [] free) →
        ∃ e, layoutStream lineStart raw = some (.error e)) := by
  obtain ⟨free, hfree, -, hlaid, hok, herror⟩ := stream_spec hraw
  exact ⟨free, hfree, fun hfits => ⟨hok hfits, hlaid⟩, herror⟩

/-- A name, and another one indented on the next line. -/
def indented : List Lexed :=
  [⟨⟨.ident, 1, 0, 1⟩, []⟩, ⟨⟨.newline, 0, 1, 2⟩, [2]⟩, ⟨⟨.whitespace, 0, 2, 4⟩, []⟩, ⟨⟨.ident, 2, 4, 5⟩, []⟩,
    ⟨⟨.eof, 0, 5, 5⟩, []⟩]

theorem indented_raw : RawStream 0 indented := by
  refine .cons (by decide) (by decide) (by decide) (by decide) rfl ?_
  refine .cons (by decide) (by decide) (by decide) (by decide) rfl ?_
  refine .cons (by decide) (by decide) (by decide) (by decide) rfl ?_
  refine .cons (by decide) (by decide) (by decide) (by decide) rfl ?_
  exact .eof (by decide) (by decide) rfl

theorem layoutStream_laidOut_indented : ∃ out, layoutStream 0 indented = some (.ok out) ∧
    out.map (·.kind) = [.ident, .virtualLbrace, .newline, .whitespace, .ident, .virtualSemi, .virtualRbrace,
      .virtualSemi, .eof] ∧ LaidOut (indented.map (·.tok)) out := by
  obtain ⟨out, hout, hkinds⟩ : ∃ out, layoutStream 0 indented = some (.ok out) ∧
      out.map (·.kind) = [.ident, .virtualLbrace, .newline, .whitespace, .ident, .virtualSemi, .virtualRbrace,
        .virtualSemi, .eof] := ⟨_, rfl, by decide⟩
  obtain ⟨free, -, hok, herror⟩ := layoutStream_laidOut 0 indented indented_raw
  by_cases hfits : ShortTrivia (indented.map (·.tok)) ∧ NestedWithin maxFrames [] free
  · obtain ⟨heq, hlaid⟩ := hok hfits
    rw [hout] at heq
    cases heq
    exact ⟨out, hout, hkinds, hlaid⟩
  · obtain ⟨e, he⟩ := herror hfits
    rw [hout] at he
    cases he

/-- The layout pass with buffers as large as needed ends on every text, and writes no
more than the caller makes room for. -/
theorem layout_fits {π : Type} (intern : Intern π) (source : Bytes) (pool : π) (hlimit : source.length < 2 ^ 32) :
    ∃ pulls l out, lexPulls intern source pool = some (pulls, l) ∧
      layoutStreamFree (bomLength source) pulls = some out ∧ out.length ≤ 4 * source.length + 64 ∧
      l.lineStarts.length ≤ source.length + 2 := by
  obtain ⟨pulls, l, hlex, hpulls, hlines⟩ := lexPulls_spec intern source pool
  simp only at hpulls hlines
  obtain ⟨out, hrun, hlen, -⟩ := stream_spec (hpulls.raw hlimit)
  refine ⟨pulls, l, out, hlex, hrun, ?_, ?_⟩
  · have hcount := hpulls.length_le
    omega
  · have hcount := pulls_lines hpulls
    rw [hlines, List.length_cons]
    omega

/-- A block with a line that is indented further. -/
def nested : Bytes := [97, 32, 123, 10, 32, 32, 98, 10, 32, 32, 32, 32, 99, 10, 125, 10]

def nestedKinds : List SyntaxKind :=
  [.ident, .whitespace, .lbrace, .newline, .whitespace, .ident, .virtualLbrace, .newline, .whitespace, .ident,
    .virtualSemi, .virtualRbrace, .virtualSemi, .newline, .rbrace, .virtualSemi, .newline, .eof]

theorem nested_out : (lexPulls (fun pool _ => (pool, 0)) nested ()).map
    (fun r => (layoutStreamFree (bomLength nested) r.1).map (·.map (·.kind))) = some (some nestedKinds) := by
  decide +kernel

theorem layout_fits_nested : ∃ pulls l out, lexPulls (fun pool _ => (pool, 0)) nested () = some (pulls, l) ∧
    layoutStreamFree (bomLength nested) pulls = some out ∧ out.map (·.kind) = nestedKinds ∧
    out.length ≤ 4 * nested.length + 64 ∧ l.lineStarts.length ≤ nested.length + 2 := by
  obtain ⟨pulls, l, out, hlex, hrun, hfits⟩ := layout_fits (fun pool _ => (pool, 0)) nested () (by decide)
  have hkinds := nested_out
  rw [hlex, Option.map_some, hrun, Option.map_some, Option.some.injEq, Option.some.injEq] at hkinds
  exact ⟨pulls, l, out, hlex, hrun, hkinds, hfits⟩

/-- The fixed buffers suffice for the texts with short runs of trivia and shallow blocks,
where the pass does what it does with larger ones, and for no others. -/
theorem capacities_iff {π : Type} (intern : Intern π) (source : Bytes) (pool : π) (hlimit : source.length < 2 ^ 32) :
    ∃ pulls l out, lexPulls intern source pool = some (pulls, l) ∧
      layoutStreamFree (bomLength source) pulls = some out ∧
      (ShortTrivia (pulls.map (·.tok)) ∧ NestedWithin maxFrames [] out →
        layoutStream (bomLength source) pulls = some (.ok out)) ∧
      (¬ (ShortTrivia (pulls.map (·.tok)) ∧ NestedWithin maxFrames [] out) →
        ∃ e, layoutStream (bomLength source) pulls = some (.error e)) := by
  obtain ⟨pulls, l, hlex, hpulls, -⟩ := lexPulls_spec intern source pool
  obtain ⟨out, hrun, -, -, hcapacities⟩ := stream_spec (hpulls.raw hlimit)
  exact ⟨pulls, l, out, hlex, hrun, hcapacities⟩

/-- A run of trivia that the buffer has no room for is refused. -/
theorem layoutLoop_trivia {pre : List Lexed} (htrivia : ∀ p ∈ pre, tokenIsTrivia p.tok.kind = true) (rest : List Lexed)
    (s : State) (hroom : s.triviaBuf.length ≤ triviaScratch) (hfull : triviaScratch < s.triviaBuf.length + pre.length) :
    layoutLoop (pre ++ rest) s = some (.error .trivia) := by
  induction pre generalizing s with
  | nil => exact absurd hfull (Nat.not_lt.mpr hroom)
  | cons p pre ih =>
      obtain ⟨held, lines⟩ := p
      obtain ⟨hp, hpre⟩ := List.forall_mem_cons.mp htrivia
      rw [List.cons_append, layoutLoop]
      simp only [hp, if_true]
      split
      · rename_i hlt
        simp only [List.length_cons] at hfull
        refine ih hpre _ ?_ ?_ <;> simp only [List.length_append, List.length_singleton]
        · exact hlt
        · omega
      · rfl

section LineFeeds

variable {π : Type} {intern : Intern π} {l : LexCursor π}

def pastFeed (l : LexCursor π) : LexCursor π :=
  (({ l with tokStart := l.pos, pos := l.pos + 1 } : LexCursor π).emitPlain .newline).recordLineStart

theorem lexTurn_lineFeed (hpos : l.pos < l.source.length) (hfeed : l.curr = lineFeed) (hopen : l.eofEmitted = false)
    (acc : List Lexed) : lexTurn intern (acc, l) = .inl (acc ++ [pulled l (pastFeed l)], pastFeed l) := by
  have hcurr : ({ l with tokStart := l.pos } : LexCursor π).curr = lineFeed := hfeed
  have hscan : scanOne intern { l with tokStart := l.pos } = some (lexNewline { l with tokStart := l.pos }) := by
    rw [scanOne]
    simp only [hcurr]
    rfl
  have hguard : ¬ l.eofEmitted = true := by simp [hopen]
  have hnext : lexNext intern l = some (pastFeed l) := by
    rw [lexNext, if_neg hguard, if_neg (Nat.not_le.mpr hpos), hscan, lexNewline, hcurr, if_neg (by decide),
      LexCursor.advance, if_pos hpos, pastFeed]
  rw [lexTurn, hnext]
  rfl

theorem run_lineFeeds (n : Nat) (acc : List Lexed) (hfeeds : ∀ i < l.source.length, l.source.getD i 0 = lineFeed)
    (hopen : l.eofEmitted = false) (hlen : l.pos + n = l.source.length) :
    ∃ pre p l', Loop.run (lexTurn intern) (n + 2) (acc, l) = some (some (acc ++ (pre ++ [p]), l')) ∧ pre.length = n ∧
      ∀ p ∈ pre, tokenIsTrivia p.tok.kind = true := by
  induction n generalizing l acc with
  | zero =>
      have hguard : ¬ l.eofEmitted = true := by simp [hopen]
      have hexit : ∃ p l', lexTurn intern (acc, l) = .inr (some (acc ++ [p], l')) := by
        have hpast : l.source.length ≤ l.pos := Nat.le_of_eq hlen.symm
        rw [lexTurn, lexNext, if_neg hguard, if_pos hpast]
        exact ⟨_, _, rfl⟩
      obtain ⟨p, l', hexit⟩ := hexit
      exact ⟨[], p, l', Loop.run_exit hexit 1, rfl, fun p hp => absurd hp List.not_mem_nil⟩
  | succ n ih =>
      have hpos : l.pos < l.source.length := by omega
      have hlen' : (pastFeed l).pos + n = (pastFeed l).source.length := by
        rw [show (pastFeed l).pos = l.pos + 1 from rfl, Nat.add_assoc, Nat.add_comm 1 n]
        exact hlen
      have hrest : ∀ i < (pastFeed l).source.length, (pastFeed l).source.getD i 0 = lineFeed := hfeeds
      have hopen' : (pastFeed l).eofEmitted = false := hopen
      obtain ⟨pre, p, l', hrun, hcount, htrivia⟩ := ih (acc ++ [pulled l (pastFeed l)]) hrest hopen' hlen'
      refine ⟨pulled l (pastFeed l) :: pre, p, l', ?_, by rw [List.length_cons, hcount],
        List.forall_mem_cons.mpr ⟨rfl, htrivia⟩⟩
      rw [show n + 1 + 2 = n + 2 + 1 from rfl, Loop.run, lexTurn_lineFeed hpos (hfeeds _ hpos) hopen]
      simpa using hrun

end LineFeeds

section Example

def blankLines : Bytes := List.replicate 257 10

theorem nested_ok : (lexPulls (fun pool _ => (pool, 0)) nested ()).map
    (fun r => (layoutStream (bomLength nested) r.1).map Except.isOk) = some (some true) := by
  decide +kernel

theorem capacities_iff_nested : ∃ pulls l out, lexPulls (fun pool _ => (pool, 0)) nested () = some (pulls, l) ∧
    ShortTrivia (pulls.map (·.tok)) ∧ NestedWithin maxFrames [] out ∧
      layoutStream (bomLength nested) pulls = some (.ok out) ∧ out.map (·.kind) = nestedKinds := by
  obtain ⟨pulls, l, out, hlex, hrun, hok, herror⟩ := capacities_iff (fun pool _ => (pool, 0)) nested () (by decide)
  have hkinds := nested_out
  have hends := nested_ok
  rw [hlex, Option.map_some, hrun, Option.map_some, Option.some.injEq, Option.some.injEq] at hkinds
  rw [hlex, Option.map_some, Option.some.injEq] at hends
  have hfits : ShortTrivia (pulls.map (·.tok)) ∧ NestedWithin maxFrames [] out := by
    by_contra hnot
    obtain ⟨e, he⟩ := herror hnot
    rw [he] at hends
    cases hends
  exact ⟨pulls, l, out, hlex, hfits.1, hfits.2, hok hfits, hkinds⟩

theorem blankLines_overflow : (lexPulls (fun pool _ => (pool, 0)) blankLines ()).map
    (fun r => layoutStream (bomLength blankLines) r.1) = some (some (.error .trivia)) := by
  have hfeeds (i : Nat) (hi : i < blankLines.length) : blankLines.getD i 0 = lineFeed := by
    rw [List.getD_eq_getElem?_getD, List.getElem?_eq_getElem hi]
    exact List.getElem_replicate _
  have hstart : (lexBegin blankLines ()).pos + 257 = (lexBegin blankLines ()).source.length := by
    rw [show (lexBegin blankLines ()).source = blankLines from rfl, blankLines, List.length_replicate]
    rfl
  obtain ⟨pre, p, l', hrun, hcount, htrivia⟩ := run_lineFeeds 257 [] hfeeds rfl hstart
  have hfuel : blankLines.length + 2 = 257 + 2 := by rw [blankLines, List.length_replicate]
  have hfull : triviaScratch < (initial (bomLength blankLines) (pre ++ [p])).triviaBuf.length + pre.length := by
    rw [hcount]
    show triviaScratch < 0 + 257
    decide
  rw [lexPulls, hfuel, hrun]
  exact congrArg some (layoutLoop_trivia htrivia [p] _ (Nat.zero_le _) hfull)

end Example

end Ore.LayoutCapacity
