import Ore.ParserTotal

namespace Ore.ParserLossless

open SyntaxKinds GreenTree GreenBuilder ParserCursor ParserGrammar ParserTotal LayoutStream Lexer LexerTiling
open WorkspaceModel (Bytes)

/-- Tokens whose byte ranges go from one offset to another without a gap. -/
def Abuts : Nat → List Token → Nat → Prop
  | a, [], b => a = b
  | a, tok :: toks, b => tok.start = a ∧ tok.start ≤ tok.byteEnd ∧ Abuts tok.byteEnd toks b

/-- The layout pass before the token at an offset: what it has read is there, without a
gap and among virtual tokens only, and the end token is not. -/
structure Laying (lo : Nat) (s : State) (hi : Nat) : Prop where
  out : Abuts lo s.outTokens s.prevByteEnd
  pending : Abuts s.prevByteEnd s.triviaBuf hi
  kinds : ∀ tok ∈ s.outTokens ++ s.triviaBuf, tok.kind ≠ .eof

variable {lo hi a b : Nat} {s s' : State} {held : Token} {toks rest : List Token} {source : Bytes}

section Chains

theorem abuts_append : Abuts a (toks ++ rest) b ↔ ∃ m, Abuts a toks m ∧ Abuts m rest b := by
  induction toks generalizing a with
  | nil => exact ⟨fun h => ⟨a, rfl, h⟩, fun ⟨_, rfl, h⟩ => h⟩
  | cons tok toks ih =>
      constructor
      · rintro ⟨hstart, hle, hrest⟩
        obtain ⟨m, htoks, hm⟩ := ih.mp hrest
        exact ⟨m, ⟨hstart, hle, htoks⟩, hm⟩
      · rintro ⟨m, ⟨hstart, hle, htoks⟩, hm⟩
        exact ⟨hstart, hle, ih.mpr ⟨m, htoks, hm⟩⟩

theorem abuts_single {tok : Token} (h : tok.start ≤ tok.byteEnd) : Abuts tok.start [tok] tok.byteEnd := ⟨rfl, h, rfl⟩

theorem Laying.same (h : Laying lo s hi) (hout : s'.outTokens = s.outTokens) (hprev : s'.prevByteEnd = s.prevByteEnd)
    (hpending : s'.triviaBuf = s.triviaBuf) : Laying lo s' hi :=
  ⟨by rw [hout, hprev]; exact h.out, by rw [hprev, hpending]; exact h.pending,
    by rw [hout, hpending]; exact h.kinds⟩

theorem Laying.synthetic (h : Laying lo s hi) {kind : SyntaxKind} (hkind : kind ≠ .eof) :
    Laying lo (emitSynthetic s kind) hi := by
  refine ⟨abuts_append.mpr ⟨_, h.out, rfl, Nat.le_refl _, rfl⟩, h.pending, fun tok hmem => ?_⟩
  simp only [emitSynthetic, List.mem_append, List.mem_singleton] at hmem
  rcases hmem with (hout | rfl) | hpending
  · exact h.kinds tok (List.mem_append_left _ hout)
  · exact hkind
  · exact h.kinds tok (List.mem_append_right _ hpending)

theorem Laying.semicolon (h : Laying lo s hi) : Laying lo (emitSemicolon s) hi := by
  unfold emitSemicolon
  split_ifs
  · exact h.synthetic (by decide)
  · exact h

theorem Laying.trivia (h : Laying lo s held.start) (hle : held.start ≤ held.byteEnd) (hkind : held.kind ≠ .eof) :
    Laying lo { s with triviaBuf := s.triviaBuf ++ [held] } held.byteEnd := by
  refine ⟨h.out, abuts_append.mpr ⟨_, h.pending, abuts_single hle⟩, fun tok hmem => ?_⟩
  rw [← List.append_assoc] at hmem
  rcases List.mem_append.mp hmem with hmem | hmem
  · exact h.kinds tok hmem
  · rw [List.mem_singleton.mp hmem]
    exact hkind

theorem Laying.real (h : Laying lo s held.start) (hle : held.start ≤ held.byteEnd) (hkind : held.kind ≠ .eof)
    (hout : s'.outTokens = (emitReal s held).outTokens) (hpending : s'.triviaBuf = []) :
    Laying lo (advance s' held) held.byteEnd := by
  refine ⟨?_, ?_, fun tok hmem => ?_⟩
  · change Abuts lo s'.outTokens held.byteEnd
    rw [hout]
    exact abuts_append.mpr ⟨_, abuts_append.mpr ⟨_, h.out, h.pending⟩, abuts_single hle⟩
  · change Abuts held.byteEnd s'.triviaBuf held.byteEnd
    rw [hpending]
    rfl
  · change tok ∈ s'.outTokens ++ s'.triviaBuf at hmem
    rw [hout, hpending, List.append_nil] at hmem
    rcases List.mem_append.mp hmem with hmem | hmem
    · exact h.kinds tok hmem
    · rw [List.mem_singleton.mp hmem]
      exact hkind

end Chains

section Layout

theorem popFrame_same (s : State) : (popFrame s).outTokens = s.outTokens ∧ (popFrame s).prevByteEnd = s.prevByteEnd ∧
    (popFrame s).triviaBuf = s.triviaBuf := by
  unfold popFrame
  split <;> exact ⟨rfl, rfl, rfl⟩

theorem Laying.pop (h : Laying lo s hi) : Laying lo (popFrame s) hi :=
  h.same (popFrame_same s).1 (popFrame_same s).2.1 (popFrame_same s).2.2

theorem pushFrame_same {frame : LayoutFrame} (h : pushFrame s frame = .ok s') : s'.outTokens = s.outTokens ∧
    s'.prevByteEnd = s.prevByteEnd ∧ s'.triviaBuf = s.triviaBuf := by
  unfold pushFrame at h
  split_ifs at h
  cases h
  exact ⟨rfl, rfl, rfl⟩

theorem Laying.closeLayouts (h : Laying lo s hi) (frames : List LayoutFrame) :
    Laying lo (closeLayouts frames s) hi := by
  induction frames generalizing s with
  | nil => exact h
  | cons frame frames ih =>
      rw [LayoutStream.closeLayouts]
      split_ifs
      · exact ih ((h.synthetic (by decide)).same rfl rfl rfl)
      · exact h

theorem Laying.closeAll (h : Laying lo s hi) (frames : List LayoutFrame) : Laying lo (closeAll frames s) hi := by
  induction frames generalizing s with
  | nil => exact h
  | cons frame frames ih =>
      exact ih (((h.synthetic (by decide)).synthetic (by decide)).same rfl rfl rfl)

theorem Laying.resolveIndent (h : Laying lo s hi) : Laying lo (resolveIndent held s) hi := by
  unfold LayoutStream.resolveIndent
  split_ifs
  · exact h.same rfl rfl rfl
  · exact h

/-- What a turn on a held token leaves: the token again, or the pass behind it. -/
def Examined (lo : Nat) (held : Token) : State ⊕ Except Overflow State → Prop
  | .inl s => Laying lo s held.start
  | .inr (.ok s) => Laying lo s held.byteEnd
  | .inr (.error _) => True

theorem examine_laying (h : Laying lo s held.start) (hle : held.start ≤ held.byteEnd) (hkind : held.kind ≠ .eof) :
    Examined lo held (examine held s) := by
  rw [examine]
  generalize colAdvance held.start s.lineStarts s.lineCur = col
  obtain ⟨indent, lineCur⟩ := col
  have hmoved : Laying lo { s with lineCur := lineCur } held.start := h.same rfl rfl rfl
  simp only
  split_ifs
  · cases hpush : pushFrame (emitSynthetic { s with lineCur := lineCur } .virtualLbrace) ⟨indent, .layout⟩ with
    | error e => trivial
    | ok s' =>
        obtain ⟨hout, hprev, hpending⟩ := pushFrame_same hpush
        exact (hmoved.synthetic (by decide)).same hout hprev hpending
  · exact ((hmoved.semicolon.synthetic (by decide)).pop).same rfl rfl rfl
  · cases hpush : pushFrame (emitReal { s with lineCur := lineCur } held) ⟨indentUnresolved, .explicit⟩ with
    | error e => trivial
    | ok s' =>
        obtain ⟨hout, -, hpending⟩ := pushFrame_same hpush
        exact hmoved.real hle hkind hout hpending
  · have hclosed := (hmoved.closeLayouts s.frames).semicolon
    exact hclosed.real hle hkind (popFrame_same _).1 (popFrame_same _).2.2
  · exact hmoved.semicolon.real hle hkind rfl rfl
  · exact hmoved.real hle hkind rfl rfl

theorem examineLoop_laying (h : Laying lo s held.start) (hle : held.start ≤ held.byteEnd) (hkind : held.kind ≠ .eof)
    (hrun : examineLoop held s = some (.ok s')) : Laying lo s' held.byteEnd := by
  refine Loop.run_ended (f := examine held) (fun s => Laying lo s held.start)
    (fun r => ∀ s', r = .ok s' → Laying lo s' held.byteEnd)
    (fun s s' hs hnext => ?_) (fun s r hs hexit s' hr => ?_) h hrun
    s' rfl
  · have hexamined := examine_laying hs hle hkind
    rwa [hnext] at hexamined
  · have hexamined := examine_laying hs hle hkind
    rwa [hexit, hr] at hexamined

theorem layoutLoop_abuts {pulls : List Lexed} {out : List Token} (hpulls : Pulls source a pulls) (h : Laying lo s a)
    (hrun : layoutLoop pulls s = some (.ok out)) : ∃ body, out = body ++ [LexerTiling.endToken source] ∧
      Abuts lo body source.length ∧ ∀ tok ∈ body, tok.kind ≠ .eof := by
  induction hpulls generalizing s with
  | eof =>
      have hmore : Laying lo { s with lineStarts := s.lineStarts ++ [] } source.length := h.same rfl rfl rfl
      have hresolved : Laying lo
          (resolveIndent (LexerTiling.endToken source) { s with lineStarts := s.lineStarts ++ [] })
          source.length := hmore.resolveIndent
      have hout : out = finishEof (LexerTiling.endToken source)
          (resolveIndent (LexerTiling.endToken source) { s with lineStarts := s.lineStarts ++ [] }) := by
        simpa [layoutLoop, LexerTiling.endToken, tokenIsTrivia, eq_comm] using hrun
      have hclosed := hresolved.semicolon.closeAll (emitSemicolon
        (resolveIndent (LexerTiling.endToken source) { s with lineStarts := s.lineStarts ++ [] })).frames
      exact ⟨_, hout, abuts_append.mpr ⟨_, hclosed.out, hclosed.pending⟩, hclosed.kinds⟩
  | @cons tok rest hlt hbound hreal hrest ih =>
      have hkind : tok.kind ≠ .eof := isReal_ne_eof hreal
      have hle := Nat.le_of_lt hlt
      have hmore : Laying lo { s with lineStarts := s.lineStarts ++ recorded source tok } tok.start :=
        h.same rfl rfl rfl
      rw [layoutLoop] at hrun
      simp only at hrun
      split_ifs at hrun with htrivia hroom herror
      · refine ih ?_ hrun
        exact (hmore.trivia hle hkind).same rfl rfl rfl
      · cases hrun
      · refine ih ?_ hrun
        exact hmore.resolveIndent.real hle hkind rfl rfl
      · cases hloop : examineLoop tok
            (resolveIndent tok { s with lineStarts := s.lineStarts ++ recorded source tok }) with
        | none =>
            rw [hloop] at hrun
            cases hrun
        | some r =>
            rw [hloop] at hrun
            cases r with
            | error e => cases hrun
            | ok s' => exact ih (examineLoop_laying hmore.resolveIndent hle hkind hloop) hrun

theorem initial_laying {pulls : List Lexed} (h : Pulls source a pulls) : Laying a (initial a pulls) a := by
  have hprev : (initial a pulls).prevByteEnd = a := by
    cases h <;> rfl
  exact ⟨hprev.symm, hprev, by simp [initial]⟩

theorem layoutStream_abuts {pulls : List Lexed} {out : List Token} (hpulls : Pulls source (bomLength source) pulls)
    (hrun : layoutStream (bomLength source) pulls = some (.ok out)) :
    ∃ body, out = body ++ [LexerTiling.endToken source] ∧ Abuts (bomLength source) body source.length ∧
      ∀ tok ∈ body, tok.kind ≠ .eof :=
  layoutLoop_abuts hpulls (initial_laying hpulls) hrun

end Layout

variable {π : Type}

/-- The parser comes to the end of every token stream of the layout pass, with the
builder balanced, and the leaves of its tree are the tokens before the end token. -/
theorem parser_lossless (intern : Intern π) (source : Bytes) (pool : π) (kws : ParserKws) :
    ∃ pulls l, lexPulls intern source pool = some (pulls, l) ∧
      ∀ out, layoutStream (bomLength source) pulls = some (.ok out) → ∃ cs errors script,
        parseFileGreen out source kws = some (.node .sourceFile cs, errors) ∧
        treeOf script = some (.node .sourceFile cs) ∧
        RedTree.leavesAll cs = out.dropLast.map (leafOf source) ∧
        (∃ last, out = out.dropLast ++ [last] ∧ last.kind = .eof) ∧ ∀ tok ∈ out.dropLast, tok.kind ≠ .eof := by
  obtain ⟨pulls, l, hlex, hpulls, -⟩ := lexPulls_spec intern source pool
  refine ⟨pulls, l, hlex, fun out hrun => ?_⟩
  obtain ⟨body, rfl, -, hbody⟩ := layoutStream_abuts hpulls hrun
  obtain ⟨cs, errors, script, hparse, htree, hleaves, -⟩ :=
    parseFileGreen_spec source kws rfl (show (LexerTiling.endToken source).kind = .eof from rfl) hbody
  refine ⟨cs, errors, script, hparse, htree, ?_, ?_, ?_⟩
  · rw [hleaves, List.dropLast_concat]
  · exact ⟨LexerTiling.endToken source, by rw [List.dropLast_concat], rfl⟩
  · rwa [List.dropLast_concat]

end Ore.ParserLossless
