import Ore.LexerScans
import Ore.LayoutBalance

namespace Ore.LexerTiling

open SyntaxKinds LayoutStream Lexer LexerScans
open LayoutBalance (RawStream)
open WorkspaceModel (Bytes)

/-- Tokens that cover the bytes from the first offset to the second, each with
at least one byte, in order and without a gap. -/
def Tiles : Nat → List Token → Nat → Prop
  | a, [], b => a = b
  | a, tok :: toks, b => tok.start = a ∧ tok.start < tok.byteEnd ∧ Tiles tok.byteEnd toks b

/-- The line breaks recorded while a token is scanned: none in a quoted
literal. -/
def recorded (source : Bytes) (tok : Token) : List Nat :=
  if isQuote (source.getD tok.start 0) then [] else breaksIn source tok.start tok.byteEnd

def endToken (source : Bytes) : Token := ⟨.eof, 0, source.length, source.length⟩

/-- The pulls from an offset on. -/
inductive Pulls (source : Bytes) : Nat → List Lexed → Prop
  | eof : Pulls source source.length [⟨endToken source, []⟩]
  | cons {tok : Token} {rest : List Lexed} (hlt : tok.start < tok.byteEnd) (hbound : tok.byteEnd ≤ source.length)
      (hreal : isReal tok.kind = true) (hrest : Pulls source tok.byteEnd rest) :
      Pulls source tok.start (⟨tok, recorded source tok⟩ :: rest)

variable {π : Type} {intern : Intern π} {l l' : LexCursor π} {source : Bytes} {pool : π}

theorem bomLength_le (source : Bytes) : bomLength source ≤ source.length := by
  unfold bomLength
  split
  · rename_i h
    exact (List.isPrefixOf_iff_prefix.mp h).length_le
  · exact Nat.zero_le _

/-- What every scanner does, whatever line breaks it records. -/
structure Turned (source : Bytes) (l l' : LexCursor π) : Prop where
  same : l'.source = source
  eofEmitted : l'.eofEmitted = false
  start : l'.pending.start = l.pos
  stop : l'.pending.byteEnd = l'.pos
  real : isReal l'.pending.kind = true
  lt : l.pos < l'.pos
  bound : l'.pos ≤ source.length
  lines : l'.lineStarts = l.lineStarts ++ recorded source l'.pending

theorem lexNext_turned (intern : Intern π) (hs : l.source = source) (heof : l.eofEmitted = false)
    (h : l.pos < source.length) :
    ∃ l', lexNext intern l = some l' ∧ Turned source l l' := by
  subst hs
  have hnext : lexNext intern l = scanOne intern { l with tokStart := l.pos } := by
    rw [lexNext, if_neg (by simp [heof]), if_neg (by omega)]
  rw [hnext]
  cases hq : isQuote (LexCursor.curr { l with tokStart := l.pos }) with
  | true =>
      obtain ⟨l', hscan, hquoting, hemits⟩ := scanOne_quoted intern hq
      refine ⟨l', hscan, hquoting.1.source, hquoting.1.eofEmitted.trans heof, hemits.start, hemits.stop, hemits.real,
        hquoting.2, hquoting.1.bound, ?_⟩
      have hstart : l.source.getD l'.pending.start 0 = LexCursor.curr { l with tokStart := l.pos } := by
        rw [hemits.start]
        rfl
      rw [recorded, hstart, hq, if_pos rfl, List.append_nil]
      exact hquoting.1.lines
  | false =>
      obtain ⟨l', hscan, hahead, hemits⟩ := scanOne_spec intern (l := { l with tokStart := l.pos }) h hq
      refine ⟨l', hscan, hahead.source, hahead.eofEmitted.trans heof, hemits.start, hemits.stop, hemits.real, hahead.lt,
        hahead.bound, ?_⟩
      have hstart : l.source.getD l'.pending.start 0 = LexCursor.curr { l with tokStart := l.pos } := by
        rw [hemits.start]
        rfl
      rw [recorded, hstart, hq, if_neg (by decide), hemits.start, hemits.stop]
      exact hahead.lines

/-- The pulls so far can be continued by those from the cursor on. -/
structure Pulling (source : Bytes) (s : List Lexed × LexCursor π) : Prop where
  same : s.2.source = source
  eofEmitted : s.2.eofEmitted = false
  bound : s.2.pos ≤ source.length
  pulls : ∀ rest, Pulls source s.2.pos rest → Pulls source (bomLength source) (s.1 ++ rest)
  lines : s.2.lineStarts = bomLength source :: s.1.flatMap (·.lines)

def Pulled (source : Bytes) (r : List Lexed × LexCursor π) : Prop :=
  Pulls source (bomLength source) r.1 ∧ r.2.lineStarts = bomLength source :: r.1.flatMap (·.lines)

theorem begin_pulling (source : Bytes) (pool : π) : Pulling source ([], lexBegin source pool) where
  same := rfl
  eofEmitted := rfl
  bound := bomLength_le source
  pulls _ h := h
  lines := rfl

theorem isReal_ne_eof {k : SyntaxKind} (h : isReal k = true) : k ≠ .eof := by
  rintro rfl
  simp [isReal] at h

theorem pulled_turned (h : Turned source l l') : pulled l l' = ⟨l'.pending, recorded source l'.pending⟩ := by
  rw [pulled, h.lines, List.drop_left]

theorem Pulling.turned {acc : List Lexed} (h : Pulling source (acc, l)) (ht : Turned source l l') :
    Pulling source (acc ++ [pulled l l'], l') where
  same := ht.same
  eofEmitted := ht.eofEmitted
  bound := ht.bound
  pulls rest hrest := by
    have hcons : Pulls source l'.pending.start (⟨l'.pending, recorded source l'.pending⟩ :: rest) :=
      .cons (by rw [ht.start, ht.stop]; exact ht.lt) (by rw [ht.stop]; exact ht.bound) ht.real
        (by rw [ht.stop]; exact hrest)
    rw [ht.start] at hcons
    rw [pulled_turned ht, List.append_assoc]
    exact h.pulls _ hcons
  lines := by
    have hlines : l.lineStarts = bomLength source :: acc.flatMap (·.lines) := h.lines
    rw [ht.lines, hlines, pulled_turned ht, List.flatMap_append]
    simp

theorem Pulling.ended {acc : List Lexed} (intern : Intern π) (h : Pulling source (acc, l))
    (hend : ¬l.pos < source.length) :
    ∃ l', lexNext intern l = some l' ∧ l'.pending = endToken source ∧ Pulled source (acc ++ [pulled l l'], l') := by
  have hsource : l.source = source := h.same
  have hpos : l.pos = source.length := Nat.le_antisymm h.bound (Nat.le_of_not_lt hend)
  have heof : ¬l.eofEmitted = true := by simp [show l.eofEmitted = false from h.eofEmitted]
  have hle : l.source.length ≤ l.pos := by
    rw [hsource]
    exact Nat.le_of_eq hpos.symm
  refine ⟨_, by rw [lexNext, if_neg heof, if_pos hle], ?_, ?_⟩
  · simp [LexCursor.emitPlain, LexCursor.emit, endToken, hpos]
  · have hlast : Pulls source l.pos [⟨endToken source, []⟩] := hpos ▸ .eof
    have hpulled : pulled l { { l with tokStart := l.pos }.emitPlain .eof with eofEmitted := true } =
      ⟨endToken source, []⟩ := by
      simp [pulled, LexCursor.emitPlain, LexCursor.emit, endToken, hpos]
    refine ⟨?_, ?_⟩
    · rw [hpulled]
      exact h.pulls _ hlast
    · rw [hpulled, List.flatMap_append]
      simpa [LexCursor.emitPlain, LexCursor.emit] using h.lines

theorem lexTurn_next {s s' : List Lexed × LexCursor π} (h : Pulling source s) (hturn : lexTurn intern s = .inl s') :
    Pulling source s' ∧ s.2.pos < s'.2.pos := by
  obtain ⟨acc, l⟩ := s
  by_cases hlt : l.pos < source.length
  · obtain ⟨l', hnext, ht⟩ := lexNext_turned intern h.same h.eofEmitted hlt
    simp only [lexTurn, hnext, isReal_ne_eof ht.real, if_false, Sum.inl.injEq] at hturn
    subst hturn
    exact ⟨h.turned ht, ht.lt⟩
  · obtain ⟨l', hnext, hpending, -⟩ := h.ended intern hlt
    simp [lexTurn, hnext, hpending, endToken] at hturn

theorem lexTurn_exit {s : List Lexed × LexCursor π} {r : Option (List Lexed × LexCursor π)} (h : Pulling source s)
    (hturn : lexTurn intern s = .inr r) : ∃ out, r = some out ∧ Pulled source out := by
  obtain ⟨acc, l⟩ := s
  by_cases hlt : l.pos < source.length
  · obtain ⟨l', hnext, ht⟩ := lexNext_turned intern h.same h.eofEmitted hlt
    simp [lexTurn, hnext, isReal_ne_eof ht.real] at hturn
  · obtain ⟨l', hnext, hpending, hpulled⟩ := h.ended intern hlt
    simp only [lexTurn, hnext, hpending, endToken, if_true, Sum.inr.injEq] at hturn
    exact ⟨_, hturn.symm, hpulled⟩

theorem lexPulls_spec (intern : Intern π) (source : Bytes) (pool : π) :
    ∃ pulls l, lexPulls intern source pool = some (pulls, l) ∧ Pulled source (pulls, l) := by
  obtain ⟨r, hrun, out, rfl, hpulled⟩ := Loop.run_spec (lexTurn intern) (Pulling source)
    (fun r => ∃ out, r = some out ∧ Pulled source out) (fun s => source.length - s.2.pos)
    (fun s s' h hturn => by
      obtain ⟨h', hlt⟩ := lexTurn_next h hturn
      have := h'.bound
      exact ⟨h', by omega⟩)
    (fun s r h hturn => lexTurn_exit h hturn) (source.length + 2) ([], lexBegin source pool) (begin_pulling source pool)
    (by dsimp only; omega)
  exact ⟨out.1, out.2, by rw [lexPulls, hrun]; rfl, hpulled⟩

theorem Pulls.tiles {a : Nat} {pulls : List Lexed} (h : Pulls source a pulls) :
    ∃ body, pulls.map (·.tok) = body ++ [endToken source] ∧ Tiles a body source.length ∧
      ∀ tok ∈ body, isReal tok.kind = true := by
  induction h with
  | eof => exact ⟨[], rfl, rfl, by simp⟩
  | @cons tok rest hlt hbound hreal _ ih =>
      obtain ⟨body, hmap, htiles, hall⟩ := ih
      exact ⟨tok :: body, by rw [List.map_cons, hmap, List.cons_append], ⟨rfl, hlt, htiles⟩,
        List.forall_mem_cons.mpr ⟨hreal, hall⟩⟩

/-- The tokens of every source tile its bytes behind the byte order mark; one
empty end token follows them. -/
theorem lex_tiles (intern : Intern π) (source : Bytes) (pool : π) :
    ∃ body lines, lex intern source pool = some (body ++ [endToken source], lines) ∧
      Tiles (bomLength source) body source.length ∧ ∀ tok ∈ body, tok.kind ≠ .eof := by
  obtain ⟨pulls, l, hlex, hpulls, -⟩ := lexPulls_spec intern source pool
  obtain ⟨body, hmap, htiles, hreal⟩ := hpulls.tiles
  refine ⟨body, l.lineStarts, ?_, htiles, fun tok hmem => isReal_ne_eof (hreal tok hmem)⟩
  rw [lex, hlex, Option.map_some]
  exact congrArg (fun toks => some (toks, l.lineStarts)) hmap

theorem Tiles.le {a b : Nat} {toks : List Token} (h : Tiles a toks b) : a ≤ b := by
  induction toks generalizing a with
  | nil => exact Nat.le_of_eq h
  | cons tok toks ih =>
      obtain ⟨rfl, hlt, hrest⟩ := h
      exact Nat.le_trans (Nat.le_of_lt hlt) (ih hrest)

def text (source : Bytes) (tok : Token) : Bytes := (source.drop tok.start).take (tok.byteEnd - tok.start)

/-- A tiling reads the covered bytes, each once and in order. -/
theorem Tiles.text {a b : Nat} {toks : List Token} (h : Tiles a toks b) :
    toks.flatMap (text source) = (source.drop a).take (b - a) := by
  induction toks generalizing a with
  | nil =>
      obtain rfl : a = b := h
      simp
  | cons tok toks ih =>
      obtain ⟨rfl, hlt, hrest⟩ := h
      have hle := hrest.le
      rw [List.flatMap_cons, ih hrest, LexerTiling.text]
      have hsplit : b - tok.start = (tok.byteEnd - tok.start) + (b - tok.byteEnd) := by omega
      rw [hsplit, List.take_add, List.drop_drop]
      congr 3
      omega

theorem Pulls.raw (hlimit : source.length < 2 ^ 32) {a : Nat} {pulls : List Lexed} (h : Pulls source a pulls) :
    RawStream a pulls := by
  induction h with
  | eof => exact .eof (Nat.le_refl _) (Nat.le_refl _) rfl
  | @cons tok rest hlt hbound hreal _ ih =>
      have hvirtual : kindIsVirtualLayout tok.kind = false := by
        simp only [isReal, Bool.and_eq_true, Bool.not_eq_true'] at hreal
        exact hreal.2
      exact .cons (Nat.le_refl _) (Nat.le_of_lt hlt) (by omega) (isReal_ne_eof hreal) hvirtual ih

theorem Pulls.length_le {a : Nat} {pulls : List Lexed} (h : Pulls source a pulls) :
    pulls.length + a ≤ source.length + 1 := by
  induction h with
  | eof => exact Nat.le_of_eq (Nat.add_comm ..)
  | cons hlt _ _ _ ih =>
      rw [List.length_cons]
      omega

end Ore.LexerTiling
