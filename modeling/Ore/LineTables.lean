import Ore.LexerTiling

namespace Ore.LineTables

open SyntaxKinds LayoutStream Lexer LexerScans LexerTiling
open WorkspaceModel (Bytes)

variable {α : Type}

/-- One turn of a pass over the line breaks of a text: what is kept is told the
offset behind each break. -/
def breakTurn (src : Bytes) (note : α → Nat → α) (s : Nat × α) : (Nat × α) ⊕ α :=
  let (i, kept) := s
  if i < src.length then
    let c := src.getD i 0
    if c = lineFeed || c = carriageReturn then
      let i := if c = carriageReturn && i + 1 < src.length && src.getD (i + 1) 0 = lineFeed then i + 1 else i
      .inl (i + 1, note kept (i + 1))
    else .inl (i + 1, kept)
  else .inr kept

def breakPass (src : Bytes) (note : α → Nat → α) (kept : α) : Option α :=
  Loop.run (breakTurn src note) (src.length + 1) (0, kept)

/-- The first pass: how many lines to make room for. -/
def countLines (src : Bytes) : Option Nat := breakPass src (fun lines _ => lines + 1) 1

def lineIndex (src : Bytes) : Option (List Nat) := breakPass src (fun arr i => arr ++ [i]) [0]

variable {π : Type} {intern : Intern π} {source src : Bytes} {pool : π}

theorem endsLine_next (src : Bytes) (i : Nat) :
    endsLine src (i + 1) = (src.getD i 0 = lineFeed || src.getD i 0 = carriageReturn && src.getD (i + 1) 0 ≠
      lineFeed) := by
  rw [endsLine, Nat.add_sub_cancel]

theorem breakTurn_spec {note : α → Nat → α} {i i' : Nat} {kept kept' : α}
    (h : breakTurn src note (i, kept) = .inl (i', kept')) :
    i < i' ∧ i' ≤ src.length ∧ kept' = (breaksIn src i i').foldl note kept := by
  have hne : carriageReturn ≠ lineFeed := by decide
  simp only [breakTurn] at h
  split at h
  · split at h
    · rename_i hlt hbreak
      obtain ⟨rfl, rfl⟩ := Prod.mk.inj (Sum.inl.inj h)
      simp only [Bool.or_eq_true, decide_eq_true_eq] at hbreak
      split
      · rename_i hpair
        simp only [Bool.and_eq_true, decide_eq_true_eq] at hpair
        obtain ⟨⟨hcr, hlt'⟩, hlf⟩ := hpair
        have hfirst : breaksIn src i (i + 1) = [] := by
          rw [breaksIn_succ, endsLine_next, hcr, hlf]
          simp [hne]
        have hsecond : breaksIn src (i + 1) (i + 2) = [i + 2] := by
          rw [breaksIn_succ, endsLine_next, hlf]
          simp
        refine ⟨by omega, hlt', ?_⟩
        rw [← breaksIn_append (Nat.le_succ i) (Nat.le_succ (i + 1)), hfirst, hsecond]
        rfl
      · rename_i hpair
        have hone : breaksIn src i (i + 1) = [i + 1] := by
          rw [breaksIn_succ, endsLine_next, if_pos]
          rcases hbreak with hlf | hcr
          · rw [hlf]
            simp
          · have hnext : src.getD (i + 1) 0 ≠ lineFeed := by
              intro hlf
              refine hpair ?_
              by_cases hlt' : i + 1 < src.length
              · rw [hcr, hlf]
                simp [hlt']
              · have hend : src.getD (i + 1) 0 = 0 := by simp [List.getElem?_eq_none (Nat.le_of_not_lt hlt')]
                rw [hend] at hlf
                exact absurd hlf (by decide)
            rw [hcr]
            simpa using Or.inr hnext
        refine ⟨Nat.lt_succ_self _, hlt, ?_⟩
        rw [hone]
        rfl
    · rename_i hlt hplain
      obtain ⟨rfl, rfl⟩ := Prod.mk.inj (Sum.inl.inj h)
      simp only [Bool.or_eq_true, decide_eq_true_eq, not_or] at hplain
      have hnone : breaksIn src i (i + 1) = [] := by
        rw [breaksIn_succ, endsLine_next, if_neg]
        simp only [Bool.or_eq_true, Bool.and_eq_true, decide_eq_true_eq]
        exact fun hend => hend.elim hplain.1 fun hcr => hplain.2 hcr.1
      refine ⟨Nat.lt_succ_self _, hlt, ?_⟩
      rw [hnone]
      rfl
  · simp at h

theorem breakPass_eq (src : Bytes) (note : α → Nat → α) (kept : α) :
    breakPass src note kept = some ((breaksIn src 0 src.length).foldl note kept) := by
  have hrun : ∃ r, breakPass src note kept = some r ∧ r = (breaksIn src 0 src.length).foldl note kept := by
    refine Loop.run_spec (breakTurn src note) (fun s => s.1 ≤ src.length ∧ s.2 = (breaksIn src 0 s.1).foldl note kept)
      _ (fun s => src.length - s.1) ?_ ?_ _ _ ⟨Nat.zero_le _, by simp [breaksIn_self]⟩ (by simp)
    · rintro ⟨i, a⟩ ⟨i', a'⟩ ⟨hle, ha⟩ hturn
      obtain ⟨hlt, hle', ha'⟩ := breakTurn_spec hturn
      dsimp only at ha hle ⊢
      refine ⟨⟨hle', ?_⟩, by omega⟩
      rw [ha', ha, ← List.foldl_append, breaksIn_append (Nat.zero_le _) (Nat.le_of_lt hlt)]
    · rintro ⟨i, a⟩ r ⟨hle, ha⟩ hturn
      dsimp only at ha hle
      simp only [breakTurn] at hturn
      split at hturn
      · split at hturn <;> simp at hturn
      · obtain rfl := Sum.inr.inj hturn
        rw [ha, show i = src.length by omega]
  obtain ⟨r, hr, rfl⟩ := hrun
  exact hr

theorem foldl_push (starts arr : List Nat) : starts.foldl (fun arr i => arr ++ [i]) arr = arr ++ starts := by
  induction starts generalizing arr with
  | nil => simp
  | cons i starts ih => rw [List.foldl_cons, ih, List.append_assoc, List.singleton_append]

theorem lineIndex_eq (src : Bytes) : lineIndex src = some (0 :: breaksIn src 0 src.length) := by
  rw [lineIndex, breakPass_eq, foldl_push, List.singleton_append]

theorem foldl_count (starts : List Nat) (lines : Nat) : starts.foldl (fun lines _ => lines + 1) lines = lines +
    starts.length := by
  induction starts generalizing lines with
  | nil => rfl
  | cons i starts ih => rw [List.foldl_cons, ih, List.length_cons]; omega

/-- The second pass fills exactly the room that the first one asked for. -/
theorem countLines_eq (src : Bytes) : countLines src = (lineIndex src).map List.length := by
  rw [lineIndex_eq, countLines, breakPass_eq, foldl_count, Option.map_some, List.length_cons, Nat.add_comm]

theorem mem_recorded {tok : Token} {q : Nat} (h : q ∈ recorded source tok) :
    q ∈ breaksIn source tok.start tok.byteEnd := by
  unfold recorded at h
  split at h
  · simp at h
  · exact h

/-- Behind an offset only later line breaks are recorded. -/
theorem lt_of_recorded {a q : Nat} {pulls : List Lexed} (h : Pulls source a pulls) (hq : q ∈ pulls.flatMap (·.lines)) :
    a < q := by
  induction h with
  | eof => simp at hq
  | @cons tok rest hlt _ _ _ ih =>
      rw [List.flatMap_cons, List.mem_append] at hq
      rcases hq with hq | hq
      · exact (mem_breaksIn.mp (mem_recorded hq)).1.1
      · exact Nat.lt_trans hlt (ih hq)

/-- No quoted literal among the tokens contains a line break. -/
def CleanLiterals (source : Bytes) (toks : List Token) : Prop :=
  ∀ tok ∈ toks, isQuote (source.getD tok.start 0) = true → breaksIn source tok.start tok.byteEnd = []

theorem recorded_eq_iff {a : Nat} {pulls : List Lexed} (h : Pulls source a pulls) :
    pulls.flatMap (·.lines) = breaksIn source a source.length ↔ CleanLiterals source (pulls.map (·.tok)) := by
  induction h with
  | eof => simp [CleanLiterals, endToken, breaksIn_self]
  | @cons tok rest hlt hbound hreal hrest ih =>
      rw [List.flatMap_cons, List.map_cons, ← breaksIn_append (Nat.le_of_lt hlt) hbound, CleanLiterals,
        List.forall_mem_cons,
        ← CleanLiterals, ← ih]
      dsimp only
      cases hq : isQuote (source.getD tok.start 0) with
      | false =>
          simp only [recorded, hq, Bool.false_eq_true, if_false, false_imp_iff, true_and]
          exact List.append_right_inj _
      | true =>
          simp only [recorded, hq, if_true, List.nil_append, forall_const]
          constructor
          · intro heq
            have hnil : breaksIn source tok.start tok.byteEnd = [] := by
              refine List.eq_nil_iff_forall_not_mem.mpr fun q hmem => ?_
              have hlater := lt_of_recorded hrest (heq ▸ List.mem_append_left _ hmem)
              have := (mem_breaksIn.mp hmem).1.2
              omega
            exact ⟨hnil, by rwa [hnil, List.nil_append] at heq⟩
          · rintro ⟨hnil, heq⟩
            rw [hnil, List.nil_append, heq]

/-- The line table that the layout pass reads columns from is the one that
positions are converted with, and it is increasing. -/
def TablesAgree (intern : Intern π) (source : Bytes) (pool : π) : Prop :=
  ∃ toks lineStarts, lex intern source pool = some (toks, lineStarts) ∧ lineIndex source = some lineStarts ∧
    lineStarts.Pairwise (· < ·)

/-- There is no byte order mark, and no quoted literal contains a line break
(a backslash may be followed by one). -/
def PlainLines (intern : Intern π) (source : Bytes) (pool : π) : Prop :=
  bomLength source = 0 ∧ ∀ pulls l, lexPulls intern source pool = some (pulls, l) →
    CleanLiterals source (pulls.map (·.tok))

theorem lineIndex_sorted {lineStarts : List Nat} (h : lineIndex source = some lineStarts) :
    lineStarts.Pairwise (· < ·) := by
  rw [lineIndex_eq, Option.some.injEq] at h
  rw [← h, List.pairwise_cons]
  exact ⟨fun q hq => (mem_breaksIn.mp hq).1.1, breaksIn_sorted _ _ _⟩

theorem tablesAgree_iff (intern : Intern π) (source : Bytes) (pool : π) :
    TablesAgree intern source pool ↔ PlainLines intern source pool := by
  obtain ⟨pulls, l, hlex, hpulls, hlines⟩ := lexPulls_spec intern source pool
  dsimp only at hpulls hlines
  have hlex' : lex intern source pool = some (pulls.map (·.tok), l.lineStarts) := by rw [lex, hlex, Option.map_some]
  have hplain : PlainLines intern source pool ↔ bomLength source = 0 ∧ CleanLiterals source (pulls.map (·.tok)) := by
    simp [PlainLines, hlex]
  have hagree : TablesAgree intern source pool ↔ lineIndex source = some l.lineStarts := by
    constructor
    · rintro ⟨toks, lineStarts, heq, hindex, -⟩
      rw [hlex', Option.some.injEq, Prod.mk.injEq] at heq
      rw [hindex, heq.2]
    · intro hindex
      exact ⟨_, _, hlex', hindex, lineIndex_sorted hindex⟩
  rw [hagree, hplain, lineIndex_eq, Option.some.injEq, hlines, List.cons.injEq, eq_comm (a := 0)]
  refine and_congr_right fun hbom => ?_
  rw [hbom] at hpulls
  rw [eq_comm, recorded_eq_iff hpulls]

/-- A string literal with a backslash at the end of its first line, and a byte
order mark alone. -/
theorem tablesAgree_fails : ¬TablesAgree (fun pool _ => (pool, 0)) [doubleQuote, backslash, lineFeed, doubleQuote] () ∧
    ¬TablesAgree (fun pool _ => (pool, 0)) [0xEF, 0xBB, 0xBF] () := by
  constructor
  · rintro ⟨toks, lineStarts, hlex, hindex, -⟩
    have heq : (lex (fun (pool : Unit) _ => (pool, 0)) [doubleQuote, backslash, lineFeed, doubleQuote] ()).map (·.2) =
      some [0] := by
      decide
    rw [hlex, Option.map_some, Option.some.injEq] at heq
    subst heq
    exact absurd hindex (by decide)
  · rintro ⟨toks, lineStarts, hlex, hindex, -⟩
    have heq : (lex (fun (pool : Unit) _ => (pool, 0)) [0xEF, 0xBB, 0xBF] ()).map (·.2) = some [3] := by decide
    rw [hlex, Option.map_some, Option.some.injEq] at heq
    subst heq
    exact absurd hindex (by decide)

end Ore.LineTables
