import Ore.Lexer

namespace Ore.LexerScans

open SyntaxKinds Lexer Lexer.LexCursor
open LayoutStream (Lexed)
open WorkspaceModel (Bytes)

/-- A line ends just before the offset: after a line feed, or after a carriage
return that no line feed follows. -/
def endsLine (source : Bytes) (q : Nat) : Bool :=
  source.getD (q - 1) 0 = lineFeed || source.getD (q - 1) 0 = carriageReturn && source.getD q 0 ≠ lineFeed

/-- The offsets in `(a, b]` just before which a line ends. -/
def breaksIn (source : Bytes) (a b : Nat) : List Nat := (List.range' (a + 1) (b - a)).filter (endsLine source)

variable {π : Type} {intern : Intern π} {l l' l'' : LexCursor π} {source : Bytes} {a b c : Nat}

theorem breaksIn_self (source : Bytes) (a : Nat) : breaksIn source a a = [] := by simp [breaksIn]

theorem breaksIn_append (hab : a ≤ b) (hbc : b ≤ c) : breaksIn source a b ++ breaksIn source b c = breaksIn source a
    c := by
  have hb : b + 1 = a + 1 + 1 * (b - a) := by omega
  rw [breaksIn, breaksIn, breaksIn, ← List.filter_append, hb, List.range'_append]
  congr 2
  omega

theorem breaksIn_succ (source : Bytes) (a : Nat) : breaksIn source a (a + 1) = if endsLine source
    (a + 1) then [a + 1] else [] := by
  by_cases h : endsLine source (a + 1) <;> simp [breaksIn, h]

theorem mem_breaksIn {q : Nat} : q ∈ breaksIn source a b ↔ (a < q ∧ q ≤ b) ∧ endsLine source q = true := by
  simp only [breaksIn, List.mem_filter, List.mem_range'_1]
  constructor <;> rintro ⟨hq, he⟩ <;> exact ⟨by omega, he⟩

theorem breaksIn_sorted (source : Bytes) (a b : Nat) : (breaksIn source a b).Pairwise (· < ·) :=
  (List.pairwise_lt_range').filter _

/-- The cursor went on within the source. -/
structure Moves (l l' : LexCursor π) : Prop where
  source : l'.source = l.source
  tokStart : l'.tokStart = l.tokStart
  eofEmitted : l'.eofEmitted = l.eofEmitted
  le : l.pos ≤ l'.pos
  bound : l'.pos ≤ l.source.length

structure Records (l l' : LexCursor π) : Prop extends Moves l l' where
  lines : l'.lineStarts = l.lineStarts ++ breaksIn l.source l.pos l'.pos

/-- No line break was recorded. -/
structure Silent (l l' : LexCursor π) : Prop extends Moves l l' where
  lines : l'.lineStarts = l.lineStarts

namespace Moves

theorem refl (h : l.pos ≤ l.source.length) : Moves l l := ⟨rfl, rfl, rfl, Nat.le_refl _, h⟩

theorem trans (h : Moves l l') (h' : Moves l' l'') : Moves l l'' :=
  ⟨h'.source.trans h.source, h'.tokStart.trans h.tokStart, h'.eofEmitted.trans h.eofEmitted, Nat.le_trans h.le h'.le,
    h.source ▸ h'.bound⟩

end Moves

namespace Records

theorem refl (h : l.pos ≤ l.source.length) : Records l l := ⟨.refl h, by simp [breaksIn_self]⟩

theorem trans (h : Records l l') (h' : Records l' l'') : Records l l'' := by
  refine ⟨h.toMoves.trans h'.toMoves, ?_⟩
  rw [h'.lines, h.lines, h.source, List.append_assoc, breaksIn_append h.le h'.le]

end Records

theorem lt_of_curr (h : l.curr ≠ 0) : l.pos < l.source.length := by
  by_contra hge
  exact h (by simp [curr, peekAt, List.getElem?_eq_none (Nat.le_of_not_lt hge)])

theorem advance_pos (h : l.pos < l.source.length) : l.advance.pos = l.pos + 1 := by simp [advance, h]

theorem advance_moves (h : l.pos ≤ l.source.length) : Moves l l.advance := by
  unfold advance
  split
  · exact ⟨rfl, rfl, rfl, Nat.le_succ _, by assumption⟩
  · exact .refl h

theorem advance_lines (l : LexCursor π) : l.advance.lineStarts = l.lineStarts := by
  unfold advance
  split <;> rfl

theorem advance_silent (h : l.pos ≤ l.source.length) : Silent l l.advance := ⟨advance_moves h, advance_lines l⟩

/-- The byte behind the cursor, once it went on. -/
theorem endsLine_succ (l : LexCursor π) :
    endsLine l.source (l.pos + 1) = (l.curr = lineFeed || l.curr = carriageReturn && l.peekAt 1 ≠ lineFeed) := by
  simp [endsLine, curr, peekAt]

theorem breaksIn_plain (h : isBreak l.curr = false) : breaksIn l.source l.pos (l.pos + 1) = [] := by
  rw [breaksIn_succ, endsLine_succ]
  simp only [isBreak, Bool.or_eq_false_iff, decide_eq_false_iff_not] at h
  simp [h.1, h.2]

theorem advance_records (hc : l.curr ≠ 0) (h : isBreak l.curr = false) : Records l l.advance ∧
    l.advance.pos = l.pos + 1 := by
  have hlt := lt_of_curr hc
  refine ⟨⟨advance_moves (Nat.le_of_lt hlt), ?_⟩, advance_pos hlt⟩
  rw [advance_pos hlt, advance_lines, breaksIn_plain h, List.append_nil]

/-- The steps of a scan that keeps records and gets ahead. -/
structure Ahead (l l' : LexCursor π) : Prop extends Records l l' where
  lt : l.pos < l'.pos

theorem Ahead.trans (h : Ahead l l') (h' : Records l' l'') : Ahead l l'' :=
  ⟨h.toRecords.trans h', Nat.lt_of_lt_of_le h.lt h'.le⟩

theorem Records.ahead (h : Records l l') (h' : Ahead l' l'') : Ahead l l'' :=
  ⟨h.trans h'.toRecords, Nat.lt_of_le_of_lt h.le h'.lt⟩

theorem ahead_advance (hc : l.curr ≠ 0) (h : isBreak l.curr = false) : Ahead l l.advance := by
  obtain ⟨hrec, hpos⟩ := advance_records hc h
  exact ⟨hrec, by omega⟩

theorem ahead_byte {x : UInt8} (hc : l.curr = x) (hx : x ≠ 0) (h : isBreak x = false) : Ahead l l.advance :=
  ahead_advance (by rwa [hc]) (by rwa [hc])

theorem ahead_bump (hc : l.curr ≠ 0) (h : isBreak l.curr = false) : Ahead l (l.bump 1) := by
  have hlt := lt_of_curr hc
  have heq : l.bump 1 = l.advance := by simp [bump, advance, hlt]
  exact heq ▸ ahead_advance hc h

/-- A scan whose turns get ahead ends within its budget. -/
theorem scan_spec {α ρ : Type} {body : α × LexCursor π → (α × LexCursor π) ⊕ ρ} (Inv : α × LexCursor π → Prop)
    (Post : ρ → Prop) {x : α}
    (hnext : ∀ s s', Inv s → body s = .inl s' → Inv s' ∧ s.2.pos < s'.2.pos)
    (hbound : ∀ s, Inv s → s.2.pos ≤ l.source.length) (hexit : ∀ s r, Inv s → body s = .inr r → Post r)
      (hs : Inv (x, l)) :
    ∃ r, scan body x l = some r ∧ Post r := by
  refine Loop.run_spec body Inv Post (fun s => l.source.length - s.2.pos) ?_ hexit _ _ hs ?_
  · intro s s' hinv hbody
    obtain ⟨hinv', hlt⟩ := hnext s s' hinv hbody
    have := hbound s' hinv'
    exact ⟨hinv', by omega⟩
  · have : l.pos ≤ l.source.length := hbound _ hs
    show l.source.length - l.pos < l.source.length + 1 - l.pos
    omega

theorem scanWith_spec (next : LexCursor π → LexCursor π) (p : LexCursor π → Bool)
    (hp : ∀ l, p l = true → Ahead l (next l))
    (h : l.pos ≤ l.source.length) :
    ∃ l', scanWith next p l = some l' ∧ Records l l' ∧ (l' = l ∨ l.pos < l'.pos) ∧ (p l = true → Ahead l l') := by
  refine scan_spec (fun s => Records l s.2 ∧ (s.2 = l ∨ l.pos < s.2.pos))
    (fun r => Records l r ∧ (r = l ∨ l.pos < r.pos) ∧ (p l = true → Ahead l r)) ?_ ?_ ?_ ⟨.refl h, .inl rfl⟩
  · intro s s' hinv hbody
    split at hbody
    · obtain rfl := Sum.inl.inj hbody
      have hahead := hp s.2 (by assumption)
      exact ⟨⟨hinv.1.trans hahead.toRecords, .inr (hinv.1.ahead hahead).lt⟩, hahead.lt⟩
    · simp at hbody
  · intro s hinv
    exact hinv.1.bound
  · intro s r hinv hbody
    split at hbody
    · simp at hbody
    · obtain rfl := Sum.inr.inj hbody
      refine ⟨hinv.1, hinv.2, fun hpl => ⟨hinv.1, ?_⟩⟩
      rcases hinv.2 with heq | hlt
      · exact absurd (heq ▸ hpl) (by assumption)
      · exact hlt

/-- The predicate holds of no byte that ends a scan. -/
def Plain (p : UInt8 → Bool) : Prop := p 0 = false ∧ p lineFeed = false ∧ p carriageReturn = false

instance (p : UInt8 → Bool) : Decidable (Plain p) := inferInstanceAs (Decidable (_ ∧ _ ∧ _))

theorem Plain.byte {p : UInt8 → Bool} (hp : Plain p) {x : UInt8} (hx : p x = true) : x ≠ 0 ∧ isBreak x = false := by
  obtain ⟨hzero, hlf, hcr⟩ := hp
  refine ⟨?_, ?_⟩
  · rintro rfl
    simp [hzero] at hx
  · simp only [isBreak, Bool.or_eq_false_iff, decide_eq_false_iff_not]
    constructor <;> rintro rfl <;> simp_all

theorem scanWhile_spec {p : UInt8 → Bool} (hp : Plain p) (h : l.pos ≤ l.source.length) :
    ∃ l', scanWhile (fun l => p l.curr) l = some l' ∧ Records l l' ∧ (p l.curr = true → Ahead l l') := by
  obtain ⟨l', hscan, hrec, -, hahead⟩ := scanWith_spec (·.bump 1) (fun l => p l.curr)
    (fun l hl => ahead_bump (hp.byte hl).1 (hp.byte hl).2) h
  exact ⟨l', hscan, hrec, hahead⟩

/-- A kind that the lexer gives to a token of the text. -/
def isReal (k : SyntaxKind) : Bool := k ≠ .eof && !kindIsVirtualLayout k

/-- The pending token is the text since the token start. -/
structure Emits (l l' : LexCursor π) : Prop where
  start : l'.pending.start = l.tokStart
  stop : l'.pending.byteEnd = l'.pos
  real : isReal l'.pending.kind = true

/-- One token was scanned and its line breaks recorded. -/
def Scanned (l l' : LexCursor π) : Prop := Ahead l l' ∧ Emits l l'

theorem Ahead.emit (h : Ahead l l') {kind : SyntaxKind} (hk : isReal kind = true) (sid : Nat) :
    Scanned l (l'.emit kind sid) :=
  ⟨⟨⟨⟨h.source, h.tokStart, h.eofEmitted, h.le, h.bound⟩, h.lines⟩, h.lt⟩, ⟨h.tokStart, rfl, hk⟩⟩

theorem Ahead.emitText (h : Ahead l l') {kind : SyntaxKind} (hk : isReal kind = true) (text : Bytes) :
    Scanned l (l'.emitText intern kind text) := by
  have hpool : Ahead l { l' with pool := (intern l'.pool text).1 } :=
    ⟨⟨⟨h.source, h.tokStart, h.eofEmitted, h.le, h.bound⟩, h.lines⟩, h.lt⟩
  exact hpool.emit hk _

theorem atIdCont_plain (h : atIdCont l = true) : l.curr ≠ 0 ∧ isBreak l.curr = false := by
  have hp : Plain fun c => isIdCont c || c = ch '-' := by decide
  refine hp.byte ?_
  simp only [atIdCont, Bool.or_eq_true, Bool.and_eq_true, decide_eq_true_eq] at h ⊢
  exact h.imp_right And.left

theorem keywordKind_real (s : Bytes) : isReal (keywordKind s) = true := by
  have hall : ∀ k ∈ keywords, isReal k.2 = true := by decide
  unfold keywordKind
  cases hfind : keywords.find? fun k => k.1.toList.map ch = s with
  | none => rfl
  | some k => exact hall k (List.mem_of_find?_eq_some hfind)

theorem scanIdCont_spec (h : l.pos ≤ l.source.length) :
    ∃ l', scanWhile atIdCont l = some l' ∧ Records l l' ∧ (atIdCont l = true → Ahead l l') := by
  obtain ⟨l', hscan, hrec, -, hahead⟩ := scanWith_spec (·.bump 1) atIdCont
    (fun l hl => ahead_bump (atIdCont_plain hl).1 (atIdCont_plain hl).2) h
  exact ⟨l', hscan, hrec, hahead⟩

theorem lexIdentifierOrKeyword_spec (h : l.pos ≤ l.source.length) (hc : isIdStart l.curr = true) :
    ∃ l', lexIdentifierOrKeyword intern l = some l' ∧ Scanned l l' := by
  obtain ⟨l', hscan, -, hahead⟩ := scanIdCont_spec h
  have hahead := hahead (by simp [atIdCont, isIdCont, hc])
  refine ⟨_, by rw [lexIdentifierOrKeyword, hscan, Option.map_some], ?_⟩
  dsimp only
  split
  · exact hahead.emit rfl _
  · split
    · exact hahead.emitText rfl _
    · exact hahead.emit (keywordKind_real _) _

theorem curr_advance (h : l.curr ≠ 0) : l.advance.curr = l.peekAt 1 := by
  have hlt := lt_of_curr h
  simp [curr, peekAt, advance, hlt]

theorem ahead_two {x y : UInt8} (hx : l.curr = x) (hy : l.peekAt 1 = y) (hx0 : x ≠ 0) (hxb : isBreak x = false)
    (hy0 : y ≠ 0) (hyb : isBreak y = false) : Ahead l (l.advanceBy 2) := by
  have hnext : l.advance.curr = y := by rw [curr_advance (by rwa [hx]), hy]
  exact (ahead_byte hx hx0 hxb).trans (ahead_byte hnext hy0 hyb).toRecords

theorem scanDecimalDigits_spec (h : l.pos ≤ l.source.length) :
    ∃ l', scanDecimalDigits l = some l' ∧ Records l l' ∧ (isDigit l.curr = true → Ahead l l') := by
  have hp : Plain fun c => isDigit c || c = ch '_' := by decide
  obtain ⟨l', hscan, hrec, hahead⟩ := scanWhile_spec hp h
  exact ⟨l', hscan, hrec, fun hd => hahead (by simp [hd])⟩

theorem scanFraction_spec (h : l.pos ≤ l.source.length) :
    ∃ b l', scanFraction l = some (b, l') ∧ Records l l' := by
  unfold scanFraction
  split
  · rename_i hdot
    simp only [Bool.and_eq_true, decide_eq_true_eq] at hdot
    have hahead := ahead_byte hdot.1 (by decide) (by decide)
    obtain ⟨l', hscan, hrec, -⟩ := scanDecimalDigits_spec (hahead.source ▸ hahead.bound)
    exact ⟨true, l', by rw [hscan]; rfl, hahead.toRecords.trans hrec⟩
  · exact ⟨false, l, rfl, .refl h⟩

theorem advanceIf_spec {p : UInt8 → Bool} (hp : Plain p) (h : l.pos ≤ l.source.length) :
    Records l (if p l.curr then l.advance else l) := by
  split
  · rename_i hc
    exact (ahead_advance (hp.byte hc).1 (hp.byte hc).2).toRecords
  · exact .refl h

theorem scanExponent_spec (h : l.pos ≤ l.source.length) :
    ∃ b l', scanExponent l = some (b, l') ∧ Records l l' := by
  unfold scanExponent
  by_cases hexp : ((l.curr = ch 'e' || l.curr = ch 'E') && isDigit (l.peekAt (if isSign (l.peekAt 1) then 2 else 1)))
    = true
  · rw [if_pos hexp]
    simp only [Bool.and_eq_true] at hexp
    have hletter : Plain fun c => c = ch 'e' || c = ch 'E' := by decide
    have hsign : Plain isSign := by decide
    have hahead := ahead_advance (hletter.byte hexp.1).1 (hletter.byte hexp.1).2
    have hrec := advanceIf_spec hsign (hahead.source ▸ hahead.bound)
    obtain ⟨l', hscan, hrec', -⟩ := scanDecimalDigits_spec (hrec.source ▸ hrec.bound)
    exact ⟨true, l', by dsimp only; rw [hscan]; rfl, (hahead.toRecords.trans hrec).trans hrec'⟩
  · exact ⟨false, l, if_neg hexp, .refl h⟩

theorem basePredicate_spec {c : UInt8} {digit : UInt8 → Bool} (h : basePredicate c = some digit) :
    (c ≠ 0 ∧ isBreak c = false) ∧ Plain digit := by
  unfold basePredicate at h
  split at h
  · obtain rfl := Option.some.inj h
    have hp : Plain fun c => c = ch 'x' || c = ch 'X' := by decide
    exact ⟨hp.byte (by assumption), by decide⟩
  · split at h
    · obtain rfl := Option.some.inj h
      have hp : Plain fun c => c = ch 'b' || c = ch 'B' := by decide
      exact ⟨hp.byte (by assumption), by decide⟩
    · split at h
      · obtain rfl := Option.some.inj h
        have hp : Plain fun c => c = ch 'o' || c = ch 'O' := by decide
        exact ⟨hp.byte (by assumption), by decide⟩
      · simp at h

theorem lexNumber_spec (h : l.pos ≤ l.source.length) (hc : isDigit l.curr = true) :
    ∃ l', lexNumber intern l = some l' ∧ Scanned l l' := by
  unfold lexNumber
  split
  · rename_i digit hbase
    split at hbase
    · rename_i hzero
      obtain ⟨hc1, hdigit⟩ := basePredicate_spec hbase
      have hahead : Ahead l (l.advanceBy 2) := ahead_two hzero rfl (by decide) (by decide) hc1.1 hc1.2
      have hp : Plain fun c => digit c || c = ch '_' := by
        obtain ⟨hd0, hdlf, hdcr⟩ := hdigit
        simp only [Plain, hd0, hdlf, hdcr]
        decide
      obtain ⟨l', hscan, hrec, -⟩ := scanWhile_spec hp (hahead.source ▸ hahead.bound)
      exact ⟨_, by rw [show l.advance.advance = l.advanceBy 2 from rfl, hscan]; rfl, (hahead.trans hrec).emitText rfl _⟩
    · simp at hbase
  · obtain ⟨l1, hscan1, -, hahead⟩ := scanDecimalDigits_spec h
    have hahead := hahead hc
    obtain ⟨b2, l2, hscan2, hrec2⟩ := scanFraction_spec (hahead.source ▸ hahead.bound)
    have hahead2 := hahead.trans hrec2
    obtain ⟨b3, l3, hscan3, hrec3⟩ := scanExponent_spec (hahead2.source ▸ hahead2.bound)
    refine ⟨_, by rw [hscan1, Option.bind_some, hscan2, Option.bind_some]; dsimp only; rw [hscan3, Option.map_some], ?_⟩
    refine (hahead2.trans hrec3).emitText ?_ _
    split <;> rfl

/-- The quoted cursor got ahead and recorded no line break. -/
def Quoting (l l' : LexCursor π) : Prop := Silent l l' ∧ l.pos < l'.pos

/-- Every turn over a quoted literal steps over bytes that are there. -/
theorem Quoting.advance (h : Quoting l l') (hc : l'.curr ≠ 0) : Quoting l l'.advance ∧ l'.pos < l'.advance.pos := by
  have hlt := lt_of_curr hc
  have hpos := advance_pos hlt
  have hle := h.2
  refine ⟨⟨⟨h.1.toMoves.trans (advance_moves (Nat.le_of_lt hlt)), ?_⟩, by omega⟩, by omega⟩
  rw [advance_lines, h.1.lines]

theorem hexDigit_ne_zero {x : UInt8} (h : isHexDigit x = true) : x ≠ 0 := by
  have hp : Plain isHexDigit := by decide
  exact (hp.byte h).1

theorem Quoting.hexEscape (h : Quoting l l') : Quoting l (hexEscape l') ∧ l'.pos ≤ (hexEscape l').pos := by
  unfold Lexer.hexEscape
  split
  · rename_i hfirst
    obtain ⟨h1, hlt1⟩ := h.advance (hexDigit_ne_zero hfirst)
    dsimp only
    split
    · rename_i hsecond
      obtain ⟨h2, hlt2⟩ := h1.advance (hexDigit_ne_zero hsecond)
      exact ⟨h2, by omega⟩
    · exact ⟨h1, by omega⟩
  · exact ⟨h, Nat.le_refl _⟩

theorem simpleEscape_ne_zero {x : UInt8} (h : isSimpleEscape x = true) : x ≠ 0 := by
  rintro rfl
  simp [isSimpleEscape, backslash, doubleQuote, singleQuote, ch] at h

theorem quotedTurn_next {quote : UInt8} (h : Quoting l l') (hturn : quotedTurn quote l' = .inl l'') :
    Quoting l l'' ∧ l'.pos < l''.pos := by
  unfold quotedTurn at hturn
  split at hturn
  · simp at hturn
  · split at hturn
    · simp at hturn
    · rename_i hplain
      simp only [Bool.or_eq_true, decide_eq_true_eq, not_or] at hplain
      obtain ⟨h1, hlt1⟩ := h.advance hplain.1
      split at hturn
      · dsimp only at hturn
        split at hturn
        · obtain rfl := Sum.inl.inj hturn
          obtain ⟨h2, hlt2⟩ := h1.advance (simpleEscape_ne_zero (by assumption))
          exact ⟨h2, by omega⟩
        · split at hturn
          · obtain rfl := Sum.inl.inj hturn
            rename_i hx
            obtain ⟨h2, hlt2⟩ := h1.advance (by rw [hx]; decide)
            obtain ⟨h3, hle3⟩ := h2.hexEscape
            exact ⟨h3, by omega⟩
          · split at hturn
            · simp at hturn
            · obtain rfl := Sum.inl.inj hturn
              obtain ⟨h2, hlt2⟩ := h1.advance (by assumption)
              exact ⟨h2, by omega⟩
      · obtain rfl := Sum.inl.inj hturn
        exact ⟨h1, hlt1⟩

theorem quotedTurn_exit {quote : UInt8} {b : Bool} (hq : quote ≠ 0) (h : Quoting l l')
    (hturn : quotedTurn quote l' = .inr (b, l'')) : Quoting l l'' := by
  unfold quotedTurn at hturn
  split at hturn
  · rename_i hquote
    obtain ⟨-, rfl⟩ := Prod.mk.inj (Sum.inr.inj hturn)
    exact (h.advance (by rwa [hquote])).1
  · split at hturn
    · obtain ⟨-, rfl⟩ := Prod.mk.inj (Sum.inr.inj hturn)
      exact h
    · rename_i hplain
      simp only [Bool.or_eq_true, decide_eq_true_eq, not_or] at hplain
      obtain ⟨h1, -⟩ := h.advance hplain.1
      split at hturn
      · dsimp only at hturn
        split at hturn
        · simp at hturn
        · split at hturn
          · simp at hturn
          · split at hturn
            · obtain ⟨-, rfl⟩ := Prod.mk.inj (Sum.inr.inj hturn)
              exact h1
            · simp at hturn
      · simp at hturn

theorem scanQuoted_spec {quote : UInt8} (hc : l.curr = quote) (hq : quote ≠ 0) :
    ∃ b l', scanQuoted quote l = some (b, l') ∧ Quoting l l' := by
  have hlt := lt_of_curr (l := l) (by rwa [hc])
  have hpos := advance_pos hlt
  have hstart : Quoting l l.advance := ⟨advance_silent (Nat.le_of_lt hlt), by omega⟩
  have hrun : ∃ r : Bool × LexCursor π, scanQuoted quote l = some r ∧ Quoting l r.2 := by
    refine scan_spec (fun s : Unit × LexCursor π => Quoting l s.2) (fun r : Bool × LexCursor π => Quoting l r.2) ?_ ?_
      ?_ hstart
    · intro s s' hinv hbody
      cases hturn : quotedTurn quote s.2 with
      | inl l1 =>
          rw [hturn, Sum.map_inl] at hbody
          obtain rfl := Sum.inl.inj hbody
          exact quotedTurn_next hinv hturn
      | inr r => simp [hturn] at hbody
    · intro s hinv
      exact hstart.1.source ▸ hinv.1.bound
    · intro s r hinv hbody
      cases hturn : quotedTurn quote s.2 with
      | inl l1 => simp [hturn] at hbody
      | inr r' =>
          rw [hturn, Sum.map_inr, id] at hbody
          obtain rfl := Sum.inr.inj hbody
          exact quotedTurn_exit hq hinv hturn
  obtain ⟨⟨b, l'⟩, hscan, hquoting⟩ := hrun
  exact ⟨b, l', hscan, hquoting⟩

/-- A quoted literal was scanned, without its line breaks. -/
def Quoted (l l' : LexCursor π) : Prop := Quoting l l' ∧ Emits l l'

theorem Quoting.emit (h : Quoting l l') {kind : SyntaxKind} (hk : isReal kind = true) (sid : Nat) :
    Quoted l (l'.emit kind sid) :=
  ⟨⟨⟨⟨h.1.source, h.1.tokStart, h.1.eofEmitted, h.1.le, h.1.bound⟩, h.1.lines⟩, h.2⟩, ⟨h.1.tokStart, rfl, hk⟩⟩

theorem Quoting.emitText (h : Quoting l l') {kind : SyntaxKind} (hk : isReal kind = true) (text : Bytes) :
    Quoted l (l'.emitText intern kind text) := by
  have hpool : Quoting l { l' with pool := (intern l'.pool text).1 } :=
    ⟨⟨⟨h.1.source, h.1.tokStart, h.1.eofEmitted, h.1.le, h.1.bound⟩, h.1.lines⟩, h.2⟩
  exact hpool.emit hk _

theorem lexQuoted_spec {quote : UInt8} {kind : SyntaxKind} (hc : l.curr = quote) (hq : quote ≠ 0)
    (hk : isReal kind = true) :
    ∃ l', lexQuoted intern quote kind l = some l' ∧ Quoted l l' := by
  obtain ⟨b, l1, hscan, hquoting⟩ := scanQuoted_spec hc hq
  refine ⟨_, by rw [lexQuoted, hscan, Option.map_some], ?_⟩
  dsimp only
  split
  · exact hquoting.emitText hk _
  · exact hquoting.emit rfl _

theorem lexLineComment_spec (hx : l.curr = ch '/') (hy : l.peekAt 1 = ch '/') :
    ∃ l', lexLineComment intern l = some l' ∧ Scanned l l' := by
  have hahead : Ahead l (l.advanceBy 2) := ahead_two hx hy (by decide) (by decide) (by decide) (by decide)
  obtain ⟨l1, hscan, hrec, -⟩ := scanWith_spec LexCursor.advance (fun l => l.curr ≠ 0 && !isBreak l.curr)
    (fun l hl => by
      simp only [Bool.and_eq_true, decide_eq_true_eq, Bool.not_eq_true'] at hl
      exact ahead_advance hl.1 hl.2)
    (hahead.source ▸ hahead.bound)
  refine ⟨_, by rw [lexLineComment, hscan, Option.map_some], ?_⟩
  exact (hahead.trans hrec).emitText rfl _

theorem recordLineStart_ahead (h : Quoting l l') (hb : breaksIn l.source l.pos l'.pos = [l'.pos]) :
    Ahead l l'.recordLineStart :=
  ⟨⟨⟨h.1.source, h.1.tokStart, h.1.eofEmitted, h.1.le, h.1.bound⟩, by
    rw [show l'.recordLineStart.pos = l'.pos from rfl, hb, ← h.1.lines]
    rfl⟩, h.2⟩

theorem quoting_advance (hc : l.curr ≠ 0) : Quoting l l.advance ∧ l.advance.pos = l.pos + 1 := by
  have hlt := lt_of_curr hc
  have hpos := advance_pos hlt
  exact ⟨⟨advance_silent (Nat.le_of_lt hlt), by omega⟩, hpos⟩

theorem lineFeed_ahead (hc : l.curr = lineFeed) : Ahead l l.advance.recordLineStart := by
  obtain ⟨hquoting, hpos⟩ := quoting_advance (l := l) (by rw [hc]; decide)
  refine recordLineStart_ahead hquoting ?_
  rw [hpos, breaksIn_succ, endsLine_succ]
  simp [hc]

theorem carriageReturn_ahead (hc : l.curr = carriageReturn) :
    Ahead l (if l.advance.curr = lineFeed then l.advance.advance else l.advance).recordLineStart := by
  have hne : l.curr ≠ 0 := by rw [hc]; decide
  obtain ⟨hquoting, hpos⟩ := quoting_advance hne
  have hsource := hquoting.1.source
  have hcr : breaksIn l.source l.pos (l.pos + 1) = if l.advance.curr = lineFeed then [] else [l.pos + 1] := by
    rw [breaksIn_succ, endsLine_succ, curr_advance hne, hc]
    have hne : carriageReturn ≠ lineFeed := by decide
    by_cases hlf : l.peekAt 1 = lineFeed <;> simp [hlf, hne]
  split
  · rename_i hlf
    obtain ⟨hquoting', hpos'⟩ := quoting_advance (l := l.advance) (by rw [hlf]; decide)
    refine recordLineStart_ahead (hquoting.advance (by rw [hlf]; decide)).1 ?_
    have hnext : breaksIn l.source (l.pos + 1) (l.pos + 2) = [l.pos + 2] := by
      have hend := endsLine_succ l.advance
      rw [hsource, hpos, hlf] at hend
      rw [breaksIn_succ, hend]
      simp
    rw [if_pos hlf] at hcr
    rw [hpos', hpos, ← breaksIn_append (Nat.le_succ _) (Nat.le_succ _), hcr, hnext, List.nil_append]
  · rename_i hlf
    refine recordLineStart_ahead hquoting ?_
    rw [hpos, hcr, if_neg hlf]

theorem passByte_ahead (hc : l.curr ≠ 0) : Ahead l (passByte l) := by
  unfold passByte
  split
  · exact lineFeed_ahead (by assumption)
  · split
    · exact carriageReturn_ahead (by assumption)
    · exact ahead_advance hc (by simp [isBreak, *])

theorem blockCommentTurn_next {depth depth' : Nat} (hturn : blockCommentTurn intern depth l = .inl (depth', l')) :
    Ahead l l' := by
  unfold blockCommentTurn at hturn
  split at hturn
  · simp at hturn
  · split at hturn
    · obtain ⟨-, rfl⟩ := Prod.mk.inj (Sum.inl.inj hturn)
      rename_i hopen
      simp only [Bool.and_eq_true, decide_eq_true_eq] at hopen
      exact ahead_two hopen.1 hopen.2 (by decide) (by decide) (by decide) (by decide)
    · split at hturn
      · rename_i hclose
        simp only [Bool.and_eq_true, decide_eq_true_eq] at hclose
        split at hturn
        · simp at hturn
        · obtain ⟨-, rfl⟩ := Prod.mk.inj (Sum.inl.inj hturn)
          exact ahead_two hclose.1 hclose.2 (by decide) (by decide) (by decide) (by decide)
      · obtain ⟨-, rfl⟩ := Prod.mk.inj (Sum.inl.inj hturn)
        exact passByte_ahead (by assumption)

theorem blockCommentTurn_exit {depth : Nat} {l0 : LexCursor π} (h : Ahead l0 l)
    (hturn : blockCommentTurn intern depth l = .inr l') :
    Scanned l0 l' := by
  unfold blockCommentTurn at hturn
  split at hturn
  · obtain rfl := Sum.inr.inj hturn
    exact h.emit rfl _
  · split at hturn
    · simp at hturn
    · split at hturn
      · rename_i hclose
        simp only [Bool.and_eq_true, decide_eq_true_eq] at hclose
        split at hturn
        · obtain rfl := Sum.inr.inj hturn
          have hover := ahead_two hclose.1 hclose.2 (by decide) (by decide) (by decide) (by decide)
          exact (h.trans hover.toRecords).emitText rfl _
        · simp at hturn
      · simp at hturn

theorem lexBlockComment_spec (hx : l.curr = ch '/') (hy : l.peekAt 1 = ch '*') :
    ∃ l', lexBlockComment intern l = some l' ∧ Scanned l l' := by
  have hahead : Ahead l (l.advanceBy 2) := ahead_two hx hy (by decide) (by decide) (by decide) (by decide)
  refine scan_spec (fun s : Nat × LexCursor π => Ahead l s.2) (fun r => Scanned l r) ?_ ?_ ?_ hahead
  · intro s s' hinv hbody
    have hturn := blockCommentTurn_next hbody
    exact ⟨hinv.trans hturn.toRecords, hturn.lt⟩
  · intro s hinv
    exact hahead.source ▸ hinv.bound
  · intro s r hinv hbody
    exact blockCommentTurn_exit hinv hbody

theorem atAsmQuote_ahead (h : atAsmQuote l = true) : Ahead l (l.advanceBy 3) := by
  simp only [atAsmQuote, Bool.and_eq_true, decide_eq_true_eq] at h
  obtain ⟨⟨h0, h1⟩, h2⟩ := h
  have hne : l.curr ≠ 0 := by rw [h0]; decide
  have hlt := lt_of_curr hne
  have hnext : l.advance.curr = backQuote := by rw [curr_advance hne, h1]
  have hlast : l.advance.peekAt 1 = backQuote := by
    rw [← h2]
    simp [peekAt, advance, hlt, Nat.add_assoc]
  have htwo : Ahead l.advance (l.advance.advanceBy 2) := ahead_two hnext hlast (by decide) (by decide) (by decide)
    (by decide)
  exact (ahead_byte h0 (by decide) (by decide)).trans htwo.toRecords

theorem lexAsmLit_spec (h : atAsmQuote l = true) : ∃ l', lexAsmLit intern l = some l' ∧ Scanned l l' := by
  have hahead := atAsmQuote_ahead h
  refine scan_spec (fun s : Unit × LexCursor π => Ahead l s.2) (fun r => Scanned l r) ?_ ?_ ?_ hahead
  · intro s s' hinv hbody
    unfold asmTurn at hbody
    split at hbody
    · simp at hbody
    · split at hbody
      · simp at hbody
      · obtain rfl := Sum.inl.inj hbody
        have hpass := passByte_ahead (l := s.2) (by assumption)
        exact ⟨hinv.trans hpass.toRecords, hpass.lt⟩
  · intro s hinv
    exact hahead.source ▸ hinv.bound
  · intro s r hinv hbody
    unfold asmTurn at hbody
    split at hbody
    · obtain rfl := Sum.inr.inj hbody
      exact hinv.emit rfl _
    · split at hbody
      · obtain rfl := Sum.inr.inj hbody
        exact (hinv.trans (atAsmQuote_ahead (by assumption)).toRecords).emitText rfl _
      · simp at hbody

/-- No line ends between bytes that are no line breaks. -/
theorem breaksIn_eq_nil {n : Nat} (h : ∀ k < n, isBreak (l.peekAt k) = false) :
    breaksIn l.source l.pos (l.pos + n) = [] := by
  refine List.eq_nil_iff_forall_not_mem.mpr fun q hq => ?_
  obtain ⟨⟨hlt, hle⟩, hend⟩ := mem_breaksIn.mp hq
  have hplain := h (q - 1 - l.pos) (by omega)
  have hbyte : l.peekAt (q - 1 - l.pos) = l.source.getD (q - 1) 0 := by
    rw [peekAt, show l.pos + (q - 1 - l.pos) = q - 1 by omega]
  rw [hbyte] at hplain
  simp only [isBreak, Bool.or_eq_false_iff, decide_eq_false_iff_not] at hplain
  simp only [endsLine, Bool.or_eq_true, Bool.and_eq_true, decide_eq_true_eq] at hend
  exact hend.elim hplain.1 fun hcr => hplain.2 hcr.1

theorem eightSpaces_ahead (h : eightSpaces l = true) : Ahead l (l.bump 8) := by
  simp only [eightSpaces, Bool.and_eq_true, decide_eq_true_eq, List.all_eq_true, List.mem_range] at h
  have hnil := breaksIn_eq_nil (l := l) (n := 8) fun k hk => by rw [h.2 k hk]; decide
  refine ⟨⟨⟨rfl, rfl, rfl, Nat.le_add_right _ _, h.1⟩, ?_⟩, Nat.lt_add_of_pos_right (by decide)⟩
  rw [show (l.bump 8).pos = l.pos + 8 from rfl, hnil, List.append_nil]
  rfl

theorem lexSpaces_spec (h : l.pos ≤ l.source.length) (hc : l.curr = ch ' ') :
    ∃ l', lexSpaces l = some l' ∧ Scanned l l' := by
  obtain ⟨l1, hscan1, hrec1, hmoved, -⟩ := scanWith_spec (·.bump 8) eightSpaces (fun l hl => eightSpaces_ahead hl) h
  obtain ⟨l2, hscan2, hrec2, -, hahead⟩ := scanWith_spec LexCursor.advance (fun l => l.curr = ch ' ')
    (fun l hl => ahead_byte (of_decide_eq_true hl) (by decide) (by decide)) (hrec1.source ▸ hrec1.bound)
  refine ⟨l2.emitPlain .whitespace, by rw [lexSpaces, hscan1, Option.bind_some, hscan2, Option.map_some], ?_⟩
  rcases hmoved with rfl | hlt
  · exact (hahead (by simp [hc])).emit rfl _
  · have hfirst : Ahead l l1 := ⟨hrec1, hlt⟩
    exact (hfirst.trans hrec2).emit rfl _

theorem lexNewline_spec (hc : isBreak l.curr = true) : Scanned l (lexNewline l) := by
  have hahead : Ahead l (if l.curr = carriageReturn then if l.advance.curr =
    lineFeed then l.advance.advance else l.advance
      else l.advance).recordLineStart := by
    split
    · exact carriageReturn_ahead (by assumption)
    · rename_i hcr
      simp only [isBreak, Bool.or_eq_true, decide_eq_true_eq, hcr, or_false] at hc
      exact lineFeed_ahead hc
  exact hahead.emit rfl _

theorem lexOperator_spec {kind : SyntaxKind} {longer : List (UInt8 × SyntaxKind)} (hc : l.curr ≠ 0)
    (hb : isBreak l.curr = false) (hk : isReal kind = true)
    (hlonger : ∀ c ∈ longer, isReal c.2 = true ∧ c.1 ≠ 0 ∧ isBreak c.1 = false) :
      Scanned l (lexOperator l kind longer) := by
  have hahead := ahead_advance hc hb
  unfold lexOperator
  dsimp only
  split
  · rename_i c hfind
    obtain ⟨hreal, hne, hplain⟩ := hlonger c (List.mem_of_find?_eq_some hfind)
    have heq : c.1 = l.advance.curr := by simpa using List.find?_some hfind
    exact (hahead.trans (ahead_byte heq.symm hne hplain).toRecords).emit hreal _
  · exact hahead.emit hk _

theorem lexColon_spec (hc : l.curr = ch ':') : ∃ l', lexColon l = some l' ∧ Scanned l l' := by
  have hahead := ahead_byte hc (by decide) (by decide)
  unfold lexColon
  dsimp only
  split
  · have hnext := ahead_byte (l := l.advance) (x := ch ':') (by assumption) (by decide) (by decide)
    exact ⟨_, rfl, (hahead.trans hnext.toRecords).emit rfl _⟩
  · split
    · have hnext := ahead_byte (l := l.advance) (x := ch '=') (by assumption) (by decide) (by decide)
      exact ⟨_, rfl, (hahead.trans hnext.toRecords).emit rfl _⟩
    · split
      · obtain ⟨l', hscan, hrec, -⟩ := scanIdCont_spec (hahead.source ▸ hahead.bound)
        exact ⟨l'.emitPlain .label, by rw [hscan, Option.map_some], (hahead.trans hrec).emit rfl _⟩
      · exact ⟨_, rfl, hahead.emit rfl _⟩

theorem lexDot_spec (hc : l.curr = ch '.') : Scanned l (lexDot l) := by
  have hahead := ahead_byte hc (by decide) (by decide)
  unfold lexDot
  dsimp only
  split
  · rename_i hnext
    have hop : Scanned l.advance (lexOperator l.advance .dotDot
      [(ch '.', .dotDotDot), (ch '<', .dotDotLt), (ch '=', .dotDotEq)]) :=
      lexOperator_spec (by rw [hnext]; decide) (by rw [hnext]; decide) rfl (by decide)
    exact ⟨hahead.trans hop.1.toRecords, ⟨hop.2.start.trans hahead.tokStart, hop.2.stop, hop.2.real⟩⟩
  · exact hahead.emit rfl _

theorem delimiters_plain : ∀ d ∈ delimiters, (d.1 ≠ 0 ∧ isBreak d.1 = false) ∧ isReal d.2 = true := by decide

theorem operators_plain : ∀ o ∈ operators, (o.1 ≠ 0 ∧ isBreak o.1 = false) ∧ isReal o.2.1 = true ∧
    ∀ c ∈ o.2.2, isReal c.2 = true ∧ c.1 ≠ 0 ∧ isBreak c.1 = false := by decide

theorem lexAny_spec (hc : isBreak l.curr = false) (hlt : l.pos < l.source.length) :
    Scanned l (l.advance.emitPlain .lexError) := by
  have hahead : Ahead l l.advance := by
    refine ⟨⟨advance_moves (Nat.le_of_lt hlt), ?_⟩, ?_⟩
    · rw [advance_pos hlt, advance_lines, breaksIn_plain hc, List.append_nil]
    · rw [advance_pos hlt]
      exact Nat.lt_succ_self _
  exact hahead.emit rfl _

def isQuote (c : UInt8) : Bool := c = doubleQuote || c = singleQuote

theorem isQuote_ne {c x : UInt8} (hc : isQuote c = false) (hx : isQuote x = true) : c ≠ x := by
  rintro rfl
  simp [hc] at hx

theorem scanOne_spec (intern : Intern π) (h : l.pos < l.source.length) (hq : isQuote l.curr = false) :
    ∃ l', scanOne intern l = some l' ∧ Scanned l l' := by
  have hle := Nat.le_of_lt h
  unfold scanOne
  dsimp only
  by_cases hdigit : isDigit l.curr = true
  · rw [if_pos hdigit]
    exact lexNumber_spec hle hdigit
  rw [if_neg hdigit]
  by_cases hident : isIdStart l.curr = true
  · rw [if_pos hident]
    exact lexIdentifierOrKeyword_spec hle hident
  rw [if_neg hident]
  by_cases hspace : l.curr = ch ' '
  · rw [if_pos hspace]
    exact lexSpaces_spec hle hspace
  rw [if_neg hspace]
  by_cases hbreak : isBreak l.curr = true
  · rw [if_pos hbreak]
    exact ⟨_, rfl, lexNewline_spec hbreak⟩
  rw [if_neg hbreak, if_neg (isQuote_ne hq rfl), if_neg (isQuote_ne hq rfl)]
  have hplain : isBreak l.curr = false := Bool.eq_false_iff.mpr hbreak
  by_cases hasm : (l.curr = backQuote && atAsmQuote l) = true
  · rw [if_pos hasm]
    exact lexAsmLit_spec (Bool.and_eq_true_iff.mp hasm).2
  rw [if_neg hasm]
  by_cases hcolon : l.curr = ch ':'
  · rw [if_pos hcolon]
    exact lexColon_spec hcolon
  rw [if_neg hcolon]
  by_cases hdot : l.curr = ch '.'
  · rw [if_pos hdot]
    exact ⟨_, rfl, lexDot_spec hdot⟩
  rw [if_neg hdot]
  by_cases hline : (l.curr = ch '/' && l.peekAt 1 = ch '/') = true
  · rw [if_pos hline]
    simp only [Bool.and_eq_true, decide_eq_true_eq] at hline
    exact lexLineComment_spec hline.1 hline.2
  rw [if_neg hline]
  by_cases hblock : (l.curr = ch '/' && l.peekAt 1 = ch '*') = true
  · rw [if_pos hblock]
    simp only [Bool.and_eq_true, decide_eq_true_eq] at hblock
    exact lexBlockComment_spec hblock.1 hblock.2
  rw [if_neg hblock]
  cases hdelim : delimiters.find? fun d => d.1 = l.curr with
  | some d =>
      have heq : d.1 = l.curr := by simpa using List.find?_some hdelim
      obtain ⟨hbyte, hreal⟩ := delimiters_plain d (List.mem_of_find?_eq_some hdelim)
      exact ⟨_, rfl, lexOperator_spec (heq ▸ hbyte.1) hplain hreal (by simp)⟩
  | none =>
      cases hop : operators.find? fun o => o.1 = l.curr with
      | some o =>
          have heq : o.1 = l.curr := by simpa using List.find?_some hop
          obtain ⟨hbyte, hreal, hlonger⟩ := operators_plain o (List.mem_of_find?_eq_some hop)
          exact ⟨_, rfl, lexOperator_spec (heq ▸ hbyte.1) hplain hreal hlonger⟩
      | none => exact ⟨_, rfl, lexAny_spec hplain h⟩

/-- A quoted literal is the one token whose scanner records no line break. -/
theorem scanOne_quoted (intern : Intern π) (hq : isQuote l.curr = true) : ∃ l', scanOne intern l = some l' ∧
    Quoted l l' := by
  simp only [isQuote, Bool.or_eq_true, decide_eq_true_eq] at hq
  rcases hq with hc | hc
  · have hscan : scanOne intern l = lexQuoted intern doubleQuote .stringLit l := by
      unfold scanOne
      rw [hc]
      rfl
    exact hscan ▸ lexQuoted_spec hc (by decide) rfl
  · have hscan : scanOne intern l = lexQuoted intern singleQuote .byteLit l := by
      unfold scanOne
      rw [hc]
      rfl
    exact hscan ▸ lexQuoted_spec hc (by decide) rfl

end Ore.LexerScans
