import Ore.ParserCursor

namespace Ore.ParserReads

open SyntaxKinds GreenTree GreenBuilder ParserCursor
open WorkspaceModel (Bytes)

structure Lexeme (ok : Token → Bool) where
  token : Token
  trivia : List Token
  fits : ok token = true
  trails : ∀ t ∈ trivia, tokenIsTrivia t.kind = true

def ofKind (k : SyntaxKind) (t : Token) : Bool := t.kind = k

def leaves (source : Bytes) (ts : List Token) : List Green := ts.map fun t => .token (leafOf source t)

namespace Lexeme

variable {ok : Token → Bool}

def run (l : Lexeme ok) : List Token := l.token :: l.trivia

def kind (l : Lexeme ok) : SyntaxKind := l.token.kind

theorem kind_eq {k : SyntaxKind} (l : Lexeme (ofKind k)) : l.kind = k := of_decide_eq_true l.fits

theorem run_length (l : Lexeme ok) : 1 ≤ l.run.length := Nat.le_add_left 1 _

end Lexeme

def put (p : Parser) (gs : List Green) (n : Nat) : Parser :=
  { p with gb := ⟨p.gb.parents, p.gb.children ++ gs⟩, pos := p.pos + n }

@[simp] theorem put_nil (p : Parser) : put p [] 0 = p := by simp [put]

@[simp] theorem put_put (p : Parser) (gs hs : List Green) (m n : Nat) :
    put (put p gs m) hs n = put p (gs ++ hs) (m + n) := by
  simp [put, Nat.add_assoc]

/-- Outside type position, in front of the given tokens. -/
structure Before (c : Context) (p : Parser) (ts : List Token) : Prop where
  typed : p.parsingType = false
  ahead : c.tokens.drop p.pos = ts

def Next (ok : SyntaxKind → Bool) (ts : List Token) : Prop :=
  ∃ t rest, ts = t :: rest ∧ tokenIsTrivia t.kind = false ∧ ok t.kind = true

variable {α β : Type} {c : Context} {p p' : Parser} {ts us rest : List Token} {gs hs : List Green}

theorem Next.mono {f g : SyntaxKind → Bool} (h : Next f ts) (hle : ∀ k, f k = true → g k = true) : Next g ts := by
  obtain ⟨t, rest, hts, htrivia, hf⟩ := h
  exact ⟨t, rest, hts, htrivia, hle _ hf⟩

theorem Next.append {f : SyntaxKind → Bool} (h : Next f ts) (us : List Token) : Next f (ts ++ us) := by
  obtain ⟨t, rest, rfl, ht⟩ := h
  exact ⟨t, rest ++ us, rfl, ht⟩

theorem Before.put (h : Before c p (ts ++ rest)) : Before c (put p gs ts.length) rest := by
  refine ⟨h.typed, ?_⟩
  have hdrop : c.tokens.drop (p.pos + ts.length) = (c.tokens.drop p.pos).drop ts.length := by
    rw [List.drop_drop]
  change c.tokens.drop (p.pos + ts.length) = rest
  rw [hdrop, h.ahead, List.drop_left]

theorem Before.current {t : Token} (h : Before c p (t :: rest)) : current c p = some t := by
  have hget : c.tokens[p.pos]? = some t := by
    rw [← List.head?_drop, h.ahead, List.head?_cons]
  rw [ParserCursor.current, hget, Option.some_or]

theorem Before.peek {t : Token} (h : Before c p (t :: rest)) : ParserCursor.peek c p = t.kind := by
  rw [ParserCursor.peek, h.current, Option.map_some, Option.getD_some]

theorem Before.peek_of_next {ok : SyntaxKind → Bool} (h : Before c p ts) (hnext : Next ok ts) :
    ok (ParserCursor.peek c p) = true := by
  obtain ⟨t, rest, rfl, -, hok⟩ := hnext
  rw [h.peek, hok]

theorem Before.lt_length {ok : SyntaxKind → Bool} (h : Before c p ts) (hnext : Next ok ts) :
    p.pos < c.tokens.length := by
  obtain ⟨t, rest, rfl, -⟩ := hnext
  have hlength := congrArg List.length h.ahead
  rw [List.length_drop, List.length_cons] at hlength
  omega

/-- A piece that reads a run of tokens in front of others, and leaves elements. -/
def Reads (c : Context) (m : Parse α) (ts rest : List Token) (a : α) (gs : List Green) : Prop :=
  ∀ p, Before c p (ts ++ rest) → m c p = some (a, put p gs ts.length)

theorem Reads.pure (a : α) : Reads c (pure a) [] rest a [] := fun p _ => by
  rw [List.length_nil, put_nil]
  rfl

theorem Reads.bind {m : Parse α} {f : α → Parse β} {a : α} {b : β} (hm : Reads c m ts (us ++ rest) a gs)
    (hf : Reads c (f a) us rest b hs) : Reads c (m >>= f) (ts ++ us) rest b (gs ++ hs) := by
  intro p hp
  rw [List.append_assoc] at hp
  have hrun : (m >>= f) c p = (m c p).bind fun x => f x.1 c x.2 := rfl
  have hthere : f a c (put p gs ts.length) = some (b, put (put p gs ts.length) hs us.length) :=
    hf _ hp.put
  rw [hrun, hm p hp, Option.bind_some, hthere, put_put, List.length_append]

theorem Reads.done {m : Parse α} {f : α → Parse β} {a : α} (hm : Reads c m ts rest a gs) {b : β}
    (hf : f a = Pure.pure b) : Reads c (m >>= f) ts rest b gs := by
  intro p hp
  have hrun : (m >>= f) c p = (m c p).bind fun x => f x.1 c x.2 := rfl
  rw [hrun, hm p hp, Option.bind_some, hf]
  rfl

theorem Reads.looked {f : Context → Parser → α} {g : α → Parse β} {a : α} {b : β}
    (hf : ∀ p, Before c p (ts ++ rest) → f c p = a) (hg : Reads c (g a) ts rest b gs) :
    Reads c (ask f >>= g) ts rest b gs := by
  intro p hp
  have hrun : (ask f >>= g) c p = g (f c p) c p := rfl
  rw [hrun, hf p hp, hg p hp]

theorem Reads.skipped {f : Context → Parser → Bool} {m : Parse Unit} (hf : ∀ p, Before c p rest → f c p = false) :
    Reads c (guarded (test f) m) [] rest () [] :=
  .looked hf (.pure ())

theorem Reads.taken {f : Context → Parser → Bool} {m : Parse Unit}
    (hf : ∀ p, Before c p (ts ++ rest) → f c p = true) (hm : Reads c m ts rest () gs) :
    Reads c (guarded (test f) m) ts rest () gs :=
  .looked hf hm

theorem Reads.passed {test : Parse Bool} {m : Parse Unit} (ht : Reads c test ts (us ++ rest) true gs)
    (hm : Reads c m us rest () hs) : Reads c (guarded test m) (ts ++ us) rest () (gs ++ hs) :=
  .bind ht hm

theorem Reads.congr {m : Parse α} {a : α} (h : Reads c m ts rest a gs) (hts : ts = us) (hgs : gs = hs) :
    Reads c m us rest a hs := by
  subst hts hgs
  exact h

/-- Tokens that neither end the input nor a broken unit. -/
def plain (k : SyntaxKind) : Bool := !(k = .eof || kindIsStmtSep k || kindIsCloseBrace k)

theorem emit_run (ts : List Token) (gb : Builder Green) :
    ts.foldl (emitToken c) gb = ⟨gb.parents, gb.children ++ leaves c.source ts⟩ := by
  induction ts generalizing gb with
  | nil => simp [leaves]
  | cons t ts ih =>
      rw [List.foldl_cons, ih]
      simp [emitToken, Builder.push, leaves]

theorem takeWhile_trivia {ok : SyntaxKind → Bool} (hts : ∀ t ∈ ts, tokenIsTrivia t.kind = true) (h : Next ok rest) :
    ((ts ++ rest).takeWhile fun t => tokenIsTrivia t.kind) = ts := by
  obtain ⟨t, rest, rfl, htrivia, -⟩ := h
  rw [List.takeWhile_append_of_pos hts, List.takeWhile_cons_of_neg (by simp [htrivia]), List.append_nil]

theorem advance_reads {ok : Token → Bool} {next : SyntaxKind → Bool} (l : Lexeme ok) (hplain : plain l.kind = true)
    (h : Next next rest) : Reads c pAdvance l.run rest () (leaves c.source l.run) := by
  intro p hp
  have hkinds : (l.token.kind ≠ .eof ∧ kindIsStmtSep l.token.kind = false) ∧ kindIsCloseBrace l.token.kind = false := by
    have h := hplain
    simp only [plain, Lexeme.kind, Bool.not_eq_true', Bool.or_eq_false_iff] at h
    exact ⟨⟨of_decide_eq_false h.1.1, h.1.2⟩, h.2⟩
  have hcurrent : current c p = some l.token := hp.current
  have heof : isEof c p = false := by
    rw [isEof, hp.peek]
    exact decide_eq_false hkinds.1.1
  have htake : takeToken c p = some ((), put p [.token (leafOf c.source l.token)] 1) := by
    simp [takeToken, update, hcurrent, hkinds, emitToken, Builder.push, put]
  have hsplit : Before c p ([l.token] ++ (l.trivia ++ rest)) := hp
  have hthere : Before c (put p [.token (leafOf c.source l.token)] 1) (l.trivia ++ rest) := hsplit.put
  have hskip : skipTrivia c (put p [.token (leafOf c.source l.token)] 1) =
      some ((), put (put p [.token (leafOf c.source l.token)] 1) (leaves c.source l.trivia) l.trivia.length) := by
    rw [skipTrivia, update, hthere.ahead, takeWhile_trivia l.trails h]
    simp only [emit_run]
    rfl
  have hrun : pAdvance c p = (takeToken c p).bind fun x => skipTrivia c x.2 := by
    change (if isEof c p = true then _ else _ : Parse Unit) c p = _
    rw [if_neg (by simp [heof])]
    rfl
  rw [hrun, htake, Option.bind_some, hskip, put_put, Lexeme.run, List.length_cons, Nat.add_comm 1]
  rfl

section Kinds

variable {k : SyntaxKind}

theorem matches_self (k : SyntaxKind) : kindMatchesWithVirtual k k = true := by
  simp [kindMatchesWithVirtual]

theorem match_reads {next : SyntaxKind → Bool} (l : Lexeme (ofKind k)) (hplain : plain k = true) (h : Next next rest) :
    Reads c (pMatch k) l.run rest true (leaves c.source l.run) := by
  refine .looked (a := true) (fun p hp => ?_) ?_
  · have hkind : l.token.kind = k := l.kind_eq
    rw [check, hp.peek, hkind, matches_self]
  · exact (advance_reads l (by rw [l.kind_eq, hplain]) h).done rfl

theorem match_fails (h : Next (fun k' => !kindMatchesWithVirtual k k') rest) :
    Reads c (pMatch k) [] rest false [] := by
  refine .looked (a := false) (fun p hp => ?_) (.pure false)
  have hk := hp.peek_of_next h
  rwa [Bool.not_eq_true'] at hk

theorem consume_reads {next : SyntaxKind → Bool} (l : Lexeme (ofKind k)) (hplain : plain k = true) (h : Next next rest)
    (msg : String) : Reads c (pConsume k msg) l.run rest true (leaves c.source l.run) :=
  (match_reads l hplain h).done rfl

theorem expect_reads {next : SyntaxKind → Bool} (l : Lexeme (ofKind k)) (hplain : plain k = true) (h : Next next rest)
    (msg : String) : Reads c (expect k msg) l.run rest () (leaves c.source l.run) :=
  (consume_reads l hplain h msg).done rfl

end Kinds

theorem finishNode_put {parents : List (SyntaxKind × Nat)} {kind : SyntaxKind} {base : List Green} {n : Nat}
    (h : p.gb = ⟨parents, base⟩) :
    finishNode c (put { p with gb := ⟨(kind, base.length) :: parents, base⟩ } gs n) =
      some ((), put p [.node kind gs] n) := by
  obtain ⟨gb, pos, errors, parsingType, noTrailingLambda, fixCount, inRecovery⟩ := p
  subst h
  simp [finishNode, buildTree, Builder.popFrame, put, Builder.push]

theorem Reads.node {m : Parse α} {a : α} (kind : SyntaxKind) (hm : Reads c m ts rest a gs) :
    Reads c (node kind m) ts rest a [.node kind gs] := by
  intro p hp
  have hrun : ParserCursor.node kind m c p =
      (m c { p with gb := p.gb.startNode kind }).bind fun x => (finishNode c x.2).map fun y => (x.1, y.2) := by
    change ((m c _).bind fun x => (finishNode c x.2).bind fun y => some (x.1, y.2)) = _
    simp only [Option.map_eq_bind]
    rfl
  have hstart : Before c { p with gb := p.gb.startNode kind } (ts ++ rest) := ⟨hp.typed, hp.ahead⟩
  rw [hrun, hm _ hstart, Option.bind_some, Builder.startNode, finishNode_put rfl]
  rfl

theorem Reads.untyped {m : Parse α} {a : α} {f : Context → Parser → Bool}
    (hf : ∀ p, p.parsingType = false → f c p = false) (hm : Reads c m ts rest a gs) :
    Reads c (do withParsingType (← ask f) m) ts rest a gs := by
  refine .looked (a := false) (fun p hp => hf p hp.typed) fun p hp => ?_
  obtain ⟨gb, pos, errors, parsingType, noTrailingLambda, fixCount, inRecovery⟩ := p
  have htyped : parsingType = false := hp.typed
  subst htyped
  have hrun := hm _ hp
  have hwith : withParsingType false m c ⟨gb, pos, errors, false, noTrailingLambda, fixCount, inRecovery⟩ =
      (m c ⟨gb, pos, errors, false, noTrailingLambda, fixCount, inRecovery⟩).bind fun x =>
        some (x.1, { x.2 with parsingType := false }) := rfl
  rw [hwith, hrun]
  rfl

theorem Reads.thunks {m : Parse α} {a : α} (b : Bool) (hm : Reads c m ts rest a gs) :
    Reads c (withNoTrailingLambda b m) ts rest a gs := by
  intro p hp
  have hthere : Before c { p with noTrailingLambda := b } (ts ++ rest) := ⟨hp.typed, hp.ahead⟩
  have hwith : withNoTrailingLambda b m c p = (m c { p with noTrailingLambda := b }).bind fun x =>
      some (x.1, { x.2 with noTrailingLambda := p.noTrailingLambda }) := rfl
  rw [hwith, hm _ hthere]
  rfl

/-- A piece that reads a run of tokens behind some elements, and puts one in place
of them all. -/
def Wraps (c : Context) (m : Nat → Parse Unit) (gs : List Green) (ts rest : List Token) (g : Green) : Prop :=
  ∀ p n, Before c (put p gs n) (ts ++ rest) →
    m p.gb.children.length c (put p gs n) = some ((), put p [g] (n + ts.length))

theorem Wraps.congr {m : Nat → Parse Unit} {g g' : Green} (h : Wraps c m gs ts rest g) (hg : g = g') :
    Wraps c m gs ts rest g' := by
  subst hg
  exact h

theorem Wraps.nodeAt {m : Parse Unit} (kind : SyntaxKind) (hm : Reads c m ts rest () hs) :
    Wraps c (fun cp => nodeAt cp kind m) gs ts rest (.node kind (gs ++ hs)) := by
  intro p n hp
  let opened : Parser := { put p gs n with gb := ⟨(kind, p.gb.children.length) :: p.gb.parents, p.gb.children ++ gs⟩ }
  have hle : p.gb.children.length ≤ (put p gs n).gb.children.length := by simp [put]
  have hrun : ParserCursor.nodeAt p.gb.children.length kind m c (put p gs n) =
      (m c opened).bind fun x => (finishNode c x.2).map fun y => (x.1, y.2) := by
    change (((put p gs n).gb.startNodeAt _ kind).map _).bind _ = _
    rw [Builder.startNodeAt, if_pos hle]
    change ((m c _).bind fun x => (finishNode c x.2).bind fun y => some (x.1, y.2)) = _
    simp only [Option.map_eq_bind]
    rfl
  have hthere : Before c opened (ts ++ rest) := ⟨hp.typed, hp.ahead⟩
  have hput : put opened hs ts.length =
      put { p with gb := ⟨(kind, p.gb.children.length) :: p.gb.parents, p.gb.children⟩ } (gs ++ hs)
        (n + ts.length) := by
    simp [opened, put, Nat.add_assoc]
  change ParserCursor.nodeAt p.gb.children.length kind m c (put p gs n) = _
  rw [hrun, hm _ hthere, Option.bind_some, hput, finishNode_put rfl]
  rfl

theorem Wraps.bind {m : Parse α} {f : α → Nat → Parse Unit} {a : α} {g : Green} (hm : Reads c m ts (us ++ rest) a hs)
    (hf : Wraps c (f a) (gs ++ hs) us rest g) : Wraps c (fun cp => m >>= fun a => f a cp) gs (ts ++ us) rest g := by
  intro p n hp
  rw [List.append_assoc] at hp
  have hrun : (m >>= fun a => f a p.gb.children.length) c (put p gs n) =
      (m c (put p gs n)).bind fun x => f x.1 p.gb.children.length c x.2 := rfl
  have hbehind : put (put p gs n) hs ts.length = put p (gs ++ hs) (n + ts.length) := put_put ..
  have hthere := hf p (n + ts.length) (hbehind ▸ hp.put)
  change (m >>= fun a => f a p.gb.children.length) c (put p gs n) = _
  rw [hrun, hm _ hp, Option.bind_some, hbehind, hthere, List.length_append, Nat.add_assoc]

theorem Wraps.looked {f : Context → Parser → α} {k : α → Nat → Parse Unit} {a : α} {g : Green}
    (hf : ∀ p, Before c p (ts ++ rest) → f c p = a) (hk : Wraps c (k a) gs ts rest g) :
    Wraps c (fun cp => ask f >>= fun a => k a cp) gs ts rest g := by
  intro p n hp
  have hrun : (ask f >>= fun a => k a p.gb.children.length) c (put p gs n) =
      k (f c (put p gs n)) p.gb.children.length c (put p gs n) := rfl
  change (ask f >>= fun a => k a p.gb.children.length) c (put p gs n) = _
  rw [hrun, hf _ hp, hk p n hp]

/-- The turns of a loop, up to the one that ends it. -/
inductive Loops (body : Parse Bool) (c : Context) : Parser → Parser → Prop
  | stop {p p' : Parser} : body c p = some (false, p') → Loops body c p p'
  | again {p p₁ p' : Parser} : body c p = some (true, p₁) → p.pos < p₁.pos → p₁.pos ≤ c.tokens.length →
      Loops body c p₁ p' → Loops body c p p'

theorem Loops.repeatWhile {body : Parse Bool} (h : Loops body c p p') :
    ParserCursor.repeatWhile body c p = some ((), p') := by
  let turn : Unit → Parse (Option Unit) := fun _ => do if ← body then pure (some ()) else pure none
  have hturn (p : Parser) : turn () c p = (body c p).map fun x => (if x.1 then some () else none, x.2) := by
    change ((body c p).bind _) = _
    rw [Option.map_eq_bind]
    congr 1
    funext x
    obtain ⟨b, p⟩ := x
    cases b <;> rfl
  have hrounds (n : Nat) (p : Parser) : rounds turn (n + 1) () c p =
      (turn () c p).bind fun x => match x.1 with
        | some a => rounds turn n a c x.2
        | none => some ((), x.2) := by
    change ((turn () c p).bind _) = _
    congr 1
    funext x
    obtain ⟨_ | _, p⟩ := x <;> rfl
  suffices hn : ∀ n, c.tokens.length - p.pos ≤ n → rounds turn (n + 1) () c p = some ((), p') from hn _ le_rfl
  induction h with
  | stop hbody =>
      intro n _
      rw [hrounds, hturn, hbody]
      rfl
  | @again p p₁ p' hbody hlt hle _ ih =>
      intro n hn
      obtain ⟨n, rfl⟩ := Nat.exists_eq_succ_of_ne_zero (by omega : n ≠ 0)
      rw [hrounds, hturn, hbody]
      exact ih n (by omega)

end Ore.ParserReads
