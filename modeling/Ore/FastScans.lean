import Ore.LexerScans

namespace Ore.FastScans

open Lexer Lexer.LexCursor LexerScans
open WorkspaceModel (Bytes)

/-- A read outside the text and the NUL behind it. -/
inductive Fault where
  | outOfBounds (pos : Nat)
  deriving DecidableEq, Repr

/-- The scans without a bounds check. -/
inductive Scan where
  | identifier
  | decimal
  | hexadecimal
  | binary
  | octal
  deriving DecidableEq, Repr

variable {π : Type}

/-- Whether a scan goes on over a byte; an identifier looks one byte ahead. -/
def Scan.goesOn : Scan → LexCursor π → UInt8 → Bool
  | identifier, l, c => isIdCont c || c = ch '-' && isIdCont (l.peekAt 1)
  | decimal, _, c => isDigit c || c = ch '_'
  | hexadecimal, _, c => isHexDigit c || c = ch '_'
  | binary, _, c => (c = ch '0' || c = ch '1') || c = ch '_'
  | octal, _, c => (ch '0' ≤ c && c ≤ ch '7') || c = ch '_'

/-- The current byte of the text and its NUL, read without a bounds check. -/
def scur (l : LexCursor π) : Except Fault UInt8 :=
  match (l.source ++ [0])[l.pos]? with
  | some c => .ok c
  | none => .error (.outOfBounds l.pos)

def fastTurn (s : Scan) (x : Unit × LexCursor π) : (Unit × LexCursor π) ⊕ Except Fault (LexCursor π) :=
  match scur x.2 with
  | .error e => .inr (.error e)
  | .ok c => if s.goesOn x.2 c then .inl ((), x.2.bump 1) else .inr (.ok x.2)

def fastScan (s : Scan) (l : LexCursor π) : Option (Except Fault (LexCursor π)) := scan (fastTurn s) () l

def plainTurn (s : Scan) (x : Unit × LexCursor π) : (Unit × LexCursor π) ⊕ LexCursor π :=
  if s.goesOn x.2 x.2.curr then .inl ((), x.2.advance) else .inr x.2

/-- Byte by byte, with the reads and steps that stop at the end of the text. -/
def plainScan (s : Scan) (l : LexCursor π) : Option (LexCursor π) := scan (plainTurn s) () l

/-- Eight bytes of the text, without the NUL behind it. -/
def loadEight (l : LexCursor π) : Except Fault Bytes :=
  let w := (l.source.drop l.pos).take 8
  if w.length = 8 then .ok w else .error (.outOfBounds (l.pos + w.length))

def blockTurn (x : Unit × LexCursor π) : (Unit × LexCursor π) ⊕ Except Fault (LexCursor π) :=
  if x.2.pos + 8 ≤ x.2.source.length then match loadEight x.2 with
    | .error e => .inr (.error e)
    | .ok w => if w = List.replicate 8 (ch ' ') then .inl ((), x.2.bump 8) else .inr (.ok x.2)
  else .inr (.ok x.2)

def plainSpaces (l : LexCursor π) : Option (LexCursor π) := scanWith advance (·.curr = ch ' ') l

def fastSpaces (l : LexCursor π) : Option (Except Fault (LexCursor π)) :=
  (scan blockTurn () l).bind fun r => match r with
    | .error e => some (.error e)
    | .ok l => (plainSpaces l).map .ok

variable {l : LexCursor π} {s : Scan}

theorem goesOn_nul (s : Scan) (l : LexCursor π) : s.goesOn l 0 = false := by
  cases s <;> rfl

/-- Up to the end of the text both reads give the same byte, past it there is the NUL. -/
theorem scur_eq (h : l.pos ≤ l.source.length) : scur l = .ok l.curr := by
  rw [scur]
  rcases Nat.lt_or_eq_of_le h with hlt | heq
  · have hread : (l.source ++ [0])[l.pos]? = some l.curr := by
      simp [curr, peekAt, List.getElem?_append_left hlt, List.getElem?_eq_getElem hlt]
    rw [hread]
  · have hread : (l.source ++ [0])[l.pos]? = some l.curr := by
      rw [heq, curr, peekAt, Nat.add_zero, heq]
      simp
    rw [hread]

theorem bump_eq (h : l.pos < l.source.length) : l.bump 1 = l.advance := by simp [bump, advance, h]

theorem fastTurn_eq (s : Scan) (x : Unit × LexCursor π) (h : x.2.pos ≤ x.2.source.length) :
    fastTurn s x = (plainTurn s x).map id .ok := by
  rw [fastTurn, plainTurn, scur_eq h]
  cases hgo : s.goesOn x.2 x.2.curr with
  | true =>
      have hcurr : x.2.curr ≠ 0 := by
        intro hzero
        rw [hzero, goesOn_nul] at hgo
        cases hgo
      simp only [hgo, if_true, bump_eq (lt_of_curr hcurr)]
      rfl
  | false =>
      simp only [hgo, Bool.false_eq_true, if_false]
      rfl

theorem plainTurn_inside (s : Scan) (x x' : Unit × LexCursor π) (h : x.2.pos ≤ x.2.source.length)
    (hturn : plainTurn s x = .inl x') : x'.2.pos ≤ x'.2.source.length := by
  rw [plainTurn] at hturn
  split at hturn
  · obtain rfl := Sum.inl.inj hturn
    have hmoves := advance_moves h
    rw [hmoves.source]
    exact hmoves.bound
  · cases hturn

theorem fastScan_eq (s : Scan) (h : l.pos ≤ l.source.length) : fastScan s l = (plainScan s l).map .ok := by
  rw [fastScan, plainScan, scan, scan]
  exact Loop.run_agree (fun x : Unit × LexCursor π => x.2.pos ≤ x.2.source.length) Except.ok (fastTurn_eq s)
    (plainTurn_inside s) _ _ h

theorem plainScan_returns (s : Scan) (h : l.pos ≤ l.source.length) :
    ∃ l', plainScan s l = some l' ∧ Moves l l' := by
  refine scan_spec (fun x => Moves l x.2) (fun r => Moves l r) ?_ ?_ ?_ (.refl h)
  · intro x x' hinv hturn
    rw [plainTurn] at hturn
    split at hturn
    · rename_i hgo
      obtain rfl := Sum.inl.inj hturn
      have hcurr : x.2.curr ≠ 0 := by
        intro hzero
        rw [hzero, goesOn_nul] at hgo
        cases hgo
      refine ⟨hinv.trans (advance_moves (hinv.source ▸ hinv.bound)), ?_⟩
      rw [advance_pos (lt_of_curr hcurr)]
      exact Nat.lt_succ_self _
    · cases hturn
  · exact fun x hinv => hinv.bound
  · intro x r hinv hturn
    rw [plainTurn] at hturn
    split at hturn
    · cases hturn
    · obtain rfl := Sum.inr.inj hturn
      exact hinv

def spacesFrom (source : Bytes) (pos : Nat) : Nat := ((source.drop pos).takeWhile (· = ch ' ')).length

theorem spacesFrom_bound {source : Bytes} {pos : Nat} (h : pos ≤ source.length) :
    pos + spacesFrom source pos ≤ source.length := by
  have hle := (List.takeWhile_prefix (fun c => decide (c = ch ' ')) (l := source.drop pos)).length_le
  rw [List.length_drop] at hle
  rw [spacesFrom]
  omega

theorem spacesFrom_curr (l : LexCursor π) :
    spacesFrom l.source l.pos = if l.curr = ch ' ' then spacesFrom l.source (l.pos + 1) + 1 else 0 := by
  rcases Nat.lt_or_ge l.pos l.source.length with hlt | hge
  · have hcurr : l.curr = l.source[l.pos] := by
      simp [curr, peekAt, List.getElem?_eq_getElem hlt]
    rw [spacesFrom, List.drop_eq_getElem_cons hlt, List.takeWhile_cons, hcurr]
    by_cases hspace : l.source[l.pos] = ch ' '
    · simp [hspace, spacesFrom]
    · simp [hspace]
  · have hcurr : l.curr = 0 := by
      simp [curr, peekAt, List.getElem?_eq_none hge]
    rw [spacesFrom, List.drop_eq_nil_of_le hge, hcurr]
    rfl

theorem spacesFrom_block {source : Bytes} {pos : Nat} (h : (source.drop pos).take 8 = List.replicate 8 (ch ' ')) :
    spacesFrom source pos = 8 + spacesFrom source (pos + 8) := by
  rw [spacesFrom, spacesFrom, ← List.take_append_drop 8 (source.drop pos), h, List.drop_drop,
    List.takeWhile_append_of_pos (by simp), List.length_append, List.length_replicate]

theorem bump_bump (l : LexCursor π) (m n : Nat) : (l.bump m).bump n = l.bump (m + n) := by
  simp [bump, Nat.add_assoc]

theorem plainSpaces_eq (h : l.pos ≤ l.source.length) : plainSpaces l = some (l.bump (spacesFrom l.source l.pos)) := by
  have hspec : ∃ r, plainSpaces l = some r ∧ r = l.bump (spacesFrom l.source l.pos) := by
    rw [plainSpaces, scanWith]
    refine scan_spec (fun x => x.2.source = l.source ∧ x.2.pos ≤ l.source.length ∧
      x.2.bump (spacesFrom l.source x.2.pos) = l.bump (spacesFrom l.source l.pos)) _ ?_ ?_ ?_ ⟨rfl, h, rfl⟩
    · rintro x x' ⟨hsource, hle, heq⟩ hturn
      split at hturn
      · rename_i hspace
        have hspace' : x.2.curr = ch ' ' := by simpa using hspace
        have hlt : x.2.pos < x.2.source.length := lt_of_curr (by rw [hspace']; decide)
        obtain rfl := Sum.inl.inj hturn
        rw [← hsource, spacesFrom_curr, if_pos hspace', Nat.add_comm, ← bump_bump, bump_eq hlt, hsource] at heq
        have hpos := advance_pos hlt
        refine ⟨⟨(advance_moves (Nat.le_of_lt hlt)).source.trans hsource, ?_, ?_⟩, ?_⟩
        · rw [hpos, ← hsource]
          exact hlt
        · rw [hpos]
          exact heq
        · rw [hpos]
          exact Nat.lt_succ_self _
      · cases hturn
    · exact fun x hinv => hinv.2.1
    · rintro x r ⟨hsource, -, heq⟩ hturn
      split at hturn
      · cases hturn
      · rename_i hspace
        obtain rfl := Sum.inr.inj hturn
        have hspace' : x.2.curr ≠ ch ' ' := by simpa using hspace
        rw [← hsource, spacesFrom_curr, if_neg hspace', hsource] at heq
        exact heq
  obtain ⟨r, hr, rfl⟩ := hspec
  exact hr

/-- The blocks end without a fault, and leave the rest of the spaces. -/
theorem blocks_eq (h : l.pos ≤ l.source.length) :
    ∃ l', scan blockTurn () l = some (.ok l') ∧ l'.source = l.source ∧ l'.pos ≤ l.source.length ∧
      l'.bump (spacesFrom l.source l'.pos) = l.bump (spacesFrom l.source l.pos) := by
  have hspec : ∃ r, scan blockTurn () l = some r ∧ ∃ l', r = .ok l' ∧ l'.source = l.source ∧ l'.pos ≤ l.source.length ∧
      l'.bump (spacesFrom l.source l'.pos) = l.bump (spacesFrom l.source l.pos) := by
    refine scan_spec (fun x => x.2.source = l.source ∧ x.2.pos ≤ l.source.length ∧
      x.2.bump (spacesFrom l.source x.2.pos) = l.bump (spacesFrom l.source l.pos)) _ ?_ ?_ ?_ ⟨rfl, h, rfl⟩
    · rintro x x' ⟨hsource, hle, heq⟩ hturn
      rw [blockTurn] at hturn
      split at hturn
      · rename_i hin
        split at hturn
        · cases hturn
        · rename_i w hload
          split at hturn
          · rename_i hspaces
            obtain rfl := Sum.inl.inj hturn
            rw [loadEight] at hload
            split at hload
            · obtain rfl := Except.ok.inj hload
              rw [← hsource, spacesFrom_block hspaces, ← bump_bump, hsource] at heq
              rw [hsource] at hin
              exact ⟨⟨hsource, hin, heq⟩, by simp [bump]⟩
            · cases hload
          · cases hturn
      · cases hturn
    · exact fun x hinv => hinv.2.1
    · rintro x r ⟨hsource, hle, heq⟩ hturn
      rw [blockTurn] at hturn
      split at hturn
      · rename_i hin
        split at hturn
        · rename_i e hload
          rw [loadEight] at hload
          simp only [List.length_take, List.length_drop] at hload
          rw [if_pos (by omega)] at hload
          cases hload
        · split at hturn
          · cases hturn
          · exact ⟨x.2, (Sum.inr.inj hturn).symm, hsource, hle, heq⟩
      · exact ⟨x.2, (Sum.inr.inj hturn).symm, hsource, hle, heq⟩
  obtain ⟨r, hr, l', rfl, hl'⟩ := hspec
  exact ⟨l', hr, hl'⟩

theorem fastSpaces_eq (h : l.pos ≤ l.source.length) : fastSpaces l = (plainSpaces l).map .ok := by
  obtain ⟨l', hscan, hsource, hle, heq⟩ := blocks_eq h
  rw [fastSpaces, hscan, Option.bind_some, plainSpaces_eq h]
  simp only
  rw [plainSpaces_eq (hsource ▸ hle), hsource, heq]

theorem scanWhile_plain (s : Scan) (h : l.pos ≤ l.source.length) :
    scanWhile (fun l => s.goesOn l l.curr) l = plainScan s l := by
  have hrun := Loop.run_agree (g := fun x : Unit × LexCursor π =>
      if s.goesOn x.2 x.2.curr then Sum.inl ((), x.2.bump 1) else Sum.inr x.2)
    (fun x : Unit × LexCursor π => x.2.pos ≤ x.2.source.length) id (fun x hx => by
      rw [plainTurn]
      cases hgo : s.goesOn x.2 x.2.curr with
      | true =>
          have hcurr : x.2.curr ≠ 0 := by
            intro hzero
            rw [hzero, goesOn_nul] at hgo
            cases hgo
          simp only [if_true, bump_eq (lt_of_curr hcurr)]
          rfl
      | false => rfl) (plainTurn_inside s) (l.source.length + 1 - l.pos) ((), l) h
  rw [Option.map_id] at hrun
  exact hrun

theorem eightSpaces_iff (l : LexCursor π) : eightSpaces l = true ↔
    l.pos + 8 ≤ l.source.length ∧ (l.source.drop l.pos).take 8 = List.replicate 8 (ch ' ') := by
  simp only [eightSpaces, Bool.and_eq_true, decide_eq_true_eq, List.all_eq_true, List.mem_range]
  refine and_congr_right fun hin => ?_
  have hread (k : Nat) (hlt : l.pos + k < l.source.length) : l.peekAt k = l.source[l.pos + k] := by
    simp [peekAt, List.getElem?_eq_getElem hlt]
  constructor
  · intro h
    refine List.ext_getElem (by simp; omega) fun k hk hk' => ?_
    rw [List.length_replicate] at hk'
    rw [List.getElem_replicate, List.getElem_take, List.getElem_drop, ← hread k (by omega), h k hk']
  · intro h k hk
    have hget := congrArg (·[k]?) h
    simp only [List.getElem?_take_of_lt hk, List.getElem?_drop, List.getElem?_replicate, if_pos hk] at hget
    rw [List.getElem?_eq_getElem (by omega), Option.some.injEq] at hget
    rw [hread k (by omega), hget]

theorem blocks_model (l : LexCursor π) : scan blockTurn () l = (scanWith (·.bump 8) eightSpaces l).map .ok := by
  rw [scan, scanWith, scan]
  refine Loop.run_map Except.ok (fun x => ?_) _ _
  rw [blockTurn]
  by_cases hin : x.2.pos + 8 ≤ x.2.source.length
  · have hlen : ((x.2.source.drop x.2.pos).take 8).length = 8 := by
      rw [List.length_take, List.length_drop]
      omega
    rw [if_pos hin, loadEight, if_pos hlen]
    by_cases hspaces : (x.2.source.drop x.2.pos).take 8 = List.replicate 8 (ch ' ')
    · simp only [if_pos hspaces, (eightSpaces_iff x.2).mpr ⟨hin, hspaces⟩, if_true]
      rfl
    · have height : eightSpaces x.2 = false :=
        Bool.eq_false_iff.mpr fun h => hspaces ((eightSpaces_iff x.2).mp h).2
      simp only [if_neg hspaces, height, Bool.false_eq_true, if_false]
      rfl
  · have height : eightSpaces x.2 = false :=
      Bool.eq_false_iff.mpr fun h => hin ((eightSpaces_iff x.2).mp h).1
    simp only [if_neg hin, height, Bool.false_eq_true, if_false]
    rfl

theorem lexSpaces_plain (h : l.pos ≤ l.source.length) :
    lexSpaces l = (plainSpaces l).map (·.emitPlain .whitespace) := by
  have hfast := fastSpaces_eq h
  rw [fastSpaces, blocks_model] at hfast
  rw [lexSpaces]
  cases hblocks : scanWith (·.bump 8) eightSpaces l with
  | none =>
      rw [hblocks, plainSpaces_eq h] at hfast
      cases hfast
  | some l' =>
      rw [hblocks, Option.map_some, Option.bind_some] at hfast
      have hsame : plainSpaces l' = plainSpaces l := Option.map_injective (fun _ _ heq => Except.ok.inj heq) hfast
      rw [Option.bind_some, ← hsame]
      rfl

/-- The scans without a bounds check and the scan by blocks stop where the scans byte by
byte do, without a fault and within the text. -/
theorem fast_scans_plain (l : LexCursor π) (h : l.pos ≤ l.source.length) :
    (∀ s : Scan, ∃ l', plainScan s l = some l' ∧ fastScan s l = some (.ok l') ∧
      l.pos ≤ l'.pos ∧ l'.pos ≤ l.source.length) ∧
    ∃ l', plainSpaces l = some l' ∧ fastSpaces l = some (.ok l') ∧ l.pos ≤ l'.pos ∧ l'.pos ≤ l.source.length := by
  constructor
  · intro s
    obtain ⟨l', hplain, hmoves⟩ := plainScan_returns s h
    exact ⟨l', hplain, by rw [fastScan_eq s h, hplain]; rfl, hmoves.le, hmoves.bound⟩
  · exact ⟨_, plainSpaces_eq h, by rw [fastSpaces_eq h, plainSpaces_eq h]; rfl, Nat.le_add_right .., spacesFrom_bound h⟩

/-- A name, a NUL and a hyphen at the end of the text. -/
def text : LexCursor Unit := lexBegin [97, 98, 0, 97, 45] ()

theorem fast_scans_text : ∃ l', plainScan .identifier text = some l' ∧ fastScan .identifier text = some (.ok l') ∧
    text.pos ≤ l'.pos ∧ l'.pos ≤ text.source.length :=
  (fast_scans_plain text (by decide)).1 .identifier

end Ore.FastScans
