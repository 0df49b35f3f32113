import Ore.TextScans

namespace Ore.TextSearch

open RedTree TextChunks TextScans
open WorkspaceModel (Bytes)

/-- The bytes of a code point, none if it is out of range. -/
def utf8Encode (c : Int) : Bytes :=
  let n := c.toNat
  if c < 0 then []
  else if c < 0x80 then [.ofNat n]
  else if c < 0x800 then [.ofNat (0xC0 ||| n >>> 6 &&& 0x1F), .ofNat (0x80 ||| n &&& 0x3F)]
  else if c < 0x10000 then
    [.ofNat (0xE0 ||| n >>> 12 &&& 0x0F), .ofNat (0x80 ||| n >>> 6 &&& 0x3F), .ofNat (0x80 ||| n &&& 0x3F)]
  else if c < 0x110000 then
    [.ofNat (0xF0 ||| n >>> 18 &&& 0x07), .ofNat (0x80 ||| n >>> 12 &&& 0x3F), .ofNat (0x80 ||| n >>> 6 &&& 0x3F),
      .ofNat (0x80 ||| n &&& 0x3F)]
  else []

structure FindCharCtx where
  needle : Bytes
  cursor : Nat
  foundAt : Option Nat
  carry : Bytes

def scanFor (needle text : Bytes) (bound : Nat) : Option Nat :=
  (List.range bound).find? fun i => decide (needle <+: text.drop i)

def findInChunk (ctx : FindCharCtx) (text : Bytes) : FindCharCtx × Bool :=
  if text.length < ctx.needle.length then ({ ctx with carry := ctx.carry ++ text }, true)
  else
    let scanEnd := text.length - (ctx.needle.length - 1)
    match scanFor ctx.needle text scanEnd with
    | some i => ({ ctx with foundAt := some (ctx.cursor + i) }, false)
    | none =>
      let tail := ctx.needle.length - 1
      ({ ctx with cursor := ctx.cursor + scanEnd, carry := text.drop (text.length - tail) }, true)

def findCharVisit : Visitor FindCharCtx := fun ctx text =>
  if 0 < ctx.carry.length then
    let carry := ctx.carry ++ text.take (8 - ctx.carry.length)
    let scannable := if ctx.needle.length ≤ carry.length then carry.length - ctx.needle.length + 1 else 0
    match scanFor ctx.needle carry scannable with
    | some i => some ({ ctx with foundAt := some (ctx.cursor + i), carry := carry }, false)
    | none => some (findInChunk { ctx with cursor := ctx.cursor + scannable, carry := [] } text)
  else some (findInChunk ctx text)

def syntaxTextFindChar (fuel : Nat) (st : SyntaxText) (c : Int) : Option (Option Nat) :=
  match utf8Encode c with
  | [] => some none
  | [b] => syntaxTextFindByte fuel st b
  | needle => (forEachChunk fuel st findCharVisit ⟨needle, st.range.start, none, []⟩).map fun (ctx, _) => ctx.foundAt

/-- Where some bytes stand first in a string. -/
def flatFind (needle : Bytes) : Bytes → Option Nat
  | [] => none
  | b :: F => if needle <+: b :: F then some 0 else (flatFind needle F).map (· + 1)

/-- How many bytes of a chunk are carried into the next. -/
def carried (n : Nat) (text : Bytes) : Nat := min text.length (n - 1)

/-- How many positions are tried from the carried bytes on, of which `k` there are. -/
def stitched (n k : Nat) (text : Bytes) : Nat := if k = 0 then 0 else k + min text.length (8 - k) + 1 - n

/-- How far the cursor gets away from the text at a chunk: it moves past all stitched
positions, where the text moves past the carried bytes. -/
def drift (n k : Nat) (text : Bytes) : Int := stitched n k text - k

/-- Where the bytes carried out of a chunk begin, from the first of the `k` carried into it. -/
def nextCarry (n k : Nat) (text : Bytes) : Nat := k + text.length - carried n text

/-- How far from where it stands an occurrence is reported, if it is seen. Positions
count from the first of `k` carried bytes. -/
def slip (n k : Nat) : List Bytes → Nat → Option Int
  | [], _ => none
  | text :: cs, q =>
    if q < stitched n k text then some 0
    else if q + n ≤ k + text.length then some (drift n k text)
    else if q < nextCarry n k text then none
    else (slip n (carried n text) cs (q - nextCarry n k text)).map (drift n k text + ·)

/-- The first occurrence that is seen stands at `q`, and is reported `s` further on. -/
structure SeenFirst (needle : Bytes) (F : Bytes) (view : Nat → Option Int) (q : Nat) (s : Int) : Prop where
  occurs : needle <+: F.drop q
  seen : view q = some s
  first : ∀ i < q, needle <+: F.drop i → view i = none

/-- What is reported for the chunks is where the bytes stand first in the string. -/
def Reported (needle : Bytes) (cs : List Bytes) : Prop :=
  ∀ p, flatFind needle cs.flatten = some p →
    ∃ q s, SeenFirst needle cs.flatten (slip needle.length 0 cs) q s ∧ (p : Int) = q + s

def flatFindChar (F : Bytes) (c : Int) : Option Nat :=
  match utf8Encode c with
  | [] => none
  | needle => flatFind needle F

variable {fuel : Nat} {st : SyntaxText} {needle text F A R : Bytes} {cs : List Bytes} {n k q p : Nat}
    {ctx : FindCharCtx}

section Occurrences

/-- Where bytes stand in a string, they stand in a longer one, and not elsewhere so early. -/
theorem occurs_append (hq : q + needle.length ≤ A.length) : needle <+: (A ++ R).drop q ↔ needle <+: A.drop q := by
  rw [List.drop_append_of_le_length (by omega)]
  constructor
  · intro h
    refine List.prefix_of_prefix_length_le h (List.prefix_append _ _) ?_
    rw [List.length_drop]
    omega
  · exact fun h => h.trans (List.prefix_append _ _)

theorem flatFind_some (h : flatFind needle F = some q) : needle <+: F.drop q ∧ ∀ i < q, ¬ needle <+: F.drop i := by
  induction F generalizing q with
  | nil => cases h
  | cons b F ih =>
      rw [flatFind] at h
      split_ifs at h with hhere
      · cases h
        exact ⟨hhere, fun _ hi => absurd hi (Nat.not_lt_zero _)⟩
      · obtain ⟨p, hp, rfl⟩ := Option.map_eq_some_iff.mp h
        obtain ⟨hocc, hfirst⟩ := ih hp
        refine ⟨hocc, fun i hi => ?_⟩
        cases i with
        | zero => exact hhere
        | succ i => exact hfirst i (Nat.lt_of_succ_lt_succ hi)

theorem flatFind_none (hneedle : needle ≠ []) (h : flatFind needle F = none) (q : Nat) : ¬ needle <+: F.drop q := by
  induction F generalizing q with
  | nil =>
      intro hocc
      rw [List.drop_nil] at hocc
      exact hneedle (List.prefix_nil.mp hocc)
  | cons b F ih =>
      rw [flatFind] at h
      split_ifs at h with hhere
      cases q with
      | zero => exact hhere
      | succ q => exact ih (Option.map_eq_none_iff.mp h) q

theorem flatFind_byte (b : UInt8) (F : Bytes) : flatFind [b] F = F.findIdx? (· == b) := by
  induction F with
  | nil => rfl
  | cons a F ih =>
      rw [flatFind, List.findIdx?_cons, ih]
      simp only [List.cons_prefix_cons, List.nil_prefix, and_true, beq_iff_eq, eq_comm (a := b)]

theorem scanFor_some {bound i : Nat} (h : scanFor needle text bound = some i) :
    i < bound ∧ needle <+: text.drop i ∧ ∀ j < i, ¬ needle <+: text.drop j := by
  obtain ⟨hocc, hmem, hfirst⟩ := List.find?_range_eq_some.mp h
  exact ⟨List.mem_range.mp hmem, of_decide_eq_true hocc, fun j hj => by simpa using hfirst j hj⟩

theorem scanFor_none {bound i : Nat} (h : scanFor needle text bound = none) (hi : i < bound) :
    ¬ needle <+: text.drop i := by
  have hall := List.find?_range_eq_none.mp h i hi
  simpa using hall

theorem utf8Encode_length (c : Int) : (utf8Encode c).length ≤ 4 := by
  unfold utf8Encode
  split_ifs <;> simp

end Occurrences

section Visits

/-- A visit stops at the first occurrence in the carried bytes and the chunk, or
there is none in them. -/
inductive Visited (ctx : FindCharCtx) (text : Bytes) : FindCharCtx × Bool → Prop
  | found {ctx' : FindCharCtx} {q p : Nat} {s : Int} (inside : q + ctx.needle.length ≤ ctx.carry.length + text.length)
      (occurs : ctx.needle <+: (ctx.carry ++ text).drop q)
      (first : ∀ i < q, ¬ ctx.needle <+: (ctx.carry ++ text).drop i)
      (seen : ∀ cs, slip ctx.needle.length ctx.carry.length (text :: cs) q = some s) (stops : ctx'.foundAt = some p)
      (reported : (p : Int) = ctx.cursor + q + s) : Visited ctx text (ctx', false)
  | passed (cursor : Nat)
      (nowhere : ∀ q, q + ctx.needle.length ≤ ctx.carry.length + text.length →
        ¬ ctx.needle <+: (ctx.carry ++ text).drop q)
      (moved : (cursor : Int) = ctx.cursor + nextCarry ctx.needle.length ctx.carry.length text +
        drift ctx.needle.length ctx.carry.length text) :
      Visited ctx text ({ ctx with
        cursor := cursor, carry := text.drop (text.length - carried ctx.needle.length text) }, true)

/-- A needle of two to four bytes, with fewer of them carried. -/
structure Seeking (ctx : FindCharCtx) : Prop where
  many : 2 ≤ ctx.needle.length
  few : ctx.needle.length ≤ 4
  carry : ctx.carry.length < ctx.needle.length
  unfound : ctx.foundAt = none

theorem findInChunk_visited (h : Seeking ctx)
    (hstitched : ∀ q < stitched ctx.needle.length ctx.carry.length text, ¬ ctx.needle <+: (ctx.carry ++ text).drop q) :
    Visited ctx text (findInChunk
      { ctx with cursor := ctx.cursor + stitched ctx.needle.length ctx.carry.length text, carry := [] } text) := by
  obtain ⟨hmany, hfew, hcarry, -⟩ := h
  rw [findInChunk]
  simp only
  split_ifs with hshort
  · have hcarried : carried ctx.needle.length text = text.length := by
      rw [carried]
      omega
    have hvisited : Visited ctx text _ := .passed (ctx.cursor +
      stitched ctx.needle.length ctx.carry.length text) ?_ ?_
    · rw [hcarried, Nat.sub_self, List.drop_zero] at hvisited
      exact hvisited
    · intro q hq
      refine hstitched q ?_
      rw [stitched]
      split_ifs <;> omega
    · rw [nextCarry, drift, hcarried]
      omega
  · have hlong := Nat.not_lt.mp hshort
    have hpast : ctx.carry.length ≤ stitched ctx.needle.length ctx.carry.length text := by
      rw [stitched]
      split_ifs <;> omega
    have hbefore (q : Nat) (hq : stitched ctx.needle.length ctx.carry.length text ≤ q) :
        (ctx.carry ++ text).drop q = text.drop (q - ctx.carry.length) := by
      rw [List.drop_append, List.drop_eq_nil_of_le (by omega), List.nil_append]
    cases hscan : scanFor ctx.needle text (text.length - (ctx.needle.length - 1)) with
    | some i =>
        obtain ⟨hi, hocc, hfirst⟩ := scanFor_some hscan
        have hdrop : (ctx.carry ++ text).drop (ctx.carry.length + i) = text.drop i := by
          rw [List.drop_append, List.drop_eq_nil_of_le (by omega), List.nil_append, Nat.add_sub_cancel_left]
        have hunstitched : ¬ ctx.carry.length + i < stitched ctx.needle.length ctx.carry.length text := by
          intro hlt
          refine hstitched _ hlt ?_
          rwa [hdrop]
        have hinside : ctx.carry.length + i + ctx.needle.length ≤ ctx.carry.length + text.length := by omega
        refine .found (q := ctx.carry.length + i) (s := drift ctx.needle.length ctx.carry.length text) hinside
          (by rwa [hdrop]) (fun j hj => ?_) (fun cs => ?_) rfl ?_
        · by_cases hlt : j < stitched ctx.needle.length ctx.carry.length text
          · exact hstitched j hlt
          · rw [hbefore j (Nat.not_lt.mp hlt)]
            exact hfirst _ (by omega)
        · rw [slip, if_neg hunstitched, if_pos hinside]
        · rw [drift]
          push_cast
          omega
    | none =>
        have hcarried : carried ctx.needle.length text = ctx.needle.length - 1 := by
          rw [carried]
          omega
        have hvisited : Visited ctx text _ := .passed (ctx.cursor +
          stitched ctx.needle.length ctx.carry.length text + (text.length - (ctx.needle.length - 1))) ?_ ?_
        · rw [hcarried] at hvisited
          exact hvisited
        · intro q hq
          by_cases hlt : q < stitched ctx.needle.length ctx.carry.length text
          · exact hstitched q hlt
          · rw [hbefore q (Nat.not_lt.mp hlt)]
            exact scanFor_none hscan (by omega)
        · rw [nextCarry, drift, hcarried]
          push_cast
          omega

theorem findCharVisit_visited (h : Seeking ctx) (text : Bytes) :
    ∃ r, findCharVisit ctx text = some r ∧ Visited ctx text r := by
  have hmany := h.many
  have hfew := h.few
  have hshort := h.carry
  rw [findCharVisit]
  split_ifs with hcarry
  · have hlen : (ctx.carry ++ text.take (8 - ctx.carry.length)).length =
        ctx.carry.length + min text.length (8 - ctx.carry.length) := by
      rw [List.length_append, List.length_take, Nat.min_comm]
    have hscannable : (if ctx.needle.length ≤ (ctx.carry ++ text.take (8 - ctx.carry.length)).length then
        (ctx.carry ++ text.take (8 - ctx.carry.length)).length - ctx.needle.length + 1 else 0) =
        stitched ctx.needle.length ctx.carry.length text := by
      rw [hlen, stitched, if_neg (Nat.ne_of_gt hcarry)]
      split_ifs <;> omega
    simp only [hscannable]
    have hsplit : ctx.carry ++ text =
        ctx.carry ++ text.take (8 - ctx.carry.length) ++ text.drop (8 - ctx.carry.length) := by
      rw [List.append_assoc, List.take_append_drop]
    have hinside (q : Nat) (hq : q < stitched ctx.needle.length ctx.carry.length text) :
        q + ctx.needle.length ≤ (ctx.carry ++ text.take (8 - ctx.carry.length)).length := by
      rw [hlen]
      rw [stitched, if_neg (Nat.ne_of_gt hcarry)] at hq
      omega
    cases hscan : scanFor ctx.needle (ctx.carry ++ text.take (8 - ctx.carry.length))
        (stitched ctx.needle.length ctx.carry.length text) with
    | some i =>
        obtain ⟨hi, hocc, hfirst⟩ := scanFor_some hscan
        have hin := hinside i hi
        refine ⟨_, rfl, .found (q := i) (s := 0) ?_ ?_ (fun j hj => ?_) (fun cs => ?_) rfl (by push_cast; omega)⟩
        · rw [hlen] at hin
          omega
        · rwa [hsplit, occurs_append hin]
        · rw [hsplit, occurs_append (hinside j (hj.trans hi))]
          exact hfirst j hj
        · rw [slip, if_pos hi]
    | none =>
        refine ⟨_, rfl, findInChunk_visited h fun q hq => ?_⟩
        rw [hsplit, occurs_append (hinside q hq)]
        exact scanFor_none hscan hq
  · have hnil : ctx.carry = [] := List.eq_nil_of_length_eq_zero (Nat.eq_zero_of_not_pos hcarry)
    have hnone : stitched ctx.needle.length ctx.carry.length text = 0 := by
      rw [hnil, stitched, List.length_nil, if_pos rfl]
    refine ⟨_, rfl, ?_⟩
    have hvisited : Visited ctx text _ := findInChunk_visited h fun q hq => by omega
    rw [hnone, Nat.add_zero, ← hnil] at hvisited
    exact hvisited

/-- What the visits of the chunks report of a string. -/
def Reports (needle F : Bytes) (view : Nat → Option Int) (cursor : Nat) : Option Nat → Prop
  | none => ∀ q, needle <+: F.drop q → view q = none
  | some p => ∃ q s, SeenFirst needle F view q s ∧ (p : Int) = cursor + q + s

/-- An occurrence that a chunk does not hold is for the chunks behind it. -/
theorem slip_passed (h : ¬ q + n ≤ k + text.length) (cs : List Bytes) : slip n k (text :: cs) q =
    if q < nextCarry n k text then none
    else (slip n (carried n text) cs (q - nextCarry n k text)).map (drift n k text + ·) := by
  have hunstitched : ¬ q < stitched n k text := by
    rw [stitched]
    split_ifs <;> omega
  rw [slip, if_neg hunstitched, if_neg h]

theorem drop_nextCarry {carry : Bytes} (hq : nextCarry n carry.length text ≤ q) : (carry ++ (text ++ R)).drop q =
    (text.drop (text.length - carried n text) ++ R).drop (q - nextCarry n carry.length text) := by
  have hle : carried n text ≤ text.length := Nat.min_le_left _ _
  rw [nextCarry] at hq ⊢
  rw [List.drop_append, List.drop_eq_nil_of_le (by omega), List.nil_append,
    ← List.drop_append_of_le_length (by omega), List.drop_drop]
  congr 1
  omega

theorem Reports.of_passed {cursor : Nat} {r : Option Nat}
    (hnowhere : ∀ q, q + ctx.needle.length ≤ ctx.carry.length + text.length →
      ¬ ctx.needle <+: (ctx.carry ++ text).drop q)
    (hmoved : (cursor : Int) = ctx.cursor + nextCarry ctx.needle.length ctx.carry.length text +
      drift ctx.needle.length ctx.carry.length text)
    (hrest : Reports ctx.needle (text.drop (text.length - carried ctx.needle.length text) ++ R)
      (slip ctx.needle.length (carried ctx.needle.length text) cs) cursor r) :
    Reports ctx.needle (ctx.carry ++ (text ++ R))
      (slip ctx.needle.length ctx.carry.length (text :: cs)) ctx.cursor r := by
  have hview (q : Nat) (hocc : ctx.needle <+: (ctx.carry ++ (text ++ R)).drop q) :
      slip ctx.needle.length ctx.carry.length (text :: cs) q =
        if q < nextCarry ctx.needle.length ctx.carry.length text then none
        else (slip ctx.needle.length (carried ctx.needle.length text) cs
          (q - nextCarry ctx.needle.length ctx.carry.length text)).map
            (drift ctx.needle.length ctx.carry.length text + ·) := by
    refine slip_passed (fun hin => hnowhere q hin ?_) cs
    rwa [← List.append_assoc, occurs_append (by rwa [List.length_append])] at hocc
  have hunseen (q : Nat) (hocc : ctx.needle <+: (ctx.carry ++ (text ++ R)).drop q)
      (hnone : nextCarry ctx.needle.length ctx.carry.length text ≤ q →
        slip ctx.needle.length (carried ctx.needle.length text) cs
          (q - nextCarry ctx.needle.length ctx.carry.length text) = none) :
      slip ctx.needle.length ctx.carry.length (text :: cs) q = none := by
    rw [hview q hocc]
    split_ifs with hlt
    · rfl
    · rw [hnone (Nat.not_lt.mp hlt), Option.map_none]
  cases r with
  | none =>
      intro q hocc
      refine hunseen q hocc fun hq => hrest _ ?_
      rwa [← drop_nextCarry hq]
  | some p =>
      obtain ⟨q, s, ⟨hocc, hseen, hfirst⟩, hp⟩ := hrest
      have hq : ctx.needle <+: (ctx.carry ++ (text ++ R)).drop
          (q + nextCarry ctx.needle.length ctx.carry.length text) := by
        rwa [drop_nextCarry (Nat.le_add_left _ _), Nat.add_sub_cancel]
      refine ⟨q + nextCarry ctx.needle.length ctx.carry.length text,
        drift ctx.needle.length ctx.carry.length text + s, ⟨hq, ?_, fun i hi hocci => ?_⟩, ?_⟩
      · rw [hview _ hq, if_neg (Nat.not_lt.mpr (Nat.le_add_left _ _)), Nat.add_sub_cancel, hseen, Option.map_some]
      · refine hunseen i hocci fun hle => hfirst _ (by omega) ?_
        rwa [← drop_nextCarry hle]
      · push_cast
        omega

theorem visitAll_findChar (h : Seeking ctx) (cs : List Bytes) : ∃ r, visitAll findCharVisit cs ctx = some r ∧
    Reports ctx.needle (ctx.carry ++ cs.flatten)
      (slip ctx.needle.length ctx.carry.length cs) ctx.cursor r.1.foundAt := by
  induction cs generalizing ctx with
  | nil =>
      refine ⟨_, rfl, ?_⟩
      rw [h.unfound]
      exact fun _ _ => rfl
  | cons text cs ih =>
      obtain ⟨r, hvisit, hvisited⟩ := findCharVisit_visited h text
      rw [visitAll, hvisit, Option.bind_some, List.flatten_cons]
      cases hvisited with
      | found hinside hocc hfirst hseen hstops hreported =>
          refine ⟨_, rfl, ?_⟩
          simp only [hstops]
          have hlen : (ctx.carry ++ text).length = ctx.carry.length + text.length := List.length_append
          refine ⟨_, _, ⟨?_, hseen cs, fun i hi hocci => ?_⟩, hreported⟩
          · rwa [← List.append_assoc, occurs_append (by omega)]
          · rw [← List.append_assoc, occurs_append (by omega)] at hocci
            exact absurd hocci (hfirst i hi)
      | passed cursor hnowhere hmoved =>
          have hmany := h.many
          have hseeking : Seeking { ctx with
              cursor := cursor, carry := text.drop (text.length - carried ctx.needle.length text) } := by
            refine ⟨h.many, h.few, ?_, h.unfound⟩
            simp only [List.length_drop, carried]
            omega
          have hcarried : (text.drop (text.length - carried ctx.needle.length text)).length =
              carried ctx.needle.length text := by
            simp only [List.length_drop, carried]
            omega
          obtain ⟨r, hall, hreports⟩ := ih hseeking
          simp only [hcarried] at hreports
          exact ⟨r, hall, hreports.of_passed hnowhere hmoved⟩

/-- An occurrence is not seen when a whole chunk lies within it, with bytes of it on both sides. -/
theorem slip_none_iff (hn : 2 ≤ n) (hfew : n ≤ 4) (hk : k < n) (hq : q + n ≤ k + cs.flatten.length) :
    slip n k cs q = none ↔ ∃ pre text post, cs = pre ++ text :: post ∧ q < k + pre.flatten.length ∧
      k + pre.flatten.length + text.length < q + n := by
  induction cs generalizing k q with
  | nil =>
      rw [List.flatten_nil, List.length_nil] at hq
      omega
  | cons text cs ih =>
      rw [List.flatten_cons, List.length_append] at hq
      by_cases hin : q + n ≤ k + text.length
      · have hsome : slip n k (text :: cs) q ≠ none := by
          rw [slip, if_pos hin]
          split_ifs <;> exact Option.some_ne_none _
        refine iff_of_false hsome ?_
        rintro ⟨pre, c, post, hcs, hbefore, hbehind⟩
        cases pre with
        | nil =>
            obtain ⟨rfl, rfl⟩ := List.cons.inj hcs
            rw [List.flatten_nil, List.length_nil] at hbehind
            omega
        | cons d pre =>
            obtain ⟨rfl, rfl⟩ := List.cons.inj hcs
            rw [List.flatten_cons, List.length_append] at hbehind
            omega
      · rw [slip_passed hin]
        have hcarried : carried n text ≤ text.length := Nat.min_le_left _ _
        have hless : carried n text < n := by
          rw [carried]
          omega
        split_ifs with hlt
        · refine iff_of_true rfl ⟨[], text, cs, rfl, ?_, ?_⟩
          · rw [nextCarry, carried] at hlt
            rw [List.flatten_nil, List.length_nil]
            omega
          · rw [List.flatten_nil, List.length_nil]
            omega
        · rw [nextCarry] at hlt ⊢
          rw [Option.map_eq_none_iff, ih hless (by omega)]
          constructor
          · rintro ⟨pre, c, post, rfl, hbefore, hbehind⟩
            refine ⟨text :: pre, c, post, rfl, ?_, ?_⟩
            · rw [List.flatten_cons, List.length_append]
              omega
            · rw [List.flatten_cons, List.length_append]
              omega
          · rintro ⟨pre, c, post, hcs, hbefore, hbehind⟩
            cases pre with
            | nil =>
                obtain ⟨rfl, rfl⟩ := List.cons.inj hcs
                rw [List.flatten_nil, List.length_nil] at hbefore
                omega
            | cons d pre =>
                obtain ⟨rfl, rfl⟩ := List.cons.inj hcs
                rw [List.flatten_cons, List.length_append] at hbefore hbehind
                exact ⟨pre, c, post, rfl, by omega, by omega⟩

end Visits

section Exact

theorem SeenFirst.unique {view : Nat → Option Int} {i : Nat} {s r : Int} (h : SeenFirst needle F view q s)
    (h' : SeenFirst needle F view i r) : q = i ∧ s = r := by
  have hqi : q = i := by
    refine Nat.le_antisymm (Nat.le_of_not_lt fun hlt => ?_) (Nat.le_of_not_lt fun hlt => ?_)
    · have hnone := h.first i hlt h'.occurs
      rw [h'.seen] at hnone
      cases hnone
    · have hnone := h'.first q hlt h.occurs
      rw [h.seen] at hnone
      cases hnone
  subst hqi
  exact ⟨rfl, Option.some.inj (h.seen.symm.trans h'.seen)⟩

theorem Reports.unique {view : Nat → Option Int} {b : Nat} {r r' : Option Nat} (h : Reports needle F view b r)
    (h' : Reports needle F view b r') : r = r' := by
  cases r with
  | none =>
      cases r' with
      | none => rfl
      | some p =>
          obtain ⟨q, s, hfirst, -⟩ := h'
          have hnone := h q hfirst.occurs
          rw [hfirst.seen] at hnone
          cases hnone
  | some p =>
      obtain ⟨q, s, hfirst, hp⟩ := h
      cases r' with
      | none =>
          have hnone := h' q hfirst.occurs
          rw [hfirst.seen] at hnone
          cases hnone
      | some p' =>
          obtain ⟨q', s', hfirst', hp'⟩ := h'
          obtain ⟨rfl, rfl⟩ := hfirst.unique hfirst'
          rw [← hp'] at hp
          exact congrArg some (Int.ofNat_inj.mp hp)

theorem reports_flat_iff (hneedle : needle ≠ []) (cs : List Bytes) (b : Nat) :
    Reports needle cs.flatten (slip needle.length 0 cs) b ((flatFind needle cs.flatten).map (b + ·)) ↔
      Reported needle cs := by
  rw [Reported]
  cases hfind : flatFind needle cs.flatten with
  | none =>
      have hnowhere := flatFind_none hneedle hfind
      constructor
      · intro _ p hp
        cases hp
      · exact fun _ q hocc => absurd hocc (hnowhere q)
  | some p =>
      constructor
      · rintro ⟨q, s, hfirst, hp⟩ _ heq
        cases heq
        refine ⟨q, s, hfirst, ?_⟩
        push_cast at hp
        omega
      · intro h
        obtain ⟨q, s, hfirst, hp⟩ := h p rfl
        refine ⟨q, s, hfirst, ?_⟩
        push_cast
        omega

/-- The search gives the first place of the code point exactly when its bytes are
reported where they stand; a byte always is. -/
theorem findChar_iff (hnode : st.node.isToken = false) (hrange : st.node.textRange.contains st.range = true)
    (hfuel : (walkOf st).length < fuel) (c : Int) :
    syntaxTextFindChar fuel st c = some ((flatFindChar (flat st) c).map (st.range.start + ·)) ↔
      (2 ≤ (utf8Encode c).length → Reported (utf8Encode c) (chunks st)) := by
  have hlen := utf8Encode_length c
  rw [syntaxTextFindChar, flatFindChar]
  cases henc : utf8Encode c with
  | nil => simp
  | cons b needle =>
      cases needle with
      | nil =>
          simp only [findByte_flat hnode hrange hfuel, flatFind_byte, List.length_singleton]
          simp
      | cons b' needle =>
          rw [henc] at hlen
          have hmany : 2 ≤ (b :: b' :: needle).length := by simp
          have hseeking : Seeking ⟨b :: b' :: needle, st.range.start, none, []⟩ :=
            ⟨hmany, hlen, Nat.lt_of_lt_of_le Nat.two_pos hmany, rfl⟩
          obtain ⟨r, hall, hreports⟩ := visitAll_findChar hseeking (chunks st)
          rw [List.nil_append] at hreports
          simp only [forEachChunk_eq hnode hfuel, hall, Option.map_some, Option.some.injEq, hmany, true_imp_iff]
          rw [← reports_flat_iff (List.cons_ne_nil _ _) (chunks st) st.range.start, ← chunks_flat hrange]
          constructor
          · exact fun heq => heq ▸ hreports
          · exact hreports.unique

end Exact

end Ore.TextSearch
