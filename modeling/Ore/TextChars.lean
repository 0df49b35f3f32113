import Mathlib.Tactic.IntervalCases
import Ore.TextChunks

namespace Ore.TextChars

open RedTree TextChunks
open WorkspaceModel (Bytes)

/-- The length of the sequence that a byte leads, if it can lead one. -/
def utf8SeqLen (lead : UInt8) : Option Nat :=
  if lead &&& 0x80 = 0x00 then some 1
  else if lead &&& 0xE0 = 0xC0 then some 2
  else if lead &&& 0xF0 = 0xE0 then some 3
  else if lead &&& 0xF8 = 0xF0 then some 4
  else none

def low (b mask : UInt8) : Nat := (b &&& mask).toNat

def continues (b : UInt8) : Prop := b &&& 0xC0 = 0x80

instance : DecidablePred continues := fun b => inferInstanceAs (Decidable (b &&& 0xC0 = 0x80))

/-- The code point at the front and its length. Without one, utf8_decode sets no
length. -/
def utf8Decode : Bytes → Option (Nat × Nat)
  | [] => none
  | p₀ :: p => match utf8SeqLen p₀, p with
    | some 1, _ => some (p₀.toNat, 1)
    | some 2, p₁ :: _ => if continues p₁ then some (low p₀ 0x1F <<< 6 ||| low p₁ 0x3F, 2) else none
    | some 3, p₁ :: p₂ :: _ =>
      if continues p₁ ∧ continues p₂ then some (low p₀ 0x0F <<< 12 ||| low p₁ 0x3F <<< 6 ||| low p₂ 0x3F, 3) else none
    | some 4, p₁ :: p₂ :: p₃ :: _ =>
      if continues p₁ ∧ continues p₂ ∧ continues p₃ then
        some (low p₀ 0x07 <<< 18 ||| low p₁ 0x3F <<< 12 ||| low p₂ 0x3F <<< 6 ||| low p₃ 0x3F, 4)
      else none
    | _, _ => none

structure CharAtCtx where
  target : Nat
  cursor : Nat
  carry : Bytes
  result : Option Nat
  found : Bool

/-- The loop that completes a sequence begun in an earlier chunk. It gives what is
left of the chunk and whether to go on. -/
def drainCarry : Nat → CharAtCtx → Bytes → Option (CharAtCtx × Bytes × Bool)
  | 0, _, _ => none
  | fuel + 1, ctx, p => match ctx.carry, p with
    | [], _ | _, [] => some (ctx, p, true)
    | lead :: carry, b :: rest =>
      let (carry, p) := if carry.length + 1 < 4 then (lead :: carry ++ [b], rest) else (lead :: carry, p)
      match utf8SeqLen lead with
      | none =>
        let ctx := { ctx with cursor := ctx.cursor + 1, carry := [] }
        if ctx.target < ctx.cursor then some ({ ctx with found := true }, p, false) else drainCarry fuel ctx p
      | some needed =>
        if carry.length < needed then drainCarry fuel { ctx with carry := carry } p
        else if ctx.target = ctx.cursor then
          some ({ ctx with carry := carry, result := (utf8Decode carry).map Prod.fst, found := true }, p, false)
        else match utf8Decode carry with
          | none => none
          | some (_, consumed) =>
            let ctx := { ctx with cursor := ctx.cursor + consumed, carry := [] }
            if ctx.target < ctx.cursor then some ({ ctx with result := none, found := true }, p, false)
            else drainCarry fuel ctx p

def scanChunk : Nat → CharAtCtx → Bytes → Option (CharAtCtx × Bool)
  | 0, _, _ => none
  | _ + 1, ctx, [] => some (ctx, true)
  | fuel + 1, ctx, lead :: rest => match utf8SeqLen lead with
    | none =>
      if ctx.target = ctx.cursor then some ({ ctx with result := none, found := true }, false)
      else scanChunk fuel { ctx with cursor := ctx.cursor + 1 } rest
    | some needed =>
      if (lead :: rest).length < needed then some ({ ctx with carry := lead :: rest }, true)
      else if ctx.target = ctx.cursor then
        some ({ ctx with result := (utf8Decode (lead :: rest)).map Prod.fst, found := true }, false)
      else match utf8Decode (lead :: rest) with
        | none => none
        | some (_, consumed) =>
          let ctx := { ctx with cursor := ctx.cursor + consumed }
          if ctx.target < ctx.cursor then some ({ ctx with result := none, found := true }, false)
          else scanChunk fuel ctx ((lead :: rest).drop consumed)

def charAtVisit : Visitor CharAtCtx := fun ctx text =>
  (drainCarry (text.length + 2) ctx text).bind fun (ctx, p, more) =>
    if more then scanChunk (p.length + 1) ctx p else some (ctx, false)

def syntaxTextCharAt (fuel : Nat) (st : SyntaxText) (offset : Nat) : Option (Option Nat) :=
  if offset < st.range.start then some none
  else if st.range.stop ≤ offset then some none
  else (forEachChunk fuel st charAtVisit ⟨offset, st.range.start, [], none, false⟩).map fun (ctx, _) =>
    if ctx.found then ctx.result else none

variable {fuel : Nat} {st : SyntaxText} {lead : UInt8} {p rest text R : Bytes} {n c : Nat} {ctx : CharAtCtx}

section Decode

theorem utf8SeqLen_le (h : utf8SeqLen lead = some n) : 1 ≤ n ∧ n ≤ 4 := by
  unfold utf8SeqLen at h
  split_ifs at h <;> (cases h; omega)

/-- A character is as long as its first byte says, and that long at least is the text. -/
theorem utf8Decode_some (h : utf8Decode p = some (c, n)) : ∃ lead rest, p = lead :: rest ∧ utf8SeqLen lead = some n ∧
    1 ≤ n ∧ n ≤ p.length := by
  cases p with
  | nil => cases h
  | cons p₀ p =>
      refine ⟨p₀, p, rfl, ?_⟩
      unfold utf8Decode at h
      simp only at h
      split at h
      · cases h
        exact ⟨‹_›, by simp⟩
      · split_ifs at h
        cases h
        exact ⟨‹_›, by simp⟩
      · split_ifs at h
        cases h
        exact ⟨‹_›, by simp⟩
      · split_ifs at h
        cases h
        exact ⟨‹_›, by simp⟩
      · cases h

/-- What stands behind a sequence does not matter to it. -/
theorem utf8Decode_append (h : utf8SeqLen lead = some n) (hn : n ≤ (lead :: rest).length) :
    utf8Decode (lead :: rest ++ R) = utf8Decode (lead :: rest) := by
  obtain ⟨hlow, hhigh⟩ := utf8SeqLen_le h
  unfold utf8Decode
  simp only [List.cons_append, h]
  rcases rest with _ | ⟨p₁, _ | ⟨p₂, _ | ⟨p₃, rest⟩⟩⟩ <;> simp only [List.length_cons, List.length_nil] at hn <;>
    interval_cases n <;> rfl

theorem utf8Decode_short (h : utf8SeqLen lead = some n) (hn : (lead :: rest).length < n) :
    utf8Decode (lead :: rest) = none := by
  cases hdecode : utf8Decode (lead :: rest) with
  | none => rfl
  | some r =>
      obtain ⟨_, _, heq, hlen, -, hle⟩ := utf8Decode_some hdecode
      obtain ⟨rfl, rfl⟩ := List.cons.inj heq
      rw [h] at hlen
      cases hlen
      omega

theorem utf8Decode_malformed (h : utf8SeqLen lead = none) : utf8Decode (lead :: rest) = none := by
  cases hdecode : utf8Decode (lead :: rest) with
  | none => rfl
  | some r =>
      obtain ⟨_, _, heq, hlen, -⟩ := utf8Decode_some hdecode
      obtain ⟨rfl, rfl⟩ := List.cons.inj heq
      rw [h] at hlen
      cases hlen

end Decode

section Flat

/-- How far to the next character: a byte without one stands alone. -/
def width (F : Bytes) : Nat :=
  match utf8Decode F with
  | some (_, n) => n
  | none => 1

theorem width_pos (F : Bytes) : 1 ≤ width F := by
  unfold width
  split
  · rename_i c n h
    obtain ⟨_, _, -, -, hpos, -⟩ := utf8Decode_some h
    exact hpos
  · exact Nat.le_refl 1

/-- The character that begins at an offset of a string which is read from its start. -/
def flatCharAt (F : Bytes) (o : Nat) : Option Nat :=
  if o = 0 then (utf8Decode F).map Prod.fst
  else if o < width F then none
  else flatCharAt (F.drop (width F)) (o - width F)
termination_by o
decreasing_by
  have := width_pos F
  omega

/-- Complete characters and bytes that lead no character, and at the end at most
the beginning of a character, with no other one in it. -/
inductive Readable : Bytes → Prop
  | nil : Readable []
  | char {F : Bytes} {c n : Nat} (decoded : utf8Decode F = some (c, n)) (rest : Readable (F.drop n)) : Readable F
  | byte {lead : UInt8} {F : Bytes} (malformed : utf8SeqLen lead = none) (rest : Readable F) : Readable (lead :: F)
  | cut {lead : UInt8} {F : Bytes} {n : Nat} (leads : utf8SeqLen lead = some n) (short : (lead :: F).length < n)
      (none : ∀ j, utf8Decode (F.drop j) = none) : Readable (lead :: F)

/-- What the visits come to on the text as a whole. -/
def scanned (F : Bytes) (o : Nat) : Option (Option Nat) :=
  match F with
  | [] => some none
  | lead :: rest => match utf8SeqLen lead with
    | none => if o = 0 then some none else scanned rest (o - 1)
    | some needed =>
      if (lead :: rest).length < needed then some none
      else if o = 0 then some ((utf8Decode (lead :: rest)).map Prod.fst)
      else match _h : utf8Decode (lead :: rest) with
        | none => none
        | some (_, n) => if o < n then some none else scanned ((lead :: rest).drop n) (o - n)
termination_by F.length
decreasing_by
  · simp
  · obtain ⟨_, _, -, -, hpos, hle⟩ := utf8Decode_some _h
    rw [List.length_drop]
    omega

variable {F : Bytes} {o : Nat}

theorem scanned_malformed (h : utf8SeqLen lead = none) (rest : Bytes) (o : Nat) :
    scanned (lead :: rest) o = if o = 0 then some none else scanned rest (o - 1) := by
  rw [scanned]
  simp only [h]

theorem scanned_short (h : utf8SeqLen lead = some n) (hn : (lead :: rest).length < n) (o : Nat) :
    scanned (lead :: rest) o = some none := by
  rw [scanned]
  simp only [h]
  rw [if_pos hn]

theorem scanned_zero (h : utf8SeqLen lead = some n) (hn : n ≤ (lead :: rest).length) :
    scanned (lead :: rest) 0 = some ((utf8Decode (lead :: rest)).map Prod.fst) := by
  rw [scanned]
  simp only [h]
  rw [if_neg (Nat.not_lt.mpr hn), if_pos trivial]

theorem scanned_fault (h : utf8SeqLen lead = some n) (hn : n ≤ (lead :: rest).length)
    (hdecode : utf8Decode (lead :: rest) = none) (ho : o ≠ 0) : scanned (lead :: rest) o = none := by
  rw [scanned]
  simp only [h]
  rw [if_neg (Nat.not_lt.mpr hn), if_neg ho]
  split
  · rfl
  · rename_i h
    rw [hdecode] at h
    cases h

theorem scanned_char (hdecode : utf8Decode F = some (c, n)) (ho : o ≠ 0) :
    scanned F o = if o < n then some none else scanned (F.drop n) (o - n) := by
  obtain ⟨lead, rest, rfl, hlen, -, hle⟩ := utf8Decode_some hdecode
  rw [scanned]
  simp only [hlen]
  rw [if_neg (Nat.not_lt.mpr hle), if_neg ho]
  split
  · rename_i h
    rw [hdecode] at h
    cases h
  · rename_i h
    rw [hdecode] at h
    cases h
    rfl

end Flat

section Visits

/-- The beginning of a sequence, or nothing. -/
def Pending (carry : Bytes) : Prop :=
  carry = [] ∨ ∃ lead rest n, carry = lead :: rest ∧ utf8SeqLen lead = some n ∧ carry.length < n

structure Searching (ctx : CharAtCtx) : Prop where
  before : ctx.cursor ≤ ctx.target
  unfound : ctx.found = false
  pending : Pending ctx.carry

/-- A piece of the visits keeps what the rest of the text will come to. `left` is
what it leaves of the chunk. -/
def Keeps (ctx : CharAtCtx) (F R : Bytes) : Option (CharAtCtx × Bytes × Bool) → Prop
  | none => scanned F (ctx.target - ctx.cursor) = none
  | some (ctx', _, false) => ctx'.found = true ∧ scanned F (ctx.target - ctx.cursor) = some ctx'.result
  | some (ctx', p, true) => Searching ctx' ∧ ctx'.target = ctx.target ∧ (ctx'.carry = [] ∨ p = []) ∧
      scanned F (ctx.target - ctx.cursor) = scanned (ctx'.carry ++ (p ++ R)) (ctx'.target - ctx'.cursor)

theorem Keeps.of_turn {ctx₁ : CharAtCtx} {F₁ : Bytes} {r : Option (CharAtCtx × Bytes × Bool)} (h : Keeps ctx₁ F₁ R r)
    (htarget : ctx₁.target = ctx.target)
    (hturn : scanned F (ctx.target - ctx.cursor) = scanned F₁ (ctx₁.target - ctx₁.cursor)) : Keeps ctx F R r := by
  cases r with
  | none => exact hturn.trans h
  | some r =>
      obtain ⟨ctx', p, more⟩ := r
      cases more with
      | false => exact ⟨h.1, hturn.trans h.2⟩
      | true => exact ⟨h.1, h.2.1.trans htarget, h.2.2.1, hturn.trans h.2.2.2⟩

theorem turn_keeps {F : Bytes} (hs : Searching ctx) (hlen : utf8SeqLen lead = some n)
    (hn : n ≤ (lead :: rest).length) (hF : F = lead :: rest ++ R) (hne : ctx.target ≠ ctx.cursor) :
    match utf8Decode (lead :: rest) with
    | none => scanned F (ctx.target - ctx.cursor) = none
    | some (_, m) => m = n ∧
        (ctx.target < ctx.cursor + n → scanned F (ctx.target - ctx.cursor) = some none) ∧
        (ctx.cursor + n ≤ ctx.target → scanned F (ctx.target - ctx.cursor) =
          scanned ((lead :: rest).drop n ++ R) (ctx.target - (ctx.cursor + n))) := by
  have hbefore := hs.before
  have happend : utf8Decode (lead :: (rest ++ R)) = utf8Decode (lead :: rest) := utf8Decode_append hlen hn
  have hle : n ≤ (lead :: (rest ++ R)).length := by
    simp only [List.length_cons, List.length_append] at hn ⊢
    omega
  subst hF
  rw [List.cons_append]
  cases hdecode : utf8Decode (lead :: rest) with
  | none => exact scanned_fault hlen hle (happend.trans hdecode) (by omega)
  | some r =>
      obtain ⟨c, m⟩ := r
      obtain ⟨_, _, heq, hm, -⟩ := utf8Decode_some hdecode
      obtain ⟨rfl, rfl⟩ := List.cons.inj heq
      obtain rfl : m = n := Option.some.inj (hm.symm.trans hlen)
      have hscan := scanned_char (happend.trans hdecode) (show ctx.target - ctx.cursor ≠ 0 by omega)
      refine ⟨rfl, fun hlt => ?_, fun hle => ?_⟩
      · rw [hscan, if_pos (by omega)]
      · rw [hscan, if_neg (by omega), ← List.cons_append, List.drop_append_of_le_length hn, Nat.sub_sub]

theorem scanChunk_keeps (hs : Searching ctx) (hcarry : ctx.carry = []) (hfuel : p.length < fuel) (R : Bytes) :
    Keeps ctx (p ++ R) R ((scanChunk fuel ctx p).map fun r => (r.1, [], r.2)) := by
  induction fuel generalizing ctx p with
  | zero => exact absurd hfuel (Nat.not_lt_zero _)
  | succ fuel ih =>
      have hbefore := hs.before
      cases p with
      | nil =>
          refine ⟨hs, rfl, .inl hcarry, ?_⟩
          rw [hcarry]
          rfl
      | cons lead rest =>
          rw [scanChunk]
          cases hlen : utf8SeqLen lead with
          | none =>
              simp only
              split_ifs with hat
              · refine ⟨rfl, ?_⟩
                rw [List.cons_append, scanned_malformed hlen, hat, Nat.sub_self, if_pos rfl]
              · have hnext : Searching { ctx with cursor := ctx.cursor + 1 } :=
                  ⟨Nat.lt_of_le_of_ne hbefore (Ne.symm hat), hs.unfound, .inl hcarry⟩
                refine (ih hnext hcarry (Nat.lt_of_succ_lt_succ hfuel)).of_turn rfl ?_
                rw [List.cons_append, scanned_malformed hlen, if_neg (by omega), Nat.sub_sub]
          | some needed =>
              simp only
              split_ifs with hshort hat
              · exact ⟨⟨hbefore, hs.unfound, .inr ⟨lead, rest, needed, rfl, hlen, hshort⟩⟩, rfl, .inr rfl, rfl⟩
              · have hn := Nat.not_lt.mp hshort
                refine ⟨rfl, ?_⟩
                rw [hat, Nat.sub_self, List.cons_append, scanned_zero hlen (hn.trans (by simp)), ← List.cons_append,
                  utf8Decode_append hlen hn]
              · have hn := Nat.not_lt.mp hshort
                have hturn := turn_keeps hs hlen hn (R := R) rfl hat
                cases hdecode : utf8Decode (lead :: rest) with
                | none =>
                    rw [hdecode] at hturn
                    exact hturn
                | some r =>
                    rw [hdecode] at hturn
                    obtain ⟨rfl, hmid, hnext⟩ := hturn
                    have hpos := (utf8SeqLen_le hlen).1
                    simp only
                    split_ifs with hover
                    · exact ⟨rfl, hmid hover⟩
                    · have hs' : Searching { ctx with cursor := ctx.cursor + r.2 } :=
                        ⟨Nat.not_lt.mp hover, hs.unfound, .inl hcarry⟩
                      have hleft : ((lead :: rest).drop r.2).length < fuel := by
                        rw [List.length_drop]
                        simp only [List.length_cons] at hfuel hn ⊢
                        omega
                      exact (ih hs' hcarry hleft).of_turn rfl (hnext (Nat.not_lt.mp hover))

/-- Completing a carried sequence takes a turn for each byte, and one to see the end. -/
theorem drainCarry_keeps (hs : Searching ctx) (hfuel : p.length + 1 < fuel) (R : Bytes) :
    Keeps ctx (ctx.carry ++ (p ++ R)) R (drainCarry fuel ctx p) := by
  induction fuel generalizing ctx p with
  | zero => exact absurd hfuel (Nat.not_lt_zero _)
  | succ fuel ih =>
      have hbefore := hs.before
      rw [drainCarry.eq_def]
      simp only
      split
      · rename_i hcarry
        refine ⟨hs, rfl, .inl hcarry, rfl⟩
      · exact ⟨hs, rfl, .inr rfl, rfl⟩
      · rename_i lead carry b rest hcarry
        obtain ⟨n, hlen, hshort⟩ : ∃ n, utf8SeqLen lead = some n ∧ (lead :: carry).length < n := by
          rcases hs.pending with hnil | ⟨_, _, n, hcons, hlen, hshort⟩
          · rw [hcarry] at hnil
            cases hnil
          · rw [hcarry] at hcons hshort
            obtain ⟨rfl, rfl⟩ := List.cons.inj hcons
            exact ⟨n, hlen, hshort⟩
        have hfour := (utf8SeqLen_le hlen).2
        have hroom : carry.length + 1 < 4 := by
          simp only [List.length_cons] at hshort
          omega
        have hmove : ctx.carry ++ (b :: rest ++ R) = lead :: (carry ++ [b]) ++ (rest ++ R) := by
          rw [hcarry]
          simp
        have hlength : (lead :: (carry ++ [b])).length = carry.length + 2 := by simp
        rw [hmove]
        simp only [hroom, if_true, hlen, List.cons_append]
        split_ifs with hmore hat
        · have hs' : Searching { ctx with carry := lead :: (carry ++ [b]) } :=
            ⟨hbefore, hs.unfound, .inr ⟨lead, carry ++ [b], n, rfl, hlen, hmore⟩⟩
          exact (ih hs' (Nat.lt_of_succ_lt_succ hfuel)).of_turn rfl rfl
        · have hn := Nat.not_lt.mp hmore
          refine ⟨rfl, ?_⟩
          rw [hat, Nat.sub_self, scanned_zero hlen (hn.trans (by simp)), ← List.cons_append, utf8Decode_append hlen hn]
        · have hn := Nat.not_lt.mp hmore
          have hturn := turn_keeps hs hlen hn (R := rest ++ R) rfl hat
          cases hdecode : utf8Decode (lead :: (carry ++ [b])) with
          | none =>
              rw [hdecode] at hturn
              exact hturn
          | some r =>
              rw [hdecode] at hturn
              obtain ⟨rfl, hmid, hnext⟩ := hturn
              simp only
              split_ifs with hover
              · exact ⟨rfl, hmid hover⟩
              · have hall : (lead :: (carry ++ [b])).drop r.2 = [] := by
                  refine List.drop_eq_nil_of_le ?_
                  rw [hlength]
                  simp only [List.length_cons] at hshort
                  omega
                have hnext := hnext (Nat.not_lt.mp hover)
                rw [hall] at hnext
                have hs' : Searching { ctx with cursor := ctx.cursor + r.2, carry := [] } :=
                  ⟨Nat.not_lt.mp hover, hs.unfound, .inl rfl⟩
                exact (ih hs' (Nat.lt_of_succ_lt_succ hfuel)).of_turn rfl hnext

theorem charAtVisit_keeps (hs : Searching ctx) (text R : Bytes) :
    Keeps ctx (ctx.carry ++ (text ++ R)) R ((charAtVisit ctx text).map fun r => (r.1, [], r.2)) := by
  have hdrain := drainCarry_keeps hs (Nat.lt_succ_self (text.length + 1)) R
  rw [charAtVisit]
  cases hr : drainCarry (text.length + 2) ctx text with
  | none =>
      rw [hr] at hdrain
      exact hdrain
  | some r =>
      obtain ⟨ctx', p, more⟩ := r
      rw [hr] at hdrain
      cases more with
      | false => exact hdrain
      | true =>
          obtain ⟨hs', htarget, hleft, hscan⟩ := hdrain
          simp only [Option.bind_some, if_true]
          rcases hleft with hcarry | rfl
          · rw [hcarry, List.nil_append] at hscan
            exact (scanChunk_keeps hs' hcarry (Nat.lt_succ_self p.length) R).of_turn htarget hscan
          · exact ⟨hs', htarget, .inr rfl, hscan⟩

theorem visitAll_charAt (hs : Searching ctx) (cs : List Bytes) :
    (visitAll charAtVisit cs ctx).map (fun r => if r.1.found then r.1.result else none) =
      scanned (ctx.carry ++ cs.flatten) (ctx.target - ctx.cursor) := by
  induction cs generalizing ctx with
  | nil =>
      rw [List.flatten_nil, List.append_nil]
      simp only [visitAll, Option.map_some, hs.unfound, Bool.false_eq_true, if_false]
      rcases hs.pending with hnil | ⟨lead, rest, n, hcons, hlen, hshort⟩
      · rw [hnil, scanned]
      · rw [hcons] at hshort ⊢
        rw [scanned_short hlen hshort]
  | cons text cs ih =>
      have hvisit := charAtVisit_keeps hs text cs.flatten
      rw [visitAll, List.flatten_cons]
      cases hr : charAtVisit ctx text with
      | none =>
          rw [hr] at hvisit
          exact hvisit.symm
      | some r =>
          obtain ⟨ctx', more⟩ := r
          rw [hr] at hvisit
          cases more with
          | false =>
              obtain ⟨hfound, hscan⟩ := hvisit
              have hfound : ctx'.found = true := hfound
              rw [hscan]
              simp only [Option.bind_some, Bool.false_eq_true, if_false, Option.map_some, hfound, if_true]
          | true =>
              obtain ⟨hs', htarget, -, hscan⟩ := hvisit
              simp only [Option.bind_some, if_true]
              rw [ih hs', hscan, List.nil_append]

theorem charAt_scanned (hnode : st.node.isToken = false) (hrange : st.node.textRange.contains st.range = true)
    (hfuel : (walkOf st).length < fuel) {o : Nat} (ho : o < (flat st).length) :
    syntaxTextCharAt fuel st (st.range.start + o) = scanned (flat st) o := by
  have hlen := flat_length hrange
  rw [syntaxTextCharAt, if_neg (by omega), if_neg (by rw [TextRange.stop]; omega), forEachChunk_eq hnode hfuel,
    visitAll_charAt ⟨Nat.le_add_right _ _, rfl, .inl rfl⟩, chunks_flat hrange, List.nil_append, Nat.add_sub_cancel_left]

end Visits

section Exact

variable {F : Bytes} {o j : Nat}

theorem flatCharAt_zero (F : Bytes) : flatCharAt F 0 = (utf8Decode F).map Prod.fst := by
  rw [flatCharAt, if_pos rfl]

theorem flatCharAt_char (h : utf8Decode F = some (c, n)) (ho : o ≠ 0) :
    flatCharAt F o = if o < n then none else flatCharAt (F.drop n) (o - n) := by
  have hwidth : width F = n := by rw [width, h]
  rw [flatCharAt, if_neg ho, hwidth]

theorem flatCharAt_byte (h : utf8Decode (lead :: rest) = none) (o : Nat) :
    flatCharAt (lead :: rest) (o + 1) = flatCharAt rest o := by
  have hwidth : width (lead :: rest) = 1 := by rw [width, h]
  rw [flatCharAt, if_neg (Nat.succ_ne_zero o), hwidth, if_neg (by omega), List.drop_one, List.tail_cons,
    Nat.add_sub_cancel]

theorem flatCharAt_nil (o : Nat) : flatCharAt [] o = none := by
  induction o with
  | zero => exact flatCharAt_zero []
  | succ o ih =>
      have hwidth : width [] = 1 := rfl
      rw [flatCharAt, if_neg (Nat.succ_ne_zero o), hwidth, if_neg (by omega), List.drop_nil, Nat.add_sub_cancel]
      exact ih

/-- Behind bytes without characters every byte is read. -/
theorem flatCharAt_first (h : ∀ i < j, utf8Decode (F.drop i) = none) :
    flatCharAt F j = (utf8Decode (F.drop j)).map Prod.fst := by
  induction j generalizing F with
  | zero => rw [flatCharAt_zero, List.drop_zero]
  | succ j ih =>
      have hF : utf8Decode F = none := h 0 (Nat.succ_pos j)
      cases F with
      | nil =>
          rw [flatCharAt_nil, List.drop_nil]
          rfl
      | cons lead rest =>
          rw [flatCharAt_byte hF, List.drop_succ_cons]
          exact ih fun i hi => by simpa using h (i + 1) (Nat.succ_lt_succ hi)

theorem utf8Decode_ascii (h : utf8SeqLen lead = some 1) (rest : Bytes) :
    utf8Decode (lead :: rest) = some (lead.toNat, 1) := by
  unfold utf8Decode
  simp only [h]

/-- A text without characters as far as the scan sees has none at all. -/
theorem no_chars (h : ∀ o < F.length, flatCharAt F o = none) (j : Nat) : utf8Decode (F.drop j) = none := by
  induction j using Nat.strongRecOn with
  | ind j ih =>
      by_cases hj : j < F.length
      · have hfirst := flatCharAt_first ih
        rw [h j hj] at hfirst
        exact Option.map_eq_none_iff.mp hfirst.symm
      · rw [List.drop_eq_nil_of_le (Nat.not_lt.mp hj)]
        rfl

theorem scanned_readable (h : ∀ o < F.length, scanned F o = some (flatCharAt F o)) : Readable F := by
  induction hlength : F.length using Nat.strongRecOn generalizing F with
  | ind m ih =>
      subst hlength
      cases F with
      | nil => exact .nil
      | cons lead rest =>
          cases hlen : utf8SeqLen lead with
          | none =>
              refine .byte hlen (ih rest.length (Nat.lt_succ_self _) (fun o ho => ?_) rfl)
              have hnext := h (o + 1) (Nat.succ_lt_succ ho)
              rwa [scanned_malformed hlen, if_neg (Nat.succ_ne_zero o), Nat.add_sub_cancel,
                flatCharAt_byte (utf8Decode_malformed hlen)] at hnext
          | some n =>
              by_cases hshort : (lead :: rest).length < n
              · have hnone : ∀ o < (lead :: rest).length, flatCharAt (lead :: rest) o = none := by
                  intro o ho
                  have hscan := h o ho
                  rw [scanned_short hlen hshort] at hscan
                  exact (Option.some.inj hscan).symm
                exact .cut hlen hshort fun j => no_chars hnone (j + 1)
              · have hn := Nat.not_lt.mp hshort
                cases hdecode : utf8Decode (lead :: rest) with
                | none =>
                    have hpos := (utf8SeqLen_le hlen).1
                    have hone : n ≠ 1 := by
                      rintro rfl
                      rw [utf8Decode_ascii hlen] at hdecode
                      cases hdecode
                    have hfault := h 1 (by omega)
                    rw [scanned_fault hlen hn hdecode Nat.one_ne_zero] at hfault
                    cases hfault
                | some r =>
                    obtain ⟨c, m⟩ := r
                    obtain ⟨_, _, -, -, hpos, hle⟩ := utf8Decode_some hdecode
                    have hshrinks : ((lead :: rest).drop m).length < (lead :: rest).length := by
                      rw [List.length_drop]
                      omega
                    refine .char hdecode (ih _ hshrinks (fun o ho => ?_) rfl)
                    rw [List.length_drop] at ho
                    have hnext := h (o + m) (by omega)
                    rwa [scanned_char hdecode (by omega), flatCharAt_char hdecode (by omega), if_neg (by omega),
                      if_neg (by omega), Nat.add_sub_cancel] at hnext

theorem Readable.scanned (h : Readable F) (ho : o < F.length) : scanned F o = some (flatCharAt F o) := by
  induction h generalizing o with
  | nil => exact absurd ho (Nat.not_lt_zero _)
  | @char F c n hdecode hrest ih =>
      cases Nat.eq_zero_or_pos o with
      | inl hzero =>
          obtain ⟨lead, rest, rfl, hlen, -, hle⟩ := utf8Decode_some hdecode
          rw [hzero, scanned_zero hlen hle, flatCharAt_zero]
      | inr hpos =>
          rw [scanned_char hdecode (Nat.ne_of_gt hpos), flatCharAt_char hdecode (Nat.ne_of_gt hpos)]
          split_ifs with hin
          · rfl
          · exact ih (by rw [List.length_drop]; omega)
  | @byte lead F hlen hrest ih =>
      rw [scanned_malformed hlen]
      cases o with
      | zero => rw [if_pos rfl, flatCharAt_zero, utf8Decode_malformed hlen, Option.map_none]
      | succ o =>
          rw [if_neg (Nat.succ_ne_zero o), Nat.add_sub_cancel, flatCharAt_byte (utf8Decode_malformed hlen)]
          exact ih (Nat.lt_of_succ_lt_succ ho)
  | @cut lead F n hlen hshort hnone =>
      have hall (i : Nat) : utf8Decode ((lead :: F).drop i) = none := by
        cases i with
        | zero => exact utf8Decode_short hlen hshort
        | succ i => exact hnone i
      rw [scanned_short hlen hshort, flatCharAt_first fun i _ => hall i, hall o, Option.map_none]

/-- The visits find the characters of a text exactly when it can be read. -/
theorem scanned_iff (F : Bytes) : (∀ o < F.length, scanned F o = some (flatCharAt F o)) ↔ Readable F :=
  ⟨scanned_readable, fun h _ => h.scanned⟩

end Exact

end Ore.TextChars
