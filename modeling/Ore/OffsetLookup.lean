import Ore.RedHandles

namespace Ore.OffsetLookup

open SyntaxKinds GreenTree RedTree RedHandles

inductive TokenAtOffset where
  | none
  | single (token : Red)
  | between (left right : Red)

/-- An element has text and an offset inside it or at one of its ends. -/
def touches (offset : Nat) (c : Red) : Bool :=
  0 < textLen c.green && c.offset ≤ offset && offset ≤ c.textRange.stop

/-- What the results for the two children at a boundary give. -/
def TokenAtOffset.meet : TokenAtOffset → TokenAtOffset → TokenAtOffset
  | .single left, .single right => .between left right
  | _, _ => .none

def tokenAtOffsetRecurse : Nat → Red → Nat → TokenAtOffset
  | 0, _, _ => .none
  | fuel + 1, node, offset =>
      if textLen node.green = 0 then .none
      else
        let recurseElem (e : Red) := if e.isToken then .single e else tokenAtOffsetRecurse fuel e offset
        match (childHandles node).filter (touches offset) with
        | [] => .none
        | [left] => recurseElem left
        | left :: right :: _ => (recurseElem left).meet (recurseElem right)

def syntaxTokenAtOffset (root : Red) (offset : Nat) : TokenAtOffset :=
  if offset < root.textRange.start ∨ root.textRange.stop < offset then .none
  else tokenAtOffsetRecurse (depth root.green + 1) root offset

def syntaxNodeChildOrTokenAtRange (n : Red) (range : TextRange) : Option Red :=
  (childHandles n).find? fun c => 0 < textLen c.green && c.textRange.contains range

def coveringTurn (range : TextRange) (cur : Red) : Red ⊕ Red :=
  if cur.isToken then .inr cur
  else match syntaxNodeChildOrTokenAtRange cur range with
    | none => .inr cur
    | some child => .inl child

def syntaxNodeCoveringElement (n : Red) (range : TextRange) : Option Red :=
  if !n.textRange.contains range then none
  else Loop.run (coveringTurn range) (depth n.green + 1) n

/-- Elements that stand one behind the other, without gaps. -/
def Tiled : Nat → List Red → Prop
  | _, [] => True
  | o, c :: cs => c.offset = o ∧ Tiled (o + textLen c.green) cs

def textOf (cs : List Red) : Nat := (cs.map fun c => textLen c.green).sum

variable {e n p c d t root : Red} {cs ds : List Red} {o b i j : Nat}

@[simp] theorem textOf_nil : textOf [] = 0 := rfl

@[simp] theorem textOf_cons (c : Red) (cs : List Red) : textOf (c :: cs) = textLen c.green + textOf cs := rfl

@[simp] theorem textOf_append (cs ds : List Red) : textOf (cs ++ ds) = textOf cs + textOf ds := by
  simp [textOf]

theorem tiled_append : Tiled b (cs ++ ds) ↔ Tiled b cs ∧ Tiled (b + textOf cs) ds := by
  induction cs generalizing b with
  | nil => simp [Tiled]
  | cons c cs ih =>
      rw [List.cons_append, Tiled, Tiled, ih, textOf_cons, and_assoc, Nat.add_assoc]

theorem tiled_sideBySide (p : Red) (i o : Nat) (gs : List Green) : Tiled o (sideBySide p i o gs) := by
  induction gs generalizing i o with
  | nil => trivial
  | cons g gs ih => exact ⟨rfl, ih (i + 1) (o + textLen g)⟩

theorem tiled_childHandles (p : Red) : Tiled p.offset (childHandles p) := tiled_sideBySide p 0 p.offset p.children

theorem textOf_childHandles (h : p.isToken = false) : textOf (childHandles p) = textLen p.green := by
  rw [textOf, childHandles, sideBySide_textLen, node_textLen h]

theorem textOf_tokens (e : Red) : textOf (tokens e) = textLen e.green := tokens_textLen e

theorem tiled_flatMap (h : ∀ c ∈ cs, Tiled c.offset (tokens c)) (hcs : Tiled b cs) : Tiled b (cs.flatMap tokens) := by
  induction cs generalizing b with
  | nil => trivial
  | cons c cs ih =>
      obtain ⟨rfl, hcs⟩ := hcs
      rw [List.flatMap_cons, tiled_append, textOf_tokens]
      exact ⟨h c (List.mem_cons_self ..), ih (fun d hd => h d (List.mem_cons_of_mem _ hd)) hcs⟩

theorem tiled_tokens (e : Red) : Tiled e.offset (tokens e) := by
  induction e using Red.below_induction with
  | h e ih =>
      cases htoken : e.isToken with
      | true =>
          rw [tokens_of_token htoken]
          exact ⟨rfl, trivial⟩
      | false =>
          rw [tokens_of_node htoken]
          refine tiled_flatMap (fun c hc => ?_) (tiled_childHandles e)
          obtain ⟨i, hchild⟩ := mem_childHandles.mp hc
          exact ih i c hchild

theorem tiled_inside (h : Tiled b cs) (hc : c ∈ cs) : b ≤ c.offset ∧ c.textRange.stop ≤ b + textOf cs := by
  induction cs generalizing b with
  | nil => cases hc
  | cons d cs ih =>
      obtain ⟨rfl, hcs⟩ := h
      rw [textOf_cons]
      rcases List.mem_cons.mp hc with rfl | hc
      · exact ⟨Nat.le_refl _, by rw [TextRange.stop, Red.textRange]; simp only; omega⟩
      · obtain ⟨hbegin, hend⟩ := ih hcs hc
        exact ⟨by omega, by omega⟩

theorem touches_iff : touches o c = true ↔ 0 < textLen c.green ∧ c.offset ≤ o ∧ o ≤ c.offset + textLen c.green := by
  simp only [touches, Bool.and_eq_true, decide_eq_true_eq, and_assoc]
  rfl

/-- Nothing touches an offset before the elements, none behind them. -/
theorem touching_outside (h : Tiled b cs) (ho : o < b ∨ b + textOf cs < o) : cs.filter (touches o) = [] := by
  induction cs generalizing b with
  | nil => rfl
  | cons c cs ih =>
      obtain ⟨rfl, hcs⟩ := h
      rw [textOf_cons] at ho
      have hc : ¬ touches o c = true := by
        rw [touches_iff]
        omega
      rw [List.filter_cons_of_neg hc]
      exact ih hcs (by omega)

theorem touching_blank (h : textOf cs = 0) : cs.filter (touches o) = [] := by
  induction cs with
  | nil => rfl
  | cons c cs ih =>
      rw [textOf_cons] at h
      have hc : ¬ touches o c = true := by
        rw [touches_iff]
        omega
      rw [List.filter_cons_of_neg hc]
      exact ih (by omega)

theorem touching_start (h : Tiled b cs) (hpos : 0 < textOf cs) : ∃ c, cs.filter (touches b) = [c] ∧ c.offset = b := by
  induction cs with
  | nil => exact absurd hpos (Nat.lt_irrefl 0)
  | cons c cs ih =>
      obtain ⟨rfl, hcs⟩ := h
      rw [textOf_cons] at hpos
      by_cases hlen : textLen c.green = 0
      · have hc : ¬ touches c.offset c = true := by
          rw [touches_iff]
          omega
        rw [hlen, Nat.add_zero] at hcs
        rw [List.filter_cons_of_neg hc]
        exact ih hcs (by omega)
      · have hc : touches c.offset c = true :=
          touches_iff.mpr ⟨Nat.pos_of_ne_zero hlen, Nat.le_refl _, Nat.le_add_right ..⟩
        rw [List.filter_cons_of_pos hc, touching_outside hcs (.inl (by omega))]
        exact ⟨c, rfl, rfl⟩

/-- What touches an offset behind the first byte: one element, or two that meet there. -/
theorem touching_cases (h : Tiled b cs) (hb : b < o) (ho : o ≤ b + textOf cs) :
    (∃ c, cs.filter (touches o) = [c] ∧ c.offset < o ∧
      (o < c.textRange.stop ∨ o = c.textRange.stop ∧ o = b + textOf cs)) ∨
    ∃ l r, cs.filter (touches o) = [l, r] ∧ l.textRange.stop = o ∧ r.offset = o ∧ o < b + textOf cs := by
  induction cs generalizing b with
  | nil =>
      rw [textOf_nil] at ho
      omega
  | cons c cs ih =>
      obtain ⟨rfl, hcs⟩ := h
      rw [textOf_cons] at ho ⊢
      have hstop : c.textRange.stop = c.offset + textLen c.green := rfl
      rcases Nat.lt_trichotomy (c.offset + textLen c.green) o with hlt | heq | hgt
      · have hc : ¬ touches o c = true := by
          rw [touches_iff]
          omega
        rw [List.filter_cons_of_neg hc, ← Nat.add_assoc]
        exact ih hcs hlt (by omega)
      · have hc : touches o c = true := touches_iff.mpr ⟨by omega, by omega, by omega⟩
        rw [List.filter_cons_of_pos hc]
        by_cases hrest : textOf cs = 0
        · rw [touching_blank hrest]
          exact .inl ⟨c, rfl, by omega, .inr ⟨by omega, by omega⟩⟩
        · obtain ⟨r, hr, hoffset⟩ := touching_start hcs (Nat.pos_of_ne_zero hrest)
          rw [heq] at hr hoffset
          rw [hr]
          exact .inr ⟨c, r, rfl, by omega, hoffset, by omega⟩
      · have hc : touches o c = true := touches_iff.mpr ⟨by omega, by omega, by omega⟩
        rw [List.filter_cons_of_pos hc, touching_outside hcs (.inl hgt)]
        exact .inl ⟨c, rfl, by omega, .inl (by omega)⟩

theorem touching_tokens (h : e.isToken = false) :
    (tokens e).filter (touches o) =
      ((childHandles e).filter (touches o)).flatMap fun c => (tokens c).filter (touches o) := by
  rw [tokens_of_node h, List.filter_flatMap]
  induction childHandles e with
  | nil => rfl
  | cons c cs ih =>
      rw [List.flatMap_cons, ih]
      by_cases hc : touches o c = true
      · rw [List.filter_cons_of_pos hc, List.flatMap_cons]
      · have hnone : (tokens c).filter (touches o) = [] := by
          rw [touches_iff] at hc
          have htext := textOf_tokens c
          by_cases hlen : textLen c.green = 0
          · exact touching_blank (htext.trans hlen)
          · exact touching_outside (tiled_tokens c) (by omega)
        rw [List.filter_cons_of_neg hc, hnone, List.nil_append]

def ofTouching : List Red → TokenAtOffset
  | [] => .none
  | [t] => .single t
  | l :: r :: _ => .between l r

theorem touching_end (h : Tiled b cs) (hpos : 0 < textOf cs) :
    ∃ c, cs.filter (touches (b + textOf cs)) = [c] ∧ c.textRange.stop = b + textOf cs := by
  rcases touching_cases h (by omega) (Nat.le_refl (b + textOf cs)) with
    ⟨c, hc, -, hlt | ⟨heq, -⟩⟩ | ⟨l, r, -, -, -, hlt⟩
  · have hmem : c ∈ cs.filter (touches (b + textOf cs)) := by rw [hc]; exact List.mem_singleton_self c
    exact absurd hlt (Nat.not_lt.mpr (tiled_inside h (List.mem_filter.mp hmem).1).2)
  · exact ⟨c, hc, heq.symm⟩
  · exact absurd hlt (Nat.lt_irrefl _)

theorem recurse_eq {fuel : Nat} (hnode : n.isToken = false) (hfuel : depth n.green < fuel) (hpos : 0 < textLen n.green)
    (hb : n.offset ≤ o) (ho : o ≤ n.textRange.stop) :
    tokenAtOffsetRecurse fuel n o = ofTouching ((tokens n).filter (touches o)) := by
  induction fuel generalizing n with
  | zero => exact absurd hfuel (Nat.not_lt_zero _)
  | succ fuel ih =>
      have helem (c : Red) (hmem : c ∈ (childHandles n).filter (touches o)) :
          (if c.isToken then TokenAtOffset.single c else tokenAtOffsetRecurse fuel c o) =
            ofTouching ((tokens c).filter (touches o)) := by
        obtain ⟨hc, htouches⟩ := List.mem_filter.mp hmem
        obtain ⟨i, hchild⟩ := mem_childHandles.mp hc
        have hdepth := wrapChild_depth hchild
        cases htoken : c.isToken with
        | true =>
            rw [tokens_of_token htoken, List.filter_cons_of_pos htouches]
            rfl
        | false =>
            rw [touches_iff] at htouches
            exact ih htoken (by omega) htouches.1 htouches.2.1 htouches.2.2
      have htiled := tiled_childHandles n
      have htext := textOf_childHandles hnode
      have hstop : n.textRange.stop = n.offset + textLen n.green := rfl
      rw [tokenAtOffsetRecurse, if_neg (Nat.ne_of_gt hpos), touching_tokens hnode]
      have hcases : (∃ c, (childHandles n).filter (touches o) = [c]) ∨
          ∃ l r, (childHandles n).filter (touches o) = [l, r] ∧ l.textRange.stop = o ∧ r.offset = o := by
        rcases Nat.eq_or_lt_of_le hb with rfl | hb
        · obtain ⟨c, hc, -⟩ := touching_start htiled (htext ▸ hpos)
          exact .inl ⟨c, hc⟩
        · rcases touching_cases htiled hb (by omega) with ⟨c, hc, -⟩ | ⟨l, r, hlr, hl, hr, -⟩
          · exact .inl ⟨c, hc⟩
          · exact .inr ⟨l, r, hlr, hl, hr⟩
      rcases hcases with ⟨c, hc⟩ | ⟨l, r, hlr, hl, hr⟩
      · simp only [hc, List.flatMap_cons, List.flatMap_nil, List.append_nil]
        exact helem c (by rw [hc]; exact List.mem_singleton_self c)
      · have hlmem : l ∈ (childHandles n).filter (touches o) := by rw [hlr]; exact List.mem_cons_self ..
        have hrmem : r ∈ (childHandles n).filter (touches o) := by rw [hlr]; simp
        have hlpos := (touches_iff.mp (List.mem_filter.mp hlmem).2).1
        have hrpos := (touches_iff.mp (List.mem_filter.mp hrmem).2).1
        obtain ⟨t, ht, -⟩ := touching_end (tiled_tokens l) (by rw [textOf_tokens]; exact hlpos)
        obtain ⟨u, hu, -⟩ := touching_start (tiled_tokens r) (by rw [textOf_tokens]; exact hrpos)
        rw [textOf_tokens] at ht
        have hlstop : l.offset + textLen l.green = o := hl
        rw [hlstop] at ht
        rw [hr] at hu
        simp only [hlr, List.flatMap_cons, List.flatMap_nil, List.append_nil]
        rw [helem l hlmem, helem r hrmem, ht, hu]
        rfl

theorem syntaxTokenAtOffset_eq (hnode : n.isToken = false) (hb : n.offset ≤ o) (ho : o ≤ n.textRange.stop) :
    syntaxTokenAtOffset n o = ofTouching ((tokens n).filter (touches o)) := by
  have hstart : n.textRange.start = n.offset := rfl
  rw [syntaxTokenAtOffset, if_neg (by omega)]
  by_cases hpos : 0 < textLen n.green
  · exact recurse_eq hnode (Nat.lt_succ_self _) hpos hb ho
  · have hlen : textLen n.green = 0 := by omega
    rw [tokenAtOffsetRecurse, if_pos hlen, touching_blank ((textOf_tokens n).trans hlen)]
    rfl

/-- The text of a token holds an offset, or the offset is at an outer end of the text of
the node and of the token. -/
def Within (n t : Red) (o : Nat) : Prop :=
  t.offset < o ∧ o < t.textRange.stop ∨ o = n.offset ∧ t.offset = o ∨ o = n.textRange.stop ∧ t.textRange.stop = o

theorem touching_node (hpos : 0 < textLen n.green) (hb : n.offset ≤ o) (ho : o ≤ n.textRange.stop) :
    (∃ t, (tokens n).filter (touches o) = [t] ∧ Within n t o) ∨
    ∃ l r, (tokens n).filter (touches o) = [l, r] ∧ l.textRange.stop = o ∧ r.offset = o ∧ n.offset < o ∧
      o < n.textRange.stop := by
  have htiled := tiled_tokens n
  have htext := textOf_tokens n
  have hstop : n.textRange.stop = n.offset + textLen n.green := rfl
  rcases Nat.eq_or_lt_of_le hb with rfl | hb
  · obtain ⟨t, ht, hoffset⟩ := touching_start htiled (htext ▸ hpos)
    exact .inl ⟨t, ht, .inr (.inl ⟨rfl, hoffset⟩)⟩
  · rcases touching_cases htiled hb (by omega) with ⟨t, ht, hoffset, hlt | ⟨heq, hend⟩⟩ | ⟨l, r, hlr, hl, hr, hlt⟩
    · exact .inl ⟨t, ht, .inl ⟨hoffset, hlt⟩⟩
    · exact .inl ⟨t, ht, .inr (.inr ⟨by omega, heq.symm⟩)⟩
    · exact .inr ⟨l, r, hlr, hl, hr, hb, by omega⟩

theorem token_at_offset_exact (hnode : n.isToken = false) (hb : n.offset ≤ o) (ho : o ≤ n.textRange.stop) :
    (syntaxTokenAtOffset n o = .none ↔ textLen n.green = 0) ∧
    (∀ t, syntaxTokenAtOffset n o = .single t ↔ t ∈ tokens n ∧ 0 < textLen t.green ∧ Within n t o) ∧
    ∀ l r, syntaxTokenAtOffset n o = .between l r ↔ l ∈ tokens n ∧ r ∈ tokens n ∧ 0 < textLen l.green ∧
      0 < textLen r.green ∧ l.textRange.stop = o ∧ r.offset = o := by
  have htouch (t : Red) (ht : t ∈ tokens n) (hpos : 0 < textLen t.green) (hbegin : t.offset ≤ o)
      (hend : o ≤ t.textRange.stop) : t ∈ (tokens n).filter (touches o) :=
    List.mem_filter.mpr ⟨ht, touches_iff.mpr ⟨hpos, hbegin, hend⟩⟩
  have hstop (t : Red) : t.textRange.stop = t.offset + textLen t.green := rfl
  rw [syntaxTokenAtOffset_eq hnode hb ho]
  by_cases hlen : textLen n.green = 0
  · have hblank (t : Red) (ht : t ∈ tokens n) : textLen t.green = 0 := by
      have hinside := tiled_inside (tiled_tokens n) ht
      have htext := textOf_tokens n
      rw [hstop] at hinside
      omega
    rw [touching_blank ((textOf_tokens n).trans hlen), ofTouching]
    refine ⟨⟨fun _ => hlen, fun _ => rfl⟩, fun t => ⟨nofun, fun ⟨ht, hpos, _⟩ => ?_⟩,
      fun l r => ⟨nofun, fun ⟨hl, _, hpos, _⟩ => ?_⟩⟩
    · exact absurd (hblank t ht) (Nat.ne_of_gt hpos)
    · exact absurd (hblank l hl) (Nat.ne_of_gt hpos)
  · rcases touching_node (Nat.pos_of_ne_zero hlen) hb ho with
      ⟨t, htouching, hwithin⟩ | ⟨l, r, htouching, hl, hr, hlo, hro⟩
    · have hmem : t ∈ (tokens n).filter (touches o) := by rw [htouching]; exact List.mem_singleton_self t
      obtain ⟨ht, htouches⟩ := List.mem_filter.mp hmem
      have hpos := (touches_iff.mp htouches).1
      rw [htouching, ofTouching]
      refine ⟨⟨nofun, fun h => absurd h hlen⟩, fun u => ⟨?_, fun ⟨hu, hupos, hin⟩ => ?_⟩,
        fun l r => ⟨nofun, fun ⟨hl, hr, hlpos, hrpos, hlo, hro⟩ => ?_⟩⟩
      · rintro ⟨⟩
        exact ⟨ht, hpos, hwithin⟩
      · have hmem' : u ∈ (tokens n).filter (touches o) := by
          rw [Within] at hin
          have := hstop u
          exact htouch u hu hupos (by omega) (by omega)
        rw [htouching, List.mem_singleton] at hmem'
        rw [hmem']
      · have hlmem := htouch l hl hlpos (by have := hstop l; omega) (by omega)
        have hrmem := htouch r hr hrpos (by omega) (by have := hstop r; omega)
        rw [htouching, List.mem_singleton] at hlmem hrmem
        rw [hlmem, hstop] at hlo
        rw [hrmem] at hro
        omega
    · have hlmem : l ∈ (tokens n).filter (touches o) := by rw [htouching]; exact List.mem_cons_self ..
      have hrmem : r ∈ (tokens n).filter (touches o) := by rw [htouching]; simp
      obtain ⟨hlt, hltouches⟩ := List.mem_filter.mp hlmem
      obtain ⟨hrt, hrtouches⟩ := List.mem_filter.mp hrmem
      have hlpos := (touches_iff.mp hltouches).1
      have hrpos := (touches_iff.mp hrtouches).1
      have hlstop := hstop l
      have hrstop := hstop r
      have hnstop := hstop n
      have hpair (u : Red) (hu : u ∈ (tokens n).filter (touches o)) : u = l ∨ u = r := by
        rw [htouching] at hu
        simpa using hu
      rw [htouching, ofTouching]
      refine ⟨⟨nofun, fun h => absurd h hlen⟩, fun u => ⟨nofun, fun ⟨hu, hupos, hin⟩ => ?_⟩,
        fun l' r' => ⟨?_, fun ⟨hl', hr', hlpos', hrpos', hlo', hro'⟩ => ?_⟩⟩
      · rw [Within] at hin
        have hustop := hstop u
        rcases hpair u (htouch u hu hupos (by omega) (by omega)) with rfl | rfl <;> omega
      · rintro ⟨⟩
        exact ⟨hlt, hrt, hlpos, hrpos, hl, hr⟩
      · have hlstop' := hstop l'
        have hrstop' := hstop r'
        rcases hpair l' (htouch l' hl' hlpos' (by omega) (by omega)) with rfl | rfl
        · rcases hpair r' (htouch r' hr' hrpos' (by omega) (by omega)) with rfl | rfl
          · omega
          · rfl
        · omega

theorem contains_iff {outer inner : TextRange} :
    outer.contains inner = true ↔ outer.start ≤ inner.start ∧ inner.stop ≤ outer.stop := by
  simp only [TextRange.contains, Bool.and_eq_true, decide_eq_true_eq]

theorem child_inside (h : wrapChild p i = some c) : p.textRange.contains c.textRange = true := by
  have hnode := wrapChild_node h
  obtain ⟨hbegin, hend⟩ := tiled_inside (tiled_childHandles p) (mem_childHandles.mpr ⟨i, h⟩)
  rw [textOf_childHandles hnode] at hend
  exact contains_iff.mpr ⟨hbegin, hend⟩

theorem contains_trans {a b c : TextRange} (hab : a.contains b = true) (hbc : b.contains c = true) :
    a.contains c = true := by
  rw [contains_iff] at *
  omega

theorem below_inside (h : Below e d) : e.textRange.contains d.textRange = true := by
  induction h with
  | self => exact contains_iff.mpr ⟨Nat.le_refl _, Nat.le_refl _⟩
  | child i _ hchild ih => exact contains_trans ih (child_inside hchild)

theorem holding_child_unique {range : TextRange} (hrange : 0 < range.length) (h : Tiled b cs) (hc : c ∈ cs)
    (hd : d ∈ cs)
    (hcr : c.textRange.contains range = true) (hdr : d.textRange.contains range = true) : c = d := by
  induction cs generalizing b with
  | nil => cases hc
  | cons a cs ih =>
      obtain ⟨rfl, hcs⟩ := h
      have hstop : range.stop = range.start + range.length := rfl
      have hsep (x : Red) (hx : x ∈ cs) (hxr : x.textRange.contains range = true)
          (har : a.textRange.contains range = true) : False := by
        rw [contains_iff] at hxr har
        have hinside := (tiled_inside hcs hx).1
        have hastop : a.textRange.stop = a.offset + textLen a.green := rfl
        have hxstart : x.textRange.start = x.offset := rfl
        omega
      rcases List.mem_cons.mp hc with rfl | hc'
      · rcases List.mem_cons.mp hd with rfl | hd'
        · rfl
        · exact (hsep d hd' hdr hcr).elim
      · rcases List.mem_cons.mp hd with rfl | hd'
        · exact (hsep c hc' hcr hdr).elim
        · exact ih hcs hc' hd'

/-- Below an element and around a range with bytes in it, nothing is smaller than what
the descent gives. -/
theorem covering_run {range : TextRange} (hrange : 0 < range.length) {fuel : Nat} (hfuel : depth e.green < fuel)
    (he : e.textRange.contains range = true) :
    ∃ r, Loop.run (coveringTurn range) fuel e = some r ∧ Below e r ∧ r.textRange.contains range = true ∧
      ∀ d, Below e d → d.textRange.contains range = true → Below d r := by
  induction fuel generalizing e with
  | zero => exact absurd hfuel (Nat.not_lt_zero _)
  | succ fuel ih =>
      -- an element around the range is this one, or is below the child that holds the range
      have hbelow (d : Red) (hd : Below e d) (hdr : d.textRange.contains range = true) :
          d = e ∨ ∃ i c, wrapChild e i = some c ∧ Below c d ∧ c.textRange.contains range = true := by
        rcases hd.cases_child with rfl | ⟨i, c, hchild, hcd⟩
        · exact .inl rfl
        · exact .inr ⟨i, c, hchild, hcd, contains_trans (below_inside hcd) hdr⟩
      rw [Loop.run, coveringTurn]
      cases htoken : e.isToken with
      | true =>
          refine ⟨e, rfl, .self, he, fun d hd hdr => ?_⟩
          rcases hbelow d hd hdr with rfl | ⟨i, c, hchild, -⟩
          · exact .self
          · exact absurd (wrapChild_node hchild) (by simp [htoken])
      | false =>
          simp only [Bool.false_eq_true, if_false]
          cases hfind : syntaxNodeChildOrTokenAtRange e range with
          | none =>
              refine ⟨e, rfl, .self, he, fun d hd hdr => ?_⟩
              rcases hbelow d hd hdr with rfl | ⟨i, c, hchild, -, hcr⟩
              · exact .self
              · have hnone := List.find?_eq_none.mp hfind c (mem_childHandles.mpr ⟨i, hchild⟩)
                have hpos : 0 < textLen c.green := by
                  rw [contains_iff] at hcr
                  have hstop : range.stop = range.start + range.length := rfl
                  have hcstop : c.textRange.stop = c.textRange.start + textLen c.green := rfl
                  omega
                exact absurd hcr (by simpa [hpos] using hnone)
          | some c =>
              have hc : c ∈ childHandles e := List.mem_of_find?_eq_some hfind
              have hcr : c.textRange.contains range = true := by
                have hfound := List.find?_some hfind
                simp only [Bool.and_eq_true] at hfound
                exact hfound.2
              obtain ⟨i, hchild⟩ := mem_childHandles.mp hc
              have hdepth := wrapChild_depth hchild
              obtain ⟨r, hr, hcbelow, hrr, hleast⟩ := ih (by omega) hcr
              refine ⟨r, hr, (Below.child i .self hchild).trans hcbelow, hrr, fun d hd hdr => ?_⟩
              rcases hbelow d hd hdr with rfl | ⟨j, c', hchild', hcd, hcr'⟩
              · exact (Below.child i .self hchild).trans hcbelow
              · obtain rfl := holding_child_unique hrange (tiled_childHandles e) hc
                  (mem_childHandles.mpr ⟨j, hchild'⟩) hcr hcr'
                exact hleast d hcd hdr

/-- For a range without bytes the descent gives the first token that touches it. -/
theorem covering_empty {fuel : Nat} (hfuel : depth e.green < fuel) (htouches : touches o e = true) :
    ∃ t, Loop.run (coveringTurn ⟨o, 0⟩) fuel e = some t ∧ ((tokens e).filter (touches o)).head? = some t := by
  induction fuel generalizing e with
  | zero => exact absurd hfuel (Nat.not_lt_zero _)
  | succ fuel ih =>
      rw [Loop.run, coveringTurn]
      cases htoken : e.isToken with
      | true =>
          refine ⟨e, rfl, ?_⟩
          rw [tokens_of_token htoken, List.filter_cons_of_pos htouches]
          rfl
      | false =>
          have hfind : syntaxNodeChildOrTokenAtRange e ⟨o, 0⟩ = ((childHandles e).filter (touches o)).head? := by
            rw [List.head?_filter, syntaxNodeChildOrTokenAtRange]
            congr 1
            funext c
            rw [touches, TextRange.contains, Bool.and_assoc]
            rfl
          obtain ⟨hpos, hb, ho⟩ := touches_iff.mp htouches
          have hne : (childHandles e).filter (touches o) ≠ [] := by
            intro hnil
            have htiled := tiled_childHandles e
            have htext := textOf_childHandles htoken
            rcases Nat.eq_or_lt_of_le hb with rfl | hb
            · obtain ⟨c, hc, -⟩ := touching_start htiled (htext ▸ hpos)
              rw [hnil] at hc
              cases hc
            · rcases touching_cases htiled hb (by omega) with ⟨c, hc, -⟩ | ⟨l, r, hlr, -⟩
              · rw [hnil] at hc
                cases hc
              · rw [hnil] at hlr
                cases hlr
          obtain ⟨c, cs, hsplit⟩ := List.exists_cons_of_ne_nil hne
          have hmem : c ∈ (childHandles e).filter (touches o) := by rw [hsplit]; exact List.mem_cons_self ..
          obtain ⟨hc, hctouches⟩ := List.mem_filter.mp hmem
          obtain ⟨i, hchild⟩ := mem_childHandles.mp hc
          have hdepth := wrapChild_depth hchild
          obtain ⟨t, hrun, hhead⟩ := ih (by omega) hctouches
          rw [hsplit] at hfind
          simp only [Bool.false_eq_true, if_false, hfind, List.head?_cons]
          refine ⟨t, hrun, ?_⟩
          obtain ⟨ts, hts⟩ := List.head?_eq_some_iff.mp hhead
          rw [touching_tokens htoken, hsplit, List.flatMap_cons, hts]
          rfl

/-- The lookup of an offset is exact, also at boundaries; the element around a range
is the smallest when the range has bytes in it, and for an empty range the token at its
offset, the left one of two. -/
theorem offset_lookup (n : Red) (hnode : n.isToken = false) :
    (∀ o, n.offset ≤ o → o ≤ n.textRange.stop →
      (syntaxTokenAtOffset n o = .none ↔ textLen n.green = 0) ∧
      (∀ t, syntaxTokenAtOffset n o = .single t ↔ t ∈ tokens n ∧ 0 < textLen t.green ∧ Within n t o) ∧
      ∀ l r, syntaxTokenAtOffset n o = .between l r ↔ l ∈ tokens n ∧ r ∈ tokens n ∧ 0 < textLen l.green ∧
        0 < textLen r.green ∧ l.textRange.stop = o ∧ r.offset = o) ∧
    ∀ range, if n.textRange.contains range then ∃ e, syntaxNodeCoveringElement n range = some e ∧
        (0 < range.length → Below n e ∧ e.textRange.contains range = true ∧
          ∀ d, Below n d → d.textRange.contains range = true → Below d e) ∧
        (range.length = 0 → if textLen n.green = 0 then e = n
          else syntaxTokenAtOffset n range.start = .single e ∨ ∃ r, syntaxTokenAtOffset n range.start = .between e r)
      else syntaxNodeCoveringElement n range = none := by
  refine ⟨fun o hb ho => token_at_offset_exact hnode hb ho, fun range => ?_⟩
  rw [syntaxNodeCoveringElement]
  cases hrange : n.textRange.contains range with
  | false => rfl
  | true =>
      simp only [Bool.not_true, Bool.false_eq_true, if_false, if_true]
      obtain ⟨start, length⟩ := range
      rcases Nat.eq_zero_or_pos length with rfl | hlength
      · obtain ⟨hb, ho⟩ := contains_iff.mp hrange
        by_cases hlen : textLen n.green = 0
        · refine ⟨n, ?_, fun h => absurd h (Nat.lt_irrefl 0), fun _ => by rw [if_pos hlen]⟩
          rw [Loop.run, coveringTurn, hnode]
          have hnone : syntaxNodeChildOrTokenAtRange n ⟨start, 0⟩ = none := by
            refine List.find?_eq_none.mpr fun c hc => ?_
            have hinside := tiled_inside (tiled_childHandles n) hc
            rw [textOf_childHandles hnode] at hinside
            have hcstop : c.textRange.stop = c.offset + textLen c.green := rfl
            have hblank : textLen c.green = 0 := by omega
            simp [hblank]
          simp [hnone]
        · have htouches : touches start n = true := touches_iff.mpr ⟨Nat.pos_of_ne_zero hlen, hb, ho⟩
          obtain ⟨t, hrun, hhead⟩ := covering_empty (Nat.lt_succ_self _) htouches
          refine ⟨t, hrun, fun h => absurd h (Nat.lt_irrefl 0), fun _ => ?_⟩
          rw [if_neg hlen, syntaxTokenAtOffset_eq hnode hb ho]
          rcases touching_node (Nat.pos_of_ne_zero hlen) hb ho with ⟨u, htouching, -⟩ | ⟨l, r, htouching, -⟩
          · rw [htouching] at hhead ⊢
            obtain rfl := Option.some.inj hhead
            exact .inl rfl
          · rw [htouching] at hhead ⊢
            obtain rfl := Option.some.inj hhead
            exact .inr ⟨r, rfl⟩
      · obtain ⟨e, hrun, hbelow, her, hleast⟩ := covering_run hlength (Nat.lt_succ_self _) hrange
        exact ⟨e, hrun, fun _ => ⟨hbelow, her, hleast⟩, fun h => absurd h (Nat.ne_of_gt hlength)⟩

section Example

def words : Red := .root (.node .sourceFile [.token ⟨.ident, [97, 98]⟩, .token ⟨.ident, [99]⟩])

def firstWord : Red := .child words 0 (.token ⟨.ident, [97, 98]⟩) 0

def secondWord : Red := .child words 1 (.token ⟨.ident, [99]⟩) 2

theorem offset_lookup_words : syntaxTokenAtOffset words 2 = .between firstWord secondWord :=
  (((offset_lookup words rfl).1 2 (by decide) (by decide)).2.2 firstWord secondWord).mpr
    ⟨List.mem_cons_self .., List.mem_cons_of_mem _ (List.mem_cons_self ..), by decide, by decide, rfl, rfl⟩

/-- Between the words the element around no bytes is the longer one. -/
theorem empty_range_left : syntaxNodeCoveringElement words ⟨2, 0⟩ = some firstWord ∧ Below words secondWord ∧
    secondWord.textRange.contains ⟨2, 0⟩ = true ∧ secondWord.textRange.length < firstWord.textRange.length :=
  ⟨rfl, .child 1 .self rfl, rfl, by decide⟩

end Example

end Ore.OffsetLookup
