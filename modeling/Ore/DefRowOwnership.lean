import Ore.DefRowRetyping

namespace Ore.DefRowOwnership

open DefRows DefRowInvariant DefRowRetyping HeapLedger
open NamespaceItems (DefKind)

variable {s s' s'' : Db} {k k' n : DefKind} {q q' : SlotColumn} {c : ResultColumn} {i i' d d' rev threshold : Nat}
  {b : Body} {p : Place} {w : Write} {op : Op} {qs : List SlotColumn} {outcome : Outcome}

section Computing

def Place.Outside (p : Place) : Prop := ∀ k q i, p ≠ .deps k q i ∧ p ≠ .depIndex k q i

def Write.place : Write → Place
  | .overwrite p | .refill p => p

theorem near_bodyWrites (hq : q ∈ typeSlots k) (hw : w ∈ bodyWrites k q i d) :
    Near k i d (Write.place w) ∧ Place.Outside (Write.place w) := by
  have hresult {c : ResultColumn} (hc : c ∈ heapColumns k q) :
      Near k i d (.result k c i) ∧ Place.Outside (.result k c i) :=
    ⟨⟨rfl, rfl, q, hq, hc⟩, fun _ _ _ => ⟨nofun, nofun⟩⟩
  have hdiags : Near k i d (.typeOfDeclDiags d) ∧ Place.Outside (.typeOfDeclDiags d) :=
    ⟨rfl, fun _ _ _ => ⟨nofun, nofun⟩⟩
  have hmap : Near k i d (.declAstIdMap d) ∧ Place.Outside (.declAstIdMap d) := ⟨rfl, fun _ _ _ => ⟨nofun, nofun⟩⟩
  cases q with
  | type =>
      simp only [bodyWrites, List.mem_cons, List.mem_append, List.mem_map] at hw
      rcases hw with (rfl | hw) | ⟨c, hc, rfl⟩
      · exact hdiags
      · split at hw
        · cases hw
        · rw [List.mem_singleton.mp hw]
          exact hmap
      · exact hresult hc
  | signature =>
      rw [List.mem_singleton.mp hw]
      exact hresult (by simp [heapColumns])
  | signatureShape =>
      simp only [bodyWrites, List.mem_cons, List.not_mem_nil, or_false] at hw
      rcases hw with rfl | rfl | rfl
      · exact hresult (by simp [heapColumns])
      · exact hmap
      · exact hresult (by simp [heapColumns])
  | infer =>
      simp only [bodyWrites, List.mem_cons, List.not_mem_nil, or_false] at hw
      rcases hw with rfl | rfl
      · exact hresult (by simp [heapColumns])
      · exact hresult (by simp [heapColumns])
  | bodyScopes =>
      simp only [bodyWrites, List.mem_cons, List.not_mem_nil, or_false] at hw
      rcases hw with rfl | rfl
      · exact hmap
      · exact hresult (by simp [heapColumns])
  | declAstMap =>
      rw [List.mem_singleton.mp hw]
      exact hmap
  | bodyReferences | constEval => cases hw

theorem write_hot : (Db.write b s w).hot = s.hot := by
  cases w with
  | overwrite p | refill p =>
      rw [Db.write]
      cases b.written p <;> rfl

theorem write_local (hw : Near k i d (Write.place w)) : Local k i d s (Db.write b s w) := by
  refine ⟨?_, fun k' q i' _ => by rw [write_hot], ?_⟩
  · cases w with
    | overwrite p | refill p =>
        rw [Db.write]
        cases b.written p <;> rfl
  · cases w with
    | overwrite p =>
        rw [Db.write]
        cases b.written p with
        | none => exact .refl _
        | some fresh => exact edits_overwrite hw
    | refill p =>
        rw [Db.write]
        cases b.written p with
        | none => exact .refl _
        | some fresh => exact edits_refill hw

theorem write_held (hp : p ≠ Write.place w) : (Db.write b s w).heaps.held p = s.heaps.held p := by
  cases w with
  | overwrite p' =>
      rw [Db.write]
      cases b.written p' with
      | none => rfl
      | some fresh => exact held_overwrite_of_ne hp
  | refill p' =>
      rw [Db.write]
      cases b.written p' with
      | none => rfl
      | some fresh => exact held_refill_of_ne hp

theorem write_sound (hs : Sound s) (hnear : Near k i d (Write.place w)) (hout : Place.Outside (Write.place w)) :
    Sound (Db.write b s w) := by
  have hlocal : Local k i d s (Db.write b s w) := write_local hnear
  constructor
  · intro k' q' i' hempty
    rw [write_hot] at hempty
    rw [write_held (hout k' q' i').1.symm, write_held (hout k' q' i').2.symm]
    exact hs.settled k' q' i' hempty
  · rw [write_hot]
    exact hs.routed
  · rw [write_hot]
    exact hs.revs
  · exact hlocal.cells hs

theorem writes_spec {ws : List Write} (hs : Sound s)
    (hws : ∀ w ∈ ws, Near k i d (Write.place w) ∧ Place.Outside (Write.place w)) :
    Local k i d s (ws.foldl (Db.write b) s) ∧ Sound (ws.foldl (Db.write b) s) ∧
      (ws.foldl (Db.write b) s).hot = s.hot := by
  induction ws generalizing s with
  | nil => exact ⟨.refl s, hs, rfl⟩
  | cons w ws ih =>
      obtain ⟨hnear, hout⟩ := hws w (List.mem_cons_self ..)
      obtain ⟨hlocal, hsound, hhot⟩ := ih (write_sound (b := b) hs hnear hout)
        fun w' hw' => hws w' (List.mem_cons_of_mem _ hw')
      exact ⟨(write_local hnear).trans hlocal, hsound, hhot.trans write_hot⟩

theorem setHot_local (slot : Hot) : Local k i d s (s.setHot k q i slot) := by
  refine ⟨rfl, ?_, .refl _⟩
  intro k' q' i' hne
  exact if_neg fun h => hne ⟨h.1, h.2.2⟩

theorem setCold_local (slot : Cold) : Local k i d s (s.setCold k q i slot) := ⟨rfl, fun _ _ _ _ => rfl, .refl _⟩

theorem setHot_hot (slot : Hot) : (s.setHot k q i slot).hot k' q' i' =
    if k' = k ∧ q' = q ∧ i' = i then slot else s.hot k' q' i' := rfl

theorem setHot_sound (hs : Sound s) (hq : q ∈ typeSlots k) {slot : Hot} (hbusy : slot.state ≠ .empty)
    (hrev : slot.verifiedRev < revLimit) : Sound (s.setHot k q i slot) := by
  constructor
  · intro k' q' i' hempty
    rw [setHot_hot] at hempty
    split at hempty
    · exact absurd hempty hbusy
    · exact hs.settled k' q' i' hempty
  · intro k' q' i' hq'
    rw [setHot_hot, if_neg]
    · exact hs.routed k' q' i' hq'
    · rintro ⟨rfl, rfl, -⟩
      exact hq' hq
  · intro k' q' i'
    rw [setHot_hot]
    split
    · exact hrev
    · exact hs.revs k' q' i'
  · exact hs.cells

theorem setCold_sound (hs : Sound s) (slot : Cold) : Sound (s.setCold k q i slot) :=
  ⟨hs.settled, hs.routed, hs.revs, hs.cells⟩

theorem begin_spec (hs : Sound s) (hq : q ∈ typeSlots k) :
    Local k i d s (s.begin k q i d) ∧ Sound (s.begin k q i d) ∧ ((s.begin k q i d).hot k q i).state = .running := by
  have hrunning {u : Db} (hu : Sound u) : Sound (u.setHot k q i { s.hot k q i with state := .running }) :=
    setHot_sound hu hq (by simp) (hs.revs k q i)
  have hstate (u : Db) : ((u.setHot k q i { s.hot k q i with state := .running }).hot k q i).state = .running := by
    rw [setHot_hot, if_pos ⟨rfl, rfl, rfl⟩]
  rw [Db.begin]
  split
  · exact ⟨(setCold_local _).trans (setHot_local _), hrunning (setCold_sound hs _), hstate _⟩
  · exact ⟨setHot_local _, hrunning hs, hstate _⟩

theorem recordDeps_spec (hs : Sound s) (hbusy : (s.hot k q i).state ≠ .empty) :
    Local k i d s (s.recordDeps k q i b) ∧ Sound (s.recordDeps k q i b) := by
  have hlocal : Local k i d s (s.recordDeps k q i b) := by
    have hdeps : Near k i d (.deps k q i) := ⟨rfl, rfl⟩
    have hindex : Near k i d (.depIndex k q i) := ⟨rfl, rfl⟩
    exact ⟨rfl, fun _ _ _ _ => rfl, (edits_refill hdeps).trans (edits_refill hindex)⟩
  refine ⟨hlocal, ?_, hs.routed, hs.revs, hlocal.cells hs⟩
  intro k' q' i' hempty
  have hne : ¬ (k' = k ∧ q' = q ∧ i' = i) := by
    rintro ⟨rfl, rfl, rfl⟩
    exact hbusy hempty
  have hheld {p : Place} (hdeps : p ≠ .deps k q i) (hindex : p ≠ .depIndex k q i) :
      (s.recordDeps k q i b).heaps.held p = s.heaps.held p :=
    (held_refill_of_ne hindex).trans (held_refill_of_ne hdeps)
  rw [hheld (by simpa using hne) (by simp), hheld (by simp) (by simpa using hne)]
  exact hs.settled k' q' i' hempty

theorem settle_spec (hs : Sound s) (hq : q ∈ typeSlots k) (rev : Nat) (outcome : Outcome) :
    Local k i d s (s.settle k q i rev outcome) ∧ Sound (s.settle k q i rev outcome) := by
  have hrev : rev % revLimit < revLimit := Nat.mod_lt _ (Nat.two_pow_pos 31)
  cases outcome with
  | succeed fp dur =>
      exact ⟨(setHot_local _).trans (setCold_local _), setCold_sound (setHot_sound hs hq (by simp) hrev) _⟩
  | fail dur =>
      exact ⟨(setHot_local _).trans (setCold_local _), setCold_sound (setHot_sound hs hq (by simp) hrev) _⟩
  | canceled =>
      have hheld (p : Place) : (s.settle k q i rev .canceled).heaps.held p =
          if p ∈ [Place.deps k q i, .depIndex k q i] then none else s.heaps.held p := held_releaseAll ..
      have hhot : (s.settle k q i rev .canceled).hot = (s.setHot k q i
          { s.hot k q i with state := .empty, fingerprint := none }).hot := rfl
      have hlocal : Local k i d s (s.settle k q i rev .canceled) := by
        apply (setHot_local _).trans
        refine ⟨rfl, fun _ _ _ _ => rfl, edits_releaseAll ?_⟩
        intro p hp
        simp only [List.mem_cons, List.not_mem_nil, or_false] at hp
        rcases hp with rfl | rfl <;> exact ⟨rfl, rfl⟩
      refine ⟨hlocal, ?_, ?_, ?_, hlocal.cells hs⟩
      · intro k' q' i' hempty
        rw [hheld, hheld]
        by_cases hhere : k' = k ∧ q' = q ∧ i' = i
        · obtain ⟨rfl, rfl, rfl⟩ := hhere
          simp
        · rw [hhot, setHot_hot, if_neg hhere] at hempty
          obtain ⟨hdeps, hindex⟩ := hs.settled k' q' i' hempty
          rw [hdeps, hindex, ite_self, ite_self]
          exact ⟨rfl, rfl⟩
      · intro k' q' i' hq'
        rw [hhot, setHot_hot]
        split
        · rfl
        · exact hs.routed k' q' i' hq'
      · intro k' q' i'
        rw [hhot, setHot_hot]
        split
        · exact hs.revs k q i
        · exact hs.revs k' q' i'

theorem routeSlot_cases (h : s.routeSlot q d = some (k, i)) :
    d < s.kinds.length ∧ q ∈ typeSlots k ∧ Owned s k i := by
  rw [Db.routeSlot] at h
  split_ifs at h with hroute
  obtain ⟨rfl, rfl⟩ := Prod.mk.inj (Option.some.inj h)
  refine ⟨hroute.1, hroute.2, owned_of_kind fun hnone => ?_⟩
  rw [hnone] at hroute
  exact absurd hroute.2 (by simp [typeSlots])

theorem compute_inv (hs : Inv s) (h : s.compute q d rev b outcome = some s') : Inv s' := by
  rw [Db.compute, Option.map_eq_some_iff] at h
  obtain ⟨⟨k, i⟩, hroute, rfl⟩ := h
  obtain ⟨hd, hq, howned⟩ := routeSlot_cases hroute
  obtain ⟨hbegin, hsound, hrunning⟩ := begin_spec (i := i) (d := d) hs.toSound hq
  obtain ⟨hwrites, hsound, hhot⟩ := writes_spec (b := b) hsound fun w hw => near_bodyWrites (i := i) (d := d) hq hw
  obtain ⟨hdeps, hsound⟩ := recordDeps_spec (k := k) (q := q) (i := i) (d := d) (b := b) hsound (by
    rw [hhot, hrunning]
    decide)
  obtain ⟨hsettle, hsound⟩ := settle_spec (i := i) (d := d) hsound hq rev outcome
  exact hs.of_local (((hbegin.trans hwrites).trans hdeps).trans hsettle) hd howned hsound

theorem verify_inv (hs : Inv s) (h : s.verify q d rev = some s') : Inv s' := by
  rw [Db.verify, Option.map_eq_some_iff] at h
  obtain ⟨⟨k, i⟩, hroute, rfl⟩ := h
  obtain ⟨hd, hq, howned⟩ := routeSlot_cases hroute
  simp only
  split
  · exact hs
  · rename_i hbusy
    exact hs.of_local (setHot_local _) hd howned
      (setHot_sound hs.toSound hq hbusy (Nat.mod_lt _ (Nat.two_pow_pos 31)))

theorem reclaimTypeSlots_inv (hs : Inv s) : Inv (s.reclaimTypeSlots threshold) := by
  rw [Db.reclaimTypeSlots]
  induction List.range' 1 (s.kinds.length - 1) generalizing s with
  | nil => exact hs
  | cons d ds ih =>
      rw [List.foldl_cons]
      apply ih
      split
      · exact hs
      · rename_i hold
        exact hs.of_local reclaimDefTypeSlots_local (lt_of_kind hold) (owned_of_kind hold)
          (reclaimDefTypeSlots_sound hs.toSound)

end Computing

section Runs

theorem createDef_kind (s : Db) (d : Nat) : s.createDef.2.kind d = s.kind d := by
  rw [Db.kind, Db.kind, show s.createDef.2.kinds = s.kinds ++ [.none] from rfl]
  rcases Nat.lt_trichotomy d s.kinds.length with hlt | rfl | hgt
  · rw [List.getElem?_append_left hlt]
  · simp
  · rw [List.getElem?_eq_none (by simp; omega), List.getElem?_eq_none (by omega)]

theorem createDef_row (s : Db) (d : Nat) : s.createDef.2.row d = s.row d := by
  rw [Db.row, Db.row, show s.createDef.2.kindRow = s.kindRow ++ [0] from rfl]
  rcases Nat.lt_trichotomy d s.kindRow.length with hlt | rfl | hgt
  · rw [List.getElem?_append_left hlt]
  · simp
  · rw [List.getElem?_eq_none (by simp; omega), List.getElem?_eq_none (by omega)]

theorem createDef_inv (hs : Inv s) (hlt : s.kinds.length < 2 ^ 32) : Inv s.createDef.2 := by
  have hheaps : s.createDef.2.heaps = s.heaps := by
    apply wipe_eq
    intro p hp
    rw [decide_eq_true_eq] at hp
    by_contra hsome
    rcases hp with rfl | rfl
    · exact Nat.lt_irrefl _ (hs.diags ▸ hs.kept _ (.inl hsome))
    · exact Nat.lt_irrefl _ (hs.maps ▸ hs.kept _ (.inr hsome))
  have howned {k : DefKind} {i : Nat} : Owned s.createDef.2 k i ↔ Owned s k i := by
    simp only [Owned, createDef_kind, createDef_row]
  have hlength : s.createDef.2.kinds.length = s.kinds.length + 1 := by simp [Db.createDef]
  refine { addressed := ?_, rowed := ?_, alone := ?_, level := hs.level, reclaimed := ?_, balanced := ?_,
           settled := ?_, routed := hs.routed, revs := hs.revs, cells := ?_, sentinel := ?_, names := ?_,
           kindRow := ?_, diags := ?_, maps := ?_, counted := hs.counted, kept := ?_ }
  · rw [hlength]
    exact hlt
  · intro d
    rw [createDef_kind, createDef_row]
    exact hs.rowed d
  · intro d₁ d₂
    rw [createDef_kind, createDef_kind, createDef_row, createDef_row]
    exact hs.alone d₁ d₂
  · intro k i hfree
    have hbare := hs.reclaimed k i fun h => hfree (howned.mpr h)
    refine ⟨hbare.empty, ?_, ?_⟩
    · rw [hheaps]
      exact hbare.deps
    · rw [hheaps]
      exact hbare.results
  · rw [hheaps]
    exact hs.balanced
  · rw [hheaps]
    exact hs.settled
  · rw [hheaps]
    exact hs.cells
  · rw [hlength]
    exact Nat.succ_pos _
  · simp [Db.createDef, hs.names]
  · simp [Db.createDef, hs.kindRow]
  · simp [Db.createDef, hs.diags]
  · simp [Db.createDef, hs.maps]
  · rw [hheaps, hlength]
    exact fun d hd => Nat.lt_succ_of_lt (hs.kept d hd)

theorem init_inv : Inv dbIdsInit := by
  have hkind (d : Nat) : dbIdsInit.kind d = .none := by
    rw [Db.kind, show dbIdsInit.kinds = [.none] from rfl]
    cases d <;> rfl
  refine { addressed := by decide, rowed := ?_, alone := ?_, level := ?_, reclaimed := ?_, balanced := balanced_empty,
           settled := ?_, routed := ?_, revs := ?_, cells := ?_, sentinel := by decide, names := rfl, kindRow := rfl,
           diags := rfl, maps := rfl, counted := ?_, kept := ?_ }
  · exact fun d hd => absurd (hkind d) hd
  · exact fun d _ hd => absurd (hkind d) hd
  · intro k c hc c' hc'
    simp [dbIdsInit, hc, hc']
  · exact fun _ _ _ => ⟨fun _ => rfl, fun _ => ⟨rfl, rfl⟩, fun _ => rfl⟩
  · exact fun _ _ _ _ => ⟨rfl, rfl⟩
  · exact fun _ _ _ _ => rfl
  · exact fun _ _ _ => Nat.two_pow_pos 31
  · exact fun _ _ _ h => absurd rfl h
  · intro k c hc
    simp [dbIdsInit, hc]
  · rintro d (h | h) <;> exact absurd rfl h

theorem step_inv (hs : Inv s) (h : step s op = some s') (hmeets : Meets s op) : Inv s' ∧ Fresh s op s' := by
  cases op with
  | createDef =>
      rw [step, Option.some.injEq] at h
      exact ⟨h ▸ createDef_inv hs hmeets, trivial⟩
  | defSetKind d n =>
      by_cases hne : s.kind d = n
      · rw [step, Db.defSetKind, if_pos hne] at h
        split_ifs at h
        rw [← Option.some.inj h]
        exact ⟨hs, fun h => absurd hne h⟩
      · obtain ⟨hinv, hfresh⟩ := defSetKind_inv hs h hne (hmeets hne).1 (hmeets hne).2
        exact ⟨hinv, fun _ => hfresh⟩
  | compute q d rev b outcome => exact ⟨compute_inv hs h, trivial⟩
  | verify q d rev => exact ⟨verify_inv hs h, trivial⟩
  | reclaim threshold =>
      rw [step, Option.some.injEq] at h
      exact ⟨h ▸ reclaimTypeSlots_inv hs, trivial⟩

theorem step_fails (hs : Inv s) (h : step s op = some s') (hmeets : ¬ Meets s op) : ¬ Exclusive s' := by
  cases op with
  | createDef =>
      rw [step, Option.some.injEq] at h
      subst h
      intro hgood
      have haddressed := hgood.addressed
      simp only [Db.createDef, List.length_append, List.length_singleton] at haddressed
      simp only [Meets] at hmeets
      omega
  | defSetKind d n =>
      obtain ⟨hne, hbad⟩ := Classical.not_imp.mp hmeets
      exact defSetKind_fails hs h hne hbad
  | compute q d rev b outcome | verify q d rev | reclaim threshold => exact absurd trivial hmeets

theorem along_iff (ops : List Op) (hs : Inv s) :
    Along (fun s op s' => Exclusive s' ∧ Fresh s op s') ops s ↔ Along (fun s op _ => Meets s op) ops s := by
  induction ops generalizing s with
  | nil => exact Iff.rfl
  | cons op ops ih =>
      apply forall_congr'
      intro s'
      apply imp_congr_right
      intro hstep
      by_cases hmeets : Meets s op
      · obtain ⟨hinv, hfresh⟩ := step_inv hs hstep hmeets
        simp only [hmeets, hinv.toExclusive, hfresh, true_and, and_self]
        exact ih hinv
      · simp only [hmeets, step_fails hs hstep hmeets, false_and]

/-- Over every run, rows are owned exclusively, the columns of a kind stay level, a row given up
is bare with all its memory freed exactly once, and a definition finds a bare row whenever
it changes its kind, exactly if every operation of the run meets its condition. -/
theorem rows_exclusive_iff (ops : List Op) :
    Along (fun s op s' => Exclusive s' ∧ Fresh s op s') ops dbIdsInit ↔
      Along (fun s op _ => Meets s op) ops dbIdsInit :=
  along_iff ops init_inv

theorem along_last {P : Db → Op → Db → Prop} {ops : List Op} (h : Along P (ops ++ [op]) s)
    (hrun : (ops ++ [op]).foldlM step s = some s'') : ∃ s', P s' op s'' := by
  induction ops generalizing s with
  | nil =>
      rw [List.nil_append, List.foldlM_cons] at hrun
      obtain ⟨u, hstep, hdone⟩ := Option.bind_eq_some_iff.mp hrun
      rw [List.foldlM_nil] at hdone
      exact ⟨s, Option.some.inj hdone ▸ (h u hstep).1⟩
  | cons op' ops ih =>
      rw [List.cons_append, List.foldlM_cons] at hrun
      obtain ⟨u, hstep, hrest⟩ := Option.bind_eq_some_iff.mp hrun
      exact ih (h u hstep).2 hrest

/-- A computation that writes the node types of a constant is canceled before it settles, and
the constant becomes a variable. -/
def canceledFirst : List Op :=
  [.createDef, .defSetKind 1 .constant,
    .compute .type 1 1 ⟨fun p => if p = .result .constant .typeResult 1 then some true else none, true⟩ .canceled]

theorem canceled_leaks :
    ¬ Along (fun s op s' => Exclusive s' ∧ Fresh s op s') (canceledFirst ++ [.defSetKind 1 .variable]) dbIdsInit := by
  have hleft : ((canceledFirst ++ [Op.defSetKind 1 .variable]).foldlM step dbIdsInit).map
      (fun s : Db => (s.kinds, s.heaps.held (.result .constant .typeResult 1))) =
        some ([DefKind.none, .variable], some 0) := by
    decide
  obtain ⟨s, hrun, hs⟩ := Option.map_eq_some_iff.mp hleft
  obtain ⟨hkinds, hheld⟩ := Prod.mk.inj hs
  intro h
  obtain ⟨-, hgood, -⟩ := along_last h hrun
  have hfree : ¬ Owned s .constant 1 := by
    rintro ⟨-, d, hkind, -⟩
    rw [Db.kind, hkinds] at hkind
    rcases d with _ | _ | d <;> simp at hkind
  rw [(hgood.reclaimed _ _ hfree).results] at hheld
  cases hheld

end Runs

end Ore.DefRowOwnership
