import Ore.FileAst

namespace Ore.FileAstFingerprint

open SyntaxKinds GreenTree GreenCache GreenCacheTable GreenCacheSteps GreenDenotes GreenCacheCanonical GreenBuilder
    GreenBuilderTrees FileAst

variable {η : Type} {H : Hashing η} {w w' : World η} {s s' : Asts η} {r c : ElemRef} {p q : Published η}

def Pinned (w : World η) (c : ElemRef) : Prop := ∃ r, Cached w r ∧ Relation.ReflTransGen (Child w.heap.store.obj) r c

theorem Cached.of_kept (h : Cached w r) (hkept : Kept w.heap.store.obj w'.heap.store.obj r) : Cached w' r := by
  obtain ⟨o, ho, hfew⟩ := h
  exact ⟨o, (hkept r .refl).trans ho, hfew⟩

def heldRoots (roots : List (Option Nat)) : List ElemRef := roots.filterMap fun root => root.map ElemRef.node

theorem heldRoots_set {roots : List (Option Nat)} {file : Nat} {old : Option Nat} (hold : roots[file]? = some old)
    (new : Option Nat) :
    (heldRoots (roots.set file new)).Perm ((new.map ElemRef.node).toList ++ heldRoots (roots.set file none)) := by
  induction roots generalizing file with
  | nil => simp at hold
  | cons root roots ih =>
      cases file with
      | zero => cases new <;> simp [heldRoots]
      | succ file =>
          have htail := ih hold
          cases root with
          | none => simpa [heldRoots] using htail
          | some a =>
              simp only [heldRoots, List.set_cons_succ, List.filterMap_cons, Option.map_some] at htail ⊢
              exact (htail.cons _).trans List.perm_middle.symm

theorem heldRoots_getElem {roots : List (Option Nat)} {file : Nat} {old : Option Nat} (hold : roots[file]? = some old) :
    (heldRoots roots).Perm ((old.map ElemRef.node).toList ++ heldRoots (roots.set file none)) := by
  have h := heldRoots_set hold old
  obtain ⟨hlt, rfl⟩ := List.getElem?_eq_some_iff.mp hold
  rwa [List.set_getElem_self hlt] at h

theorem cached_of_few {ts : List Green} {rs : List ElemRef} (h : DenotesAll w.heap.store.obj rs ts)
    (hfew : ∀ t ∈ ts, childCount t ≤ dedupMaxChildren) : ∀ c ∈ rs, Cached w c := by
  induction ts generalizing rs with
  | nil =>
      obtain rfl := h
      simp
  | cons t ts ih =>
      obtain ⟨r, rest, rfl, ht, hts⟩ := h
      intro c hc
      rcases List.mem_cons.mp hc with rfl | hc
      · have hcount := hfew t (List.mem_cons_self ..)
        cases t with
        | token tok =>
            obtain ⟨hash, ho⟩ := ht
            exact ⟨_, ho, Nat.zero_le _⟩
        | node kind us =>
            obtain ⟨textLen, hash, cs, ho, hcs⟩ := ht
            refine ⟨_, ho, ?_⟩
            rw [GreenObj.refs, hcs.length_eq]
            exact hcount
      · exact ih hts (fun t ht => hfew t (List.mem_cons_of_mem _ ht)) c hc

/-- A result whose tree can be read off its fingerprint as long as the cache
lives. -/
def Remembered (H : Hashing η) (w : World η) (p : Published η) : Prop :=
  p.fp = none ∧ p.root = none ∨
    ∃ a kind refs ts, p.root = some a ∧ p.fp = some (H.node kind refs) ∧ Denotes p.obj (.node a) (.node kind ts) ∧
      DenotesAll w.heap.store.obj refs ts ∧ ∀ c ∈ refs, Pinned w c

/-- The references held are those of the column and of the readers. -/
structure Held (H : Hashing η) (s : Asts η) (log : List (Published η)) : Prop where
  sound : Sound H s.world
  owned : s.world.owned.Perm (heldRoots s.greenRoots ++ s.readers)
  remembered : ∀ p ∈ log, Remembered H s.world p

theorem sameTree_of_fp (hinj : ∀ kind kind' refs refs', H.node kind refs = H.node kind' refs' → kind = kind' ∧
    refs = refs')
    (hp : Remembered H w p) (hq : Remembered H w q) (hfp : p.fp = q.fp) : SameTree p q := by
  rcases hp with ⟨hnone, hroot⟩ | ⟨a, kind, refs, ts, hroot, hsome, hdenotes, hall, -⟩ <;>
    rcases hq with ⟨hnone', hroot'⟩ | ⟨b, kind', refs', ts', hroot', hsome', hdenotes', hall', -⟩
  · exact .inl ⟨hroot, hroot'⟩
  · rw [hnone, hsome'] at hfp
    simp at hfp
  · rw [hsome, hnone'] at hfp
    simp at hfp
  · rw [hsome, hsome', Option.some.injEq] at hfp
    obtain ⟨rfl, rfl⟩ := hinj _ _ _ _ hfp
    obtain rfl := denotesAll_unique hall hall'
    exact .inr ⟨a, b, _, hroot, hroot', hdenotes, hdenotes'⟩

def unfoldObj (obj : ElemRef → Option (GreenObj η)) : Nat → ElemRef → Option Green
  | 0, _ => none
  | depth + 1, r =>
      match obj r with
      | none => none
      | some (.token tok _) => some (.token tok)
      | some (.node kind _ _ cs) => ((cs.map (·.ref)).mapM (unfoldObj obj depth)).map (.node kind)

theorem denotes_of_unfoldObj {obj : ElemRef → Option (GreenObj η)} {depth : Nat} {t : Green}
    (h : unfoldObj obj depth r = some t) :
    Denotes obj r t := by
  induction depth generalizing r t with
  | zero => simp [unfoldObj] at h
  | succ depth ih =>
      have hall {rs : List ElemRef} {ts : List Green} (hmap : rs.mapM (unfoldObj obj depth) = some ts) :
        DenotesAll obj rs ts := by
        induction rs generalizing ts with
        | nil =>
            obtain rfl : ts = [] := by simpa using hmap.symm
            rfl
        | cons c cs ihcs =>
            rw [List.mapM_cons] at hmap
            obtain ⟨t, ht, hmap⟩ := Option.bind_eq_some_iff.mp hmap
            obtain ⟨us, hus, hsome⟩ := Option.bind_eq_some_iff.mp hmap
            obtain rfl := Option.some.inj hsome
            exact ⟨c, cs, rfl, ih ht, ihcs hus⟩
      rw [unfoldObj] at h
      cases ho : obj r with
      | none => simp [ho] at h
      | some o =>
          cases o with
          | token tok hash =>
              simp only [ho, Option.some.injEq] at h
              obtain rfl := h
              exact ⟨hash, ho⟩
          | node kind textLen hash cs =>
              simp only [ho] at h
              obtain ⟨ts, hts, rfl⟩ := Option.map_eq_some_iff.mp h
              exact ⟨textLen, hash, cs, ho, hall hts⟩

def words (p : Published η) : Option (List Word) :=
  p.root.bind fun a => (unfoldObj p.obj 4 (.node a)).map structuralHashRec

theorem words_eq_of_sameTree (h : SameTree p q) (hp : (words p).isSome) (hq : (words q).isSome) :
    words p = words q := by
  obtain ⟨wp, hwp⟩ := Option.isSome_iff_exists.mp hp
  obtain ⟨wq, hwq⟩ := Option.isSome_iff_exists.mp hq
  obtain ⟨a, ha, hmap⟩ := Option.bind_eq_some_iff.mp hwp
  obtain ⟨b, hb, hmap'⟩ := Option.bind_eq_some_iff.mp hwq
  obtain ⟨t, ht, rfl⟩ := Option.map_eq_some_iff.mp hmap
  obtain ⟨u, hu, rfl⟩ := Option.map_eq_some_iff.mp hmap'
  rcases h with ⟨hnone, -⟩ | ⟨a', b', t', ha', hb', ht', hu'⟩
  · rw [hnone] at ha
    simp at ha
  · obtain rfl := Option.some.inj (ha.symm.trans ha')
    obtain rfl := Option.some.inj (hb.symm.trans hb')
    rw [hwp, hwq, denotes_unique (denotes_of_unfoldObj ht) ht', denotes_unique (denotes_of_unfoldObj hu) hu']

variable [DecidableEq η]

theorem Pinned.later (h : Pinned w c) (hw : Sound H w) (hlater : Later H InBounds w w') :
    Pinned w' c ∧ Kept w.heap.store.obj w'.heap.store.obj c := by
  obtain ⟨r, hr, hreach⟩ := h
  have hkept := later_kept hlater hw hr
  exact ⟨⟨r, Cached.of_kept hr hkept, hkept.reaches hreach⟩, fun p hp => hkept p (hreach.trans hp)⟩

theorem Remembered.later (h : Remembered H w p) (hw : Sound H w) (hlater : Later H InBounds w w') :
    Remembered H w' p := by
  rcases h with h | ⟨a, kind, refs, ts, hroot, hfp, hdenotes, hall, hpinned⟩
  · exact .inl h
  · refine .inr ⟨a, kind, refs, ts, hroot, hfp, hdenotes, ?_, fun c hc => ((hpinned c hc).later hw hlater).1⟩
    exact hall.kept fun c hc => ((hpinned c hc).later hw hlater).2

theorem releaseRoot_spec {roots : List (Option Nat)} {file : Nat} {old : Option Nat} {rest : List ElemRef}
    (hsound : Sound H w)
    (hold : roots[file]? = some old) (howned : w.owned.Perm (heldRoots roots ++ rest)) :
    ∃ w', releaseRoot H w old = some w' ∧ Sound H w' ∧ Later H InBounds w w' ∧
      w'.owned.Perm (heldRoots (roots.set file none) ++ rest) ∧
      ∀ r ∈ rest, Kept w.heap.store.obj w'.heap.store.obj r := by
  have hsplit : w.owned.Perm ((old.map ElemRef.node).toList ++ (heldRoots (roots.set file none) ++ rest)) := by
    rw [← List.append_assoc]
    exact howned.trans ((heldRoots_getElem hold).append_right rest)
  obtain ⟨w', hrelease, hsound', hlater, howned', hkept⟩ := releaseAll_spec hsound hsplit
  exact ⟨w', hrelease, hsound', hlater, howned', fun r hr => hkept r (List.mem_append_right _ hr)⟩

theorem fileAst_spec {log : List (Published η)} (h : Held H s log) {file : Nat} {script : List (BuilderOp × Nat)}
    (hmeets : ScriptMeets H Supplied s.world (greenBuilderNew ElemRef) script) (hsep : Separable (.fileAst file script))
    (hstep : dbQueryFileAst H s file script = some (s', p)) :
    Sound H s'.world ∧ Later H InBounds s.world s'.world ∧ s'.world.owned.Perm (heldRoots s'.greenRoots ++ s'.readers) ∧
      Remembered H s'.world p := by
  rw [dbQueryFileAst] at hstep
  obtain ⟨old, hold, hstep⟩ := Option.bind_eq_some_iff.mp hstep
  obtain ⟨⟨w1, b⟩, hbuild, hstep⟩ := Option.bind_eq_some_iff.mp hstep
  have hstart : Builds H s.world (greenBuilderNew ElemRef) (greenBuilderNew Green) s.world.owned :=
    ⟨h.sound, .refl _, rfl, rfl⟩
  obtain ⟨tb, hfold, hlater1, hbuilds⟩ := hstart.run hmeets hbuild
  cases hfinish : b.finish with
  | none => simp [hfinish] at hstep
  | some ref =>
      cases ref with
      | token a => simp [hfinish] at hstep
      | node root =>
          simp only [hfinish] at hstep
          obtain ⟨kind, ts, htree, hdenotes, howned⟩ := hbuilds.finish hfinish
          have hscript : treeOf (script.map Prod.fst) = some (.node kind ts) := by
            rw [treeOf, hfold, Option.bind_some, htree]
            rfl
          have howned1 : w1.owned.Perm (heldRoots s.greenRoots ++ (.node root :: s.readers)) :=
            (howned.trans (h.owned.cons _)).trans List.perm_middle.symm
          obtain ⟨w2, hrelease, hsound, hlater2, howned2, hkept⟩ := releaseRoot_spec hbuilds.sound hold howned1
          rw [hrelease, Option.bind_some] at hstep
          have hdenotes2 := hdenotes.kept (hkept _ (List.mem_cons_self ..))
          obtain ⟨textLen, hash, cs, hobj, hcs⟩ := hdenotes2
          have hsound2 := hsound
          obtain ⟨_, _, hinterned⟩ := hsound2
          obtain ⟨_, _, _, heq⟩ := hinterned.tabled.nodes root _ hobj
          simp only [GreenObj.node.injEq] at heq
          obtain ⟨rfl, rfl, rfl, rfl⟩ := heq
          simp only [hobj, Option.some.injEq, Prod.mk.injEq] at hstep
          obtain ⟨rfl, rfl⟩ := hstep
          refine ⟨hsound, later_trans hlater1 hlater2, ?_,
            .inr ⟨root, kind, cs.map (·.ref), ts, rfl, rfl, ⟨_, _, _, hobj, hcs⟩, hcs, ?_⟩⟩
          · refine howned2.trans ?_
            refine List.Perm.trans ?_ ((heldRoots_set hold (some root)).symm.append_right _)
            exact List.perm_middle
          · rcases hsep kind ts hscript with hfew | hfew
            · intro c hc
              have hcached : Cached w2 (.node root) := ⟨_, hobj, by rwa [GreenObj.refs, hcs.length_eq]⟩
              exact ⟨_, hcached, .single ⟨_, hobj, hc⟩⟩
            · exact fun c hc => ⟨c, cached_of_few hcs hfew c hc, .refl⟩

theorem clearRoot_spec {log : List (Published η)} (h : Held H s log) {file : Nat}
    (hstep : clearRoot H s file = some s') :
    Sound H s'.world ∧ Later H InBounds s.world s'.world ∧
      s'.world.owned.Perm (heldRoots s'.greenRoots ++ s'.readers) := by
  obtain ⟨old, hold, hstep⟩ := Option.bind_eq_some_iff.mp hstep
  obtain ⟨w, hrelease, hsound, hlater, howned, -⟩ := releaseRoot_spec h.sound hold h.owned
  rw [hrelease, Option.map_some, Option.some.injEq] at hstep
  obtain rfl := hstep
  exact ⟨hsound, hlater, howned⟩

theorem event_spec {log : List (Published η)} (h : Held H s log) {e : Event} (hmeets : Meets H Supplied s e)
    (hsep : Separable e)
    {answer : Option (Published η)} (hstep : eventStep H s e = some (s', answer)) :
    Sound H s'.world ∧ Later H InBounds s.world s'.world ∧ s'.world.owned.Perm (heldRoots s'.greenRoots ++ s'.readers) ∧
      ∀ p ∈ answer, Remembered H s'.world p := by
  cases e with
  | createFile =>
      rw [eventStep, Option.some.injEq, Prod.mk.injEq] at hstep
      obtain ⟨rfl, rfl⟩ := hstep
      refine ⟨h.sound, .refl, ?_, by simp⟩
      simpa [heldRoots] using h.owned
  | fileAst file script =>
      obtain ⟨⟨s1, p⟩, hast, hsame⟩ := Option.map_eq_some_iff.mp hstep
      obtain ⟨rfl, rfl⟩ := Prod.mk.inj hsame
      obtain ⟨hsound, hlater, howned, hremembered⟩ := fileAst_spec h hmeets hsep hast
      refine ⟨hsound, hlater, howned, fun q hq => ?_⟩
      obtain rfl := Option.some.inj hq
      exact hremembered
  | sourceMissing file =>
      obtain ⟨s1, hclear, hsame⟩ := Option.map_eq_some_iff.mp hstep
      obtain ⟨rfl, rfl⟩ := Prod.mk.inj hsame
      obtain ⟨hsound, hlater, howned⟩ := clearRoot_spec h hclear
      refine ⟨hsound, hlater, howned, fun q hq => ?_⟩
      obtain rfl := Option.some.inj hq
      exact .inl ⟨rfl, rfl⟩
  | evict file =>
      obtain ⟨s1, hclear, hsame⟩ := Option.map_eq_some_iff.mp hstep
      obtain ⟨rfl, rfl⟩ := Prod.mk.inj hsame
      obtain ⟨hsound, hlater, howned⟩ := clearRoot_spec h hclear
      exact ⟨hsound, hlater, howned, by simp⟩
  | retain r =>
      obtain ⟨⟨w, _⟩, hretain, hsame⟩ := Option.map_eq_some_iff.mp hstep
      obtain ⟨rfl, rfl⟩ := Prod.mk.inj hsame
      obtain ⟨w', o, hretain', hanswered⟩ := step_retain h.sound hmeets.1 hmeets.2
      rw [hretain, Option.some.injEq, Prod.mk.injEq] at hretain'
      obtain ⟨rfl, rfl⟩ := hretain'
      have hbounds : InBounds s.world (.retain r) := hmeets
      refine ⟨hanswered.sound, .step .refl hbounds hretain, ?_, by simp⟩
      rw [hanswered.owned]
      exact (h.owned.cons _).trans List.perm_middle.symm
  | release r =>
      obtain ⟨⟨w, _⟩, hrelease, hsame⟩ := Option.map_eq_some_iff.mp hstep
      obtain ⟨rfl, rfl⟩ := Prod.mk.inj hsame
      have hallowed : Allowed s.world (.release r) := h.owned.mem_iff.mpr (List.mem_append_right _ hmeets)
      obtain ⟨w', rank, holders, hrelease', hinterned, howned, -⟩ := step_release h.sound hallowed
      rw [hrelease, Option.some.injEq, Prod.mk.injEq] at hrelease'
      obtain ⟨rfl, rfl⟩ := hrelease'
      refine ⟨⟨rank, holders, hinterned⟩, .step .refl ⟨hallowed, trivial⟩ hrelease, ?_, by simp⟩
      rw [howned]
      refine (h.owned.erase r).trans ?_
      rw [List.perm_iff_count]
      intro x
      have hpos := List.count_pos_iff.mpr hmeets
      simp only [List.count_erase, List.count_append]
      by_cases hx : r = x
      · subst hx
        simp only [beq_self_eq_true, if_true]
        omega
      · simp [hx]

theorem runs_held {log : List (Published η)} (h : Runs H (fun s e => Meets H Supplied s e ∧ Separable e) s log) :
    Held H s log := by
  induction h with
  | start => exact ⟨⟨_, _, Interned.start H⟩, .refl _, by simp⟩
  | step _ hok hstep ih =>
      obtain ⟨hsound, hlater, howned, hremembered⟩ := event_spec ih hok.1 hok.2 hstep
      refine ⟨hsound, howned, fun p hp => ?_⟩
      rcases List.mem_append.mp hp with hp | hp
      · exact (ih.remembered p hp).later ih.sound hlater
      · exact hremembered p (Option.mem_toList.mp hp)

/-- In runs whose parses are separable, a fingerprint of FILE_AST determines
the tree. -/
theorem fingerprint_determines_tree (hinj : ∀ kind kind' refs refs', H.node kind refs = H.node kind' refs' →
    kind = kind' ∧ refs = refs')
    {log : List (Published η)} (h : Runs H (fun s e => Meets H Supplied s e ∧ Separable e) s log) :
    ∀ p ∈ log, ∀ q ∈ log, p.fp = q.fp → SameTree p q :=
  fun p hp q hq hfp => sameTree_of_fp hinj ((runs_held h).remembered p hp) ((runs_held h).remembered q hq) hfp

abbrev Folded := SyntaxKind × WorkspaceModel.Bytes ⊕ SyntaxKind × List ElemRef

def foldedHashing : Hashing Folded := ⟨fun kind text => .inl (kind, text), fun kind refs => .inr (kind, refs)⟩

theorem foldedHashing_injective (kind kind' : SyntaxKind) (refs refs' : List ElemRef)
    (h : foldedHashing.node kind refs = foldedHashing.node kind' refs') : kind = kind' ∧ refs = refs' := by
  simpa [foldedHashing] using h

def emptyScript : List (BuilderOp × Nat) := [(.startNode .sourceFile, 0), (.finishNode, 7)]

section Checking

def canBuild (w : World Folded) (b : Builder ElemRef) : List (BuilderOp × Nat) → Bool
  | [] => true
  | (op, addr) :: script =>
      (opRequest b addr op).all (canSupply foldedHashing w) &&
        (builderStep foldedHashing w b addr op).all fun next => canBuild next.1 next.2 script

theorem scriptMeets_of_canBuild {w : World Folded} {b : Builder ElemRef} {tb : Builder Green} {rest : List ElemRef}
    {script : List (BuilderOp × Nat)} (h : Builds foldedHashing w b tb rest) (hcan : canBuild w b script = true) :
    ScriptMeets foldedHashing Supplied w b script := by
  induction script generalizing w b tb with
  | nil => trivial
  | cons call script ih =>
      obtain ⟨op, addr⟩ := call
      simp only [canBuild, Bool.and_eq_true, Option.all_eq_true] at hcan
      have hfirst : ∀ req ∈ opRequest b addr op, Supplied w req :=
        fun req hreq => supplied_of_canSupply h.sound (hcan.1 req hreq)
      refine ⟨hfirst, fun next hnext => ?_⟩
      rcases h.step hfirst with ⟨hnone, -⟩ | ⟨w', b', tb', hstep, -, -, hbuilds⟩
      · rw [hnone] at hnext
        cases hnext
      · rw [hstep, Option.mem_some_iff] at hnext
        subst hnext
        exact ih hbuilds (hcan.2 _ hstep)

def canParse (s : Asts Folded) : Event → Bool
  | .createFile => true
  | .fileAst _ script =>
      canBuild s.world (greenBuilderNew ElemRef) script &&
        match treeOf (script.map Prod.fst) with
        | some (.node _ ts) => decide (ts.length ≤ dedupMaxChildren ∨ ∀ t ∈ ts, childCount t ≤ dedupMaxChildren)
        | _ => true
  | _ => false

def parseAll : Asts Folded → List (Published Folded) → List Event → Option (Asts Folded × List (Published Folded))
  | s, log, [] => some (s, log)
  | s, log, e :: es =>
      if canParse s e then (eventStep foldedHashing s e).bind fun (s, p) => parseAll s (log ++ p.toList) es else none

theorem runs_of_parseAll {s s' : Asts Folded} {log log' : List (Published Folded)} {es : List Event}
    (h : Runs foldedHashing (fun s e => Meets foldedHashing Supplied s e ∧ Separable e) s log)
    (hrun : parseAll s log es = some (s', log')) :
    Runs foldedHashing (fun s e => Meets foldedHashing Supplied s e ∧ Separable e) s' log' := by
  induction es generalizing s log with
  | nil =>
      obtain ⟨rfl, rfl⟩ := Prod.mk.inj (Option.some.inj hrun)
      exact h
  | cons e es ih =>
      rw [parseAll] at hrun
      split at hrun
      · rename_i hcan
        obtain ⟨⟨s1, p⟩, hstep, hrest⟩ := Option.bind_eq_some_iff.mp hrun
        refine ih (.step h ?_ hstep) hrest
        cases e with
        | createFile => exact ⟨trivial, trivial⟩
        | fileAst file script =>
            rw [canParse, Bool.and_eq_true] at hcan
            have hstart : Builds foldedHashing s.world (greenBuilderNew ElemRef) (greenBuilderNew Green)
                s.world.owned :=
              ⟨(runs_held h).sound, .refl _, rfl, rfl⟩
            refine ⟨scriptMeets_of_canBuild hstart hcan.1, fun kind ts htree => ?_⟩
            simpa [htree] using hcan.2
        | sourceMissing file => cases hcan
        | evict file => cases hcan
        | retain r => cases hcan
        | release r => cases hcan
      · cases hrun

end Checking

def tokensFrom (kind : SyntaxKind) (byte : UInt8) (addr : Nat) : List (BuilderOp × Nat) :=
  (List.range 33).map fun i => (.token kind [byte], addr + i)

def nameScript (kind : SyntaxKind) (byte name : UInt8) (addr : Nat) : List (BuilderOp × Nat) :=
  [(.startNode .sourceFile, 0)] ++ tokensFrom kind byte addr ++
    [(.startNode .refExpr, 0), (.token .ident [name], addr + 40), (.finishNode, addr + 41), (.finishNode, addr + 42)]

/-- A file, an edit of its name, and the edit taken back. The roots have too many children
to be shared. -/
def editedEvents : List Event :=
  [.createFile, .fileAst 0 (nameScript .newline 10 97 100), .fileAst 0 (nameScript .newline 10 98 200),
    .fileAst 0 (nameScript .newline 10 97 300)]

def editedEnds : List (Published Folded) → Bool
  | [p, q, r] => decide (p.root = some 142 ∧ q.root = some 242 ∧ r.root = some 342 ∧ p.fp ≠ q.fp ∧ p.fp = r.fp)
  | _ => false

theorem of_editedEnds {log : List (Published Folded)} (h : editedEnds log = true) : ∃ p q r, log = [p, q, r] ∧
    p.root = some 142 ∧ q.root = some 242 ∧ r.root = some 342 ∧ p.fp ≠ q.fp ∧ p.fp = r.fp := by
  unfold editedEnds at h
  split at h
  · exact ⟨_, _, _, rfl, of_decide_eq_true h⟩
  · cases h

theorem editedEvents_ends : (parseAll .start [] editedEvents).map (editedEnds ·.2) = some true := by
  decide +kernel

theorem fingerprint_determines_tree_edited :
    ∃ s, ∃ p q r : Published Folded,
      Runs foldedHashing (fun s e => Meets foldedHashing Supplied s e ∧ Separable e) s [p, q, r] ∧
        p.root = some 142 ∧ q.root = some 242 ∧ r.root = some 342 ∧ p.fp ≠ q.fp ∧ p.fp = r.fp ∧ SameTree p r := by
  obtain ⟨⟨s, log⟩, hrun, hends⟩ := Option.map_eq_some_iff.mp editedEvents_ends
  obtain ⟨p, q, r, rfl, hp, hq, hr, hne, hfp⟩ := of_editedEnds hends
  have hruns := runs_of_parseAll .start hrun
  refine ⟨s, p, q, r, hruns, hp, hq, hr, hne, hfp, ?_⟩
  exact fingerprint_determines_tree foldedHashing_injective hruns p (by simp) r (by simp) hfp

/-- The calls for 33 line feeds and 33 closing brackets behind them, which
recovery wraps into one node; that node goes to address 5. -/
def bracketScript (kind : SyntaxKind) (byte : UInt8) (addr : Nat) : List (BuilderOp × Nat) :=
  [(.startNode .sourceFile, 0)] ++ tokensFrom .newline 10 addr ++ [(.startNode .errorNode, 0)] ++ tokensFrom kind byte
    (addr + 40) ++
    [(.finishNode, 5), (.token .virtualSemi [], addr + 80), (.finishNode, addr)]

def bracketEvents : List Event :=
  [.createFile, .fileAst 0 (bracketScript .rparen 41 100), .fileAst 0 emptyScript,
    .fileAst 0 (bracketScript .rbracket 93 200)]

/-- Equal fingerprints of one file over different trees. -/
def Confused (p q : Published Folded) : Prop :=
  p.file = q.file ∧ p.fp = q.fp ∧ (words p).isSome ∧ (words q).isSome ∧ words p ≠ words q

instance (p q : Published Folded) : Decidable (Confused p q) :=
  inferInstanceAs (Decidable (p.file = q.file ∧ p.fp = q.fp ∧ (words p).isSome ∧ (words q).isSome ∧ words p ≠ words q))

def confusedEnds : List (Published Folded) → Bool
  | [p, _, q] => decide (Confused p q)
  | _ => false

theorem of_confusedEnds {log : List (Published Folded)} (h : confusedEnds log = true) : ∃ p x q, log = [p, x, q] ∧
    Confused p q := by
  unfold confusedEnds at h
  split at h
  · exact ⟨_, _, _, rfl, of_decide_eq_true h⟩
  · cases h

theorem bracketEvents_confused : (runEvents foldedHashing .start [] bracketEvents).map (confusedEnds ·.2) = some
    true := by
  decide +kernel

theorem fingerprint_repeats : ¬∀ s log, Runs foldedHashing (Meets foldedHashing Fresh) s log →
    ∀ p ∈ log, ∀ q ∈ log, p.file = q.file → p.fp = q.fp → SameTree p q := by
  intro hall
  obtain ⟨⟨s, log⟩, hrun, hconfused⟩ := Option.map_eq_some_iff.mp bracketEvents_confused
  obtain ⟨p, x, q, rfl, hfile, hfp, hp, hq, hne⟩ := of_confusedEnds hconfused
  refine hne (words_eq_of_sameTree ?_ hp hq)
  exact hall s [p, x, q] (.of_runEvents .start hrun) p (by simp) q (by simp) hfile hfp

end Ore.FileAstFingerprint
