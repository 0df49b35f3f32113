import Ore.WorkspaceIdentity

namespace Ore.FileSetHistory

open WorkspaceModel Workspace FileSets WorkspaceIdentity

variable {V : Type} {w w' : Workspace V} {realpath : Bytes → Option Bytes} {events post : List Event} {e : Event}
  {k : Key} {src owner i : Nat} {row : File}

section History

/-- The path of an event leads to the key. The empty path leads to none. -/
def means (realpath : Bytes → Option Bytes) (k : Key) (path : Bytes) : Prop :=
  k = .path (canonicalizePath realpath path) ∧ k ≠ .path []

instance (path : Bytes) : Decidable (means realpath k path) :=
  inferInstanceAs (Decidable (k = .path (canonicalizePath realpath path) ∧ k ≠ .path []))

def verdict (realpath : Bytes → Option Bytes) (k : Key) : Event → Option Bool
  | .didOpen path _ | .didChange path _ | .didChangeExternal path (some _) =>
      if means realpath k path then some true else none
  | .didEvictSource path => if means realpath k path then some false else none
  | _ => none

def remains (realpath : Bytes → Option Bytes) (k : Key) (post : List Event) (here : Bool) : Bool :=
  post.foldl (fun here e => (verdict realpath k e).getD here) here

variable [Inhabited V]

/-- An event enters a file in the table, for the source of a key. -/
def Adds (realpath : Bytes → Option Bytes) (w : Workspace V) (e : Event) (row : File) (k : Key) : Prop :=
  ∃ w' i src, step realpath w e = some w' ∧ w.files.length ≤ i ∧ w'.files[i]? = some row ∧
    w'.sources[row.source]? = some src ∧ keyOf src = k

variable (V) in
/-- Some event added the file to the namespace, and the events behind it have left it there. -/
def Admitted (realpath : Bytes → Option Bytes) (events : List Event) (owner : Nat) (f : FileId) : Prop :=
  ∃ (pre : List Event) (e : Event) (post : List Event) (w : Workspace V) (row : File) (k : Key),
    events = pre ++ e :: post ∧ run realpath pre (initial V) = some w ∧ Adds realpath w e row k ∧
      row.owner = owner ∧ row.id = f ∧ remains realpath k post true = true

/-- The list of a namespace holds the files that the events admitted to it, each once, and its
fingerprint is the one from scratch. -/
structure Exact (realpath : Bytes → Option Bytes) (events : List Event) (w : Workspace V) (owner : Nat) : Prop where
  nodup : (memberList w owner).Nodup
  mem : ∀ f, f ∈ memberList w owner ↔ Admitted V realpath events owner f
  fp : fileSet w owner = some (setFp (memberList w owner))

end History

section Directory

/-- A source and its file for a new key, in a namespace. -/
def enter (d : Directory) (k : Key) (owner namespaces : Nat) : Directory :=
  { d.register k with
    files := d.files ++ [⟨⟨d.files.length, k.isVirtual⟩, d.keys.length, owner⟩], namespaces := namespaces }

/-- Every source has a file, and is looked up by its key unless that is the empty path. -/
structure Keyed (d : Directory) : Prop where
  keys : 0 < d.keys.length
  files : 0 < d.files.length
  named : ∀ i k, 0 < i → d.keys[i]? = some k → k ≠ .path [] → d.source k = i
  keyed : ∀ k, d.source k ≠ 0 → d.keys[d.source k]? = some k
  filed : ∀ i, 0 < i → i < d.keys.length → d.fileBySource i ≠ 0

theorem source_enter (d : Directory) (k : Key) (owner n : Nat) (k' : Key) :
    (enter d k owner n).source k' = if k' = k ∧ k ≠ .path [] then d.keys.length else d.source k' := by
  have hsame : (enter d k owner n).source k' = (d.register k).source k' := by cases k' <;> rfl
  rw [hsame]
  by_cases hk : k = .path []
  · subst hk
    rw [if_neg (by simp)]
    cases k' with
    | path path =>
        by_cases hpath : path = []
        · simp [Directory.source, hpath]
        · simp [Directory.source, Directory.register, hpath]
    | name name => rfl
  · rw [Directory.source_register d hk]
    simp [hk]

theorem Keyed.enter {d : Directory} (h : Keyed d) (hnew : d.source k = 0) (owner n : Nat) :
    Keyed (enter d k owner n) := by
  have hget (i : Nat) : (FileSetHistory.enter d k owner n).keys[i]? = (d.keys ++ [k])[i]? := rfl
  have hlength : (FileSetHistory.enter d k owner n).keys.length = d.keys.length + 1 := List.length_append
  refine ⟨by omega, ?_, fun i k' hi hkey hne => ?_, fun k' hne => ?_, fun i hi hlt => ?_⟩
  · rw [show (FileSetHistory.enter d k owner n).files.length = d.files.length + 1 from List.length_append]
    exact Nat.succ_pos _
  · rw [source_enter]
    rw [hget, List.getElem?_append] at hkey
    split at hkey
    · have hold := h.named i k' hi hkey hne
      rw [if_neg]
      · exact hold
      · rintro ⟨rfl, -⟩
        omega
    · obtain ⟨hlt, rfl⟩ := List.getElem?_eq_some_iff.mp hkey
      rw [List.length_singleton] at hlt
      rw [List.getElem_singleton] at hne ⊢
      rw [if_pos ⟨rfl, hne⟩]
      omega
  · rw [source_enter] at hne ⊢
    rw [hget]
    split
    · rename_i hk
      rw [hk.1]
      simp
    · rename_i hk
      rw [if_neg hk] at hne
      have hold := h.keyed k' hne
      exact (List.getElem?_append_left (List.getElem?_eq_some_iff.mp hold).1).trans hold
  · rw [hlength] at hlt
    have hby : (FileSetHistory.enter d k owner n).fileBySource = Function.update d.fileBySource d.keys.length
        d.files.length := rfl
    rw [hby]
    by_cases hi' : i = d.keys.length
    · rw [hi', Function.update_self]
      exact Nat.ne_of_gt h.files
    · rw [Function.update_of_ne hi']
      exact h.filed i hi (by omega)

theorem keyed_namespaces {d : Directory} (h : Keyed d) (n : Nat) : Keyed { d with namespaces := n } := by
  have hsource (k : Key) : Directory.source { d with namespaces := n } k = d.source k := by cases k <;> rfl
  refine ⟨h.keys, h.files, fun i k hi hkey hne => ?_, fun k hne => ?_, h.filed⟩
  · rw [hsource]
    exact h.named i k hi hkey hne
  · rw [hsource] at hne ⊢
    exact h.keyed k hne

theorem directory_addFile {path text : Bytes} {bump : Bool}
    (hstep : w.register path text (some owner) bump = some w') :
    directory w' = enter (directory w) (.path path) owner w.members.length := by
  simp only [Workspace.register] at hstep
  split at hstep
  · simp at hstep
  · rename_i src t hcreate
    simp only [Workspace.createSourceRow, Option.ite_none_right_eq_some, Option.some.injEq, Prod.mk.injEq] at hcreate
    obtain ⟨-, rfl, rfl⟩ := hcreate
    rw [directory_createFile hstep]
    simp [directory, enter, Directory.register, Workspace.inputSet, keyOf, Key.isVirtual]

variable [Inhabited V]

theorem directory_event (hstep : step realpath w e = some w') :
    (∃ n, directory w' = { directory w with namespaces := n }) ∨
      ∃ k owner n, lookupSource w k = 0 ∧ directory w' = enter (directory w) k owner n := by
  have hentered {k : Key} (h : directory w' = directory w ∨
      lookupSource w k = 0 ∧ directory w' = (directory w).register k) :
      (∃ n, directory w' = { directory w with namespaces := n }) ∨
        ∃ k owner n, lookupSource w k = 0 ∧ directory w' = enter (directory w) k owner n :=
    h.imp (fun h => ⟨_, h⟩) fun h => ⟨k, _, _, h.1, h.2⟩
  cases e with
  | didOpen path text =>
      simp only [WorkspaceModel.step, Workspace.didOpen] at hstep
      split at hstep
      · exact .inl ⟨_, directory_reopen hstep⟩
      · rename_i hnew
        exact hentered (k := .path _) (.inr ⟨Decidable.not_not.mp hnew, directory_register hstep⟩)
  | didChange path text =>
      simp only [WorkspaceModel.step, Workspace.didChange] at hstep
      split at hstep
      · exact .inl ⟨_, directory_reopen hstep⟩
      · exact .inl ⟨_, by rw [Option.some.inj hstep]⟩
  | didChangeExternal path text =>
      simp only [WorkspaceModel.step, Workspace.didChangeExternal] at hstep
      split at hstep
      · split at hstep
        · exact .inl ⟨_, directory_reopen hstep⟩
        · exact .inl ⟨_, by rw [Option.some.inj hstep]⟩
      · exact .inl ⟨_, by rw [Option.some.inj hstep]⟩
  | didEvictSource path => exact .inl ⟨_, directory_didEvictSource hstep⟩
  | loadImport path disk => exact hentered (directory_loadImport hstep)
  | resolveImport importer pathStr disk =>
      obtain ⟨⟨t, owner⟩, hresolve, rfl⟩ := Option.map_eq_some_iff.mp hstep
      rcases resolveImport_cases hresolve with rfl | ⟨joined, path, text, -, hload⟩
      · exact .inl ⟨_, rfl⟩
      · exact hentered (directory_loadImport hload)
  | admitVirtual name text => exact hentered (directory_admitVirtual hstep)
  | createNamespace =>
      obtain rfl := Option.some.inj hstep
      exact .inl ⟨_, rfl⟩
  | addFile path text owner =>
      simp only [WorkspaceModel.step, Option.ite_none_right_eq_some] at hstep
      refine .inr ⟨.path path, owner, _, ?_, directory_addFile hstep.2⟩
      rw [lookupSource, Workspace.lookupSourceByPath]
      split
      · rfl
      · exact hstep.1.1

theorem keyed_step (h : Keyed (directory w)) (hstep : step realpath w e = some w') : Keyed (directory w') := by
  rcases directory_event hstep with ⟨n, hsame⟩ | ⟨k, owner, n, hnew, henter⟩
  · rw [hsame]
    exact keyed_namespaces h n
  · rw [henter]
    exact h.enter (by rwa [source_directory]) owner n

theorem step_keeps (hstep : step realpath w e = some w') :
    w.files <+: w'.files ∧ (directory w).keys <+: (directory w').keys := by
  have hfiles (t : Workspace V) : t.files = (directory t).files := rfl
  rw [hfiles w, hfiles w']
  rcases directory_event hstep with ⟨n, hsame⟩ | ⟨k, owner, n, -, henter⟩
  · rw [hsame]
    exact ⟨List.prefix_refl _, List.prefix_refl _⟩
  · rw [henter]
    exact ⟨List.prefix_append _ _, List.prefix_append _ _⟩

theorem initial_keyed (V : Type) [Inhabited V] : Keyed (directory (initial V)) := by
  refine ⟨Nat.one_pos, Nat.one_pos, fun i k hpos hkey _ => ?_, fun k hne => ?_, fun i hpos hlt => ?_⟩
  · have hlt : i < 1 := (List.getElem?_eq_some_iff.mp hkey).1
    omega
  · refine absurd ?_ hne
    cases k with
    | path path => exact ite_self _
    | name name => rfl
  · have hlt' : i < 1 := hlt
    omega

end Directory

section Evicted

theorem isEvicted_readmitSource (w : Workspace V) (hne : src ≠ 0) (s : Nat) :
    isEvicted (w.readmitSource src) s = if s = src then false else isEvicted w s := by
  simp only [Workspace.readmitSource]
  cases hrow : w.sources[src]? with
  | none =>
      by_cases hs : s = src
      · simp [hs, isEvicted, hrow]
      · simp [hs]
  | some row =>
      simp only
      by_cases hwas : row.evicted = false
      · have hstays : src = 0 ∨ row.evicted = false := .inr hwas
        rw [if_pos hstays]
        by_cases hs : s = src
        · simp [hs, isEvicted, hrow, hwas]
        · simp [hs]
      · have hgone : ¬ (src = 0 ∨ row.evicted = false) := not_or.mpr ⟨hne, hwas⟩
        have hset := isEvicted_set w hrow { row with evicted := false } s
        rw [if_neg hgone, ← hset]
        split
        · rfl
        · rw [isEvicted, (fileSetAdd_rest _ _ _).2.1]
          rfl

theorem isEvicted_inputChanged {dur : EngineModel.Durability} (hstep : w.inputChanged dur = some w') (s : Nat) :
    isEvicted w' s = isEvicted w s := by
  simp only [Workspace.inputChanged, Option.ite_none_right_eq_some, Option.some.injEq] at hstep
  obtain ⟨-, rfl⟩ := hstep
  rfl

theorem isEvicted_setSourceText {text : Bytes} (hstep : w.setSourceText src text = some w') (s : Nat) :
    isEvicted w' s = isEvicted w s := by
  simp only [Workspace.setSourceText] at hstep
  split at hstep
  · rw [Option.some.inj hstep]
  · rename_i row hrow
    split at hstep
    · rw [Option.some.inj hstep]
    · split at hstep
      · split at hstep
        · rw [Option.some.inj hstep]
        · obtain ⟨t, hchanged, rfl⟩ := Option.map_eq_some_iff.mp hstep
          have hset := isEvicted_set w hrow { row with
            text := some text, hash := sourceFnv1a text, textLen := text.length, version := row.version + 1 } s
          refine (isEvicted_inputChanged hchanged s).trans (hset.trans ?_)
          split
          · rename_i hs
            simp [hs, isEvicted, hrow]
          · rfl
      · cases hstep

theorem isEvicted_reopen {text : Bytes} (hne : src ≠ 0) (hstep : w.reopen src text = some w') (s : Nat) :
    isEvicted w' s = if s = src then false else isEvicted w s :=
  (isEvicted_setSourceText hstep s).trans (isEvicted_readmitSource w hne s)

theorem isEvicted_createSourceRow {path text : Bytes} {isVirtual : Bool}
    (hstep : w.createSourceRow path text isVirtual = some (src, w')) (s : Nat) : isEvicted w' s = isEvicted w s := by
  simp only [Workspace.createSourceRow, Option.ite_none_right_eq_some, Option.some.injEq, Prod.mk.injEq] at hstep
  obtain ⟨-, rfl, rfl⟩ := hstep
  simp only [isEvicted, Workspace.inputSet, List.getElem?_append]
  split
  · rfl
  · rename_i hlt
    rw [List.getElem?_eq_none (Nat.not_lt.mp hlt)]
    cases s - w.sources.length <;> simp

theorem isEvicted_fileSetAdd (w : Workspace V) (owner : Nat) (f : FileId) (s : Nat) :
    isEvicted (w.fileSetAdd owner f) s = isEvicted w s := by
  rw [isEvicted, (fileSetAdd_rest w owner f).2.1, isEvicted]

theorem isEvicted_createFile {bump : Bool} (hstep : w.createFile src owner bump = some w') (s : Nat) :
    isEvicted w' s = isEvicted w s := by
  simp only [Workspace.createFile] at hstep
  split at hstep
  · rw [← Option.some.inj hstep]
    rfl
  · split at hstep
    · obtain ⟨t, hchanged, rfl⟩ := Option.map_eq_some_iff.mp hstep
      exact (isEvicted_fileSetAdd _ _ _ s).trans (isEvicted_inputChanged hchanged s)
    · rw [← Option.some.inj hstep]
      exact isEvicted_fileSetAdd _ _ _ s

theorem isEvicted_register {path text : Bytes} {owner : Option Nat} {bump : Bool}
    (hstep : w.register path text owner bump = some w') (s : Nat) : isEvicted w' s = isEvicted w s := by
  simp only [Workspace.register] at hstep
  split at hstep
  · cases hstep
  · rename_i src t hcreate
    split at hstep
    · exact (isEvicted_createFile hstep s).trans (isEvicted_createSourceRow hcreate s)
    · exact (isEvicted_createFile hstep s).trans (isEvicted_createSourceRow hcreate s)

theorem isEvicted_loadImport {path : Bytes} {disk : Option Bytes} (hstep : w.loadImport path disk = some w') (s : Nat) :
    isEvicted w' s = isEvicted w s := by
  simp only [Workspace.loadImport] at hstep
  split at hstep
  · rw [Option.some.inj hstep]
  · split at hstep
    · rw [Option.some.inj hstep]
    · exact isEvicted_register hstep s

theorem isEvicted_admitVirtual {name text : Bytes} (hstep : w.admitVirtual name text = some w') (s : Nat) :
    isEvicted w' s = isEvicted w s := by
  simp only [Workspace.admitVirtual] at hstep
  split at hstep
  · rw [Option.some.inj hstep]
  · split at hstep
    · cases hstep
    · rename_i src t hcreate
      rw [← Option.some.inj hstep]
      refine Eq.trans ?_ (isEvicted_createSourceRow hcreate s)
      exact isEvicted_fileSetAdd _ _ _ s

variable [Inhabited V]

theorem isEvicted_evictFiles (files : List File) (w : Workspace V) (s : Nat) :
    isEvicted (evictFiles src files w) s = isEvicted w s := by
  induction files generalizing w with
  | nil => rfl
  | cons file files ih =>
      rw [Workspace.evictFiles, ih]
      split
      · rw [isEvicted, (evictFile_rest w file).2.1, isEvicted]
      · rfl

theorem isEvicted_didEvictSource {path : Bytes} (hne : w.lookupSourceByPath path ≠ 0)
    (hlt : w.lookupSourceByPath path < w.sources.length) (hstep : w.didEvictSource path = some w') (s : Nat) :
    isEvicted w' s = if s = w.lookupSourceByPath path then true else isEvicted w s := by
  simp only [Workspace.didEvictSource, if_neg hne] at hstep
  rw [isEvicted_inputChanged hstep, isEvicted_evictFiles]
  simp only [isEvicted, List.getElem?_modify]
  by_cases hs : w.lookupSourceByPath path = s
  · simp [← hs, hlt]
  · simp [hs, Ne.symm hs]

theorem verdict_some {b : Bool} (h : verdict realpath k e = some b) : ∃ path, k = .path path ∧ path ≠ [] := by
  have hmeans {path : Bytes} {b' : Bool} (h : (if means realpath k path then some b' else none) = some b) :
      ∃ path, k = .path path ∧ path ≠ [] := by
    obtain ⟨hpath, -⟩ := Option.ite_none_right_eq_some.mp h
    refine ⟨_, hpath.1, fun heq => hpath.2 ?_⟩
    rw [hpath.1, heq]
  cases e with
  | didOpen path text | didChange path text | didEvictSource path => exact hmeans h
  | didChangeExternal path text =>
      cases text with
      | none => cases h
      | some text => exact hmeans h
  | loadImport | resolveImport | admitVirtual | createNamespace | addFile => cases h

theorem evicted_cases (h : Keyed (directory w)) (hstep : step realpath w e = some w') :
    ((∀ s, isEvicted w' s = isEvicted w s) ∧
      ∀ k, verdict realpath k e ≠ none → lookupSource w k = 0) ∨
    ∃ path b, lookupSource w (.path path) ≠ 0 ∧
      (∀ k, verdict realpath k e = if k = .path path ∧ k ≠ .path [] then some b else none) ∧
      ∀ s, isEvicted w' s = if s = lookupSource w (.path path) then !b else isEvicted w s := by
  have hunknown {path : Bytes} (hnew : ¬ w.lookupSourceByPath (canonicalizePath realpath path) ≠ 0) {b : Bool} (k : Key)
      (hverdict : (if means realpath k path then some b else none) ≠ none) : lookupSource w k = 0 := by
    have hpath : means realpath k path := by
      by_contra hnot
      exact hverdict (if_neg hnot)
    rw [hpath.1]
    exact Decidable.not_not.mp hnew
  have hquiet (hsame : ∀ s, isEvicted w' s = isEvicted w s) (hnone : ∀ k, verdict realpath k e = none) :
      (∀ s, isEvicted w' s = isEvicted w s) ∧ ∀ k, verdict realpath k e ≠ none → lookupSource w k = 0 :=
    ⟨hsame, fun k hne => absurd (hnone k) hne⟩
  cases e with
  | didOpen path text =>
      simp only [WorkspaceModel.step, Workspace.didOpen] at hstep
      split at hstep
      · rename_i hne
        exact .inr ⟨_, true, hne, fun _ => rfl, isEvicted_reopen hne hstep⟩
      · rename_i hnew
        exact .inl ⟨isEvicted_register hstep, hunknown hnew⟩
  | didChange path text =>
      simp only [WorkspaceModel.step, Workspace.didChange] at hstep
      split at hstep
      · rename_i hne
        exact .inr ⟨_, true, hne, fun _ => rfl, isEvicted_reopen hne hstep⟩
      · rename_i hnew
        exact .inl ⟨fun s => by rw [Option.some.inj hstep], hunknown hnew⟩
  | didChangeExternal path text =>
      simp only [WorkspaceModel.step, Workspace.didChangeExternal] at hstep
      cases text with
      | none => exact .inl (hquiet (fun s => by rw [Option.some.inj hstep]) fun _ => rfl)
      | some text =>
          simp only at hstep
          split at hstep
          · rename_i hne
            exact .inr ⟨_, true, hne, fun _ => rfl, isEvicted_reopen hne hstep⟩
          · rename_i hnew
            exact .inl ⟨fun s => by rw [Option.some.inj hstep], hunknown hnew⟩
  | didEvictSource path =>
      by_cases hne : w.lookupSourceByPath (canonicalizePath realpath path) = 0
      · simp only [WorkspaceModel.step, Workspace.didEvictSource, if_pos hne] at hstep
        exact .inl ⟨fun s => by rw [Option.some.inj hstep], hunknown (not_not.mpr hne)⟩
      · have hkey := h.keyed (.path (canonicalizePath realpath path)) (by rw [source_directory]; exact hne)
        have hlt := (List.getElem?_eq_some_iff.mp hkey).1
        rw [source_directory] at hlt
        simp only [directory, List.length_map] at hlt
        exact .inr ⟨_, false, hne, fun _ => rfl, isEvicted_didEvictSource hne hlt hstep⟩
  | loadImport path disk => exact .inl (hquiet (isEvicted_loadImport hstep) fun _ => rfl)
  | resolveImport importer pathStr disk =>
      obtain ⟨⟨t, owner⟩, hresolve, rfl⟩ := Option.map_eq_some_iff.mp hstep
      refine .inl (hquiet (fun s => ?_) fun _ => rfl)
      rcases resolveImport_cases hresolve with rfl | ⟨joined, path, text, -, hload⟩
      · rfl
      · exact isEvicted_loadImport hload s
  | admitVirtual name text => exact .inl (hquiet (isEvicted_admitVirtual hstep) fun _ => rfl)
  | createNamespace =>
      obtain rfl := Option.some.inj hstep
      exact .inl (hquiet (fun _ => rfl) fun _ => rfl)
  | addFile path text owner =>
      simp only [WorkspaceModel.step, Option.ite_none_right_eq_some] at hstep
      exact .inl (hquiet (isEvicted_register hstep.2) fun _ => rfl)

/-- The evicted bit of a source follows the verdict of the event on its key. -/
theorem step_evicted (h : Keyed (directory w)) (hpos : 0 < src) (hkey : (directory w).keys[src]? = some k)
    (hstep : step realpath w e = some w') :
    isEvicted w' src = !((verdict realpath k e).getD (!isEvicted w src)) := by
  rcases evicted_cases h hstep with ⟨hsame, hnone⟩ | ⟨path, b, hne, hverdict, hflip⟩
  · cases hv : verdict realpath k e with
    | none => simp [hsame]
    | some b =>
        obtain ⟨path, rfl, hpath⟩ := verdict_some hv
        have hzero := hnone _ (by rw [hv]; exact Option.some_ne_none b)
        have hnamed := h.named src _ hpos hkey (by simpa using hpath)
        rw [source_directory, hzero] at hnamed
        omega
  · rw [hflip, hverdict]
    by_cases hk : k = .path path ∧ k ≠ .path []
    · have hnamed := h.named src k hpos hkey hk.2
      rw [source_directory, hk.1] at hnamed
      rw [if_pos hk, if_pos hnamed.symm]
      rfl
    · rw [if_neg hk, if_neg]
      · simp
      · rintro rfl
        have hkeyed := h.keyed (.path path) (by rwa [source_directory])
        rw [source_directory, hkey] at hkeyed
        obtain rfl := Option.some.inj hkeyed
        refine hk ⟨rfl, fun heq => hne ?_⟩
        obtain rfl := Key.path.inj heq
        rfl

theorem run_evicted (h : Keyed (directory w)) (hpos : 0 < src) (hkey : (directory w).keys[src]? = some k)
    (hrun : run realpath events w = some w') :
    isEvicted w' src = !(remains realpath k events (!isEvicted w src)) := by
  induction events generalizing w with
  | nil =>
      obtain rfl := Option.some.inj hrun
      simp [remains]
  | cons e events ih =>
      rw [WorkspaceModel.run, List.foldlM_cons] at hrun
      obtain ⟨t, hstep, hrest⟩ := Option.bind_eq_some_iff.mp hrun
      have hkept : (directory t).keys[src]? = some k := getElem?_mono (step_keeps hstep).2 hkey
      rw [ih (keyed_step h hstep) hkept hrest, step_evicted h hpos hkey hstep, Bool.not_not]
      rfl

end Evicted

section Admission

variable [Inhabited V]

theorem run_keeps (h : Keyed (directory w)) (hrun : run realpath events w = some w') :
    Keyed (directory w') ∧ w.files <+: w'.files ∧ (directory w).keys <+: (directory w').keys := by
  induction events generalizing w with
  | nil =>
      obtain rfl := Option.some.inj hrun
      exact ⟨h, List.prefix_refl _, List.prefix_refl _⟩
  | cons e events ih =>
      rw [WorkspaceModel.run, List.foldlM_cons] at hrun
      obtain ⟨t, hstep, hrest⟩ := Option.bind_eq_some_iff.mp hrun
      obtain ⟨hfiles, hkeys⟩ := step_keeps hstep
      obtain ⟨hkeyed, hfiles', hkeys'⟩ := ih (keyed_step h hstep) hrest
      exact ⟨hkeyed, hfiles.trans hfiles', hkeys.trans hkeys'⟩

theorem added_fresh (h : Keyed (directory w)) (hstep : step realpath w e = some w') (hlen : w.files.length ≤ i)
    (hfile : w'.files[i]? = some row) :
    0 < row.source ∧ isEvicted w' row.source = false ∧ ∃ src, w'.sources[row.source]? = some src := by
  have hlengths : (directory w).keys.length = w.sources.length := by simp [directory]
  have hfresh : isEvicted w' w.sources.length = false := by
    have hout : isEvicted w w.sources.length = false := by simp [isEvicted]
    rcases evicted_cases h hstep with ⟨hsame, -⟩ | ⟨path, b, hne, -, hflip⟩
    · rw [hsame, hout]
    · rw [hflip, if_neg, hout]
      rintro heq
      have hkey := h.keyed (.path path) (by rwa [source_directory])
      have hlt := (List.getElem?_eq_some_iff.mp hkey).1
      rw [source_directory, ← heq, hlengths] at hlt
      exact absurd hlt (Nat.lt_irrefl _)
  rcases directory_event hstep with ⟨n, hsame⟩ | ⟨k, owner, n, -, henter⟩
  · have hfiles : w'.files = w.files := congrArg Directory.files hsame
    rw [hfiles, List.getElem?_eq_none hlen] at hfile
    cases hfile
  · have hfiles : w'.files = w.files ++ [⟨⟨w.files.length, k.isVirtual⟩, (directory w).keys.length, owner⟩] :=
      congrArg Directory.files henter
    have hkeys : (directory w').keys = (directory w).keys ++ [k] := congrArg Directory.keys henter
    rw [hfiles, List.getElem?_append_right hlen] at hfile
    obtain ⟨hlt, hrow⟩ := List.getElem?_eq_some_iff.mp hfile
    rw [List.getElem_singleton] at hrow
    subst hrow
    refine ⟨h.keys, by rw [hlengths]; exact hfresh, ?_⟩
    have hkey : (directory w').keys[(directory w).keys.length]? = some k := by rw [hkeys]; simp
    obtain ⟨src, hsrc, -⟩ := keys_getElem hkey
    exact ⟨src, hsrc⟩

theorem run_append {pre : List Event} :
    run realpath (pre ++ post) w = (run realpath pre w).bind (run realpath post) := by
  rw [WorkspaceModel.run, List.foldlM_append]
  rfl

theorem run_cons : run realpath (e :: post) w = (step realpath w e).bind (run realpath post) := by
  rw [WorkspaceModel.run, List.foldlM_cons]
  rfl

/-- An added file is there with its source evicted or not, as the events behind it say. -/
theorem added_evicted (h : Keyed (directory w)) (hadds : Adds realpath w e row k)
    (hrun : run realpath (e :: post) w = some w') :
    ∃ i, 0 < i ∧ w'.files[i]? = some row ∧ isEvicted w' row.source = !(remains realpath k post true) := by
  obtain ⟨t, i, src, hstep, hlen, hfile, hsrc, rfl⟩ := hadds
  rw [run_cons, hstep, Option.bind_some] at hrun
  have ht := keyed_step h hstep
  obtain ⟨-, hfiles, -⟩ := run_keeps ht hrun
  obtain ⟨hpos, hfresh, -⟩ := added_fresh h hstep hlen hfile
  have hkey : (directory t).keys[row.source]? = some (keyOf src) := by
    rw [directory, List.getElem?_map, hsrc]
    rfl
  refine ⟨i, Nat.lt_of_lt_of_le h.files hlen, getElem?_mono hfiles hfile, ?_⟩
  rw [run_evicted ht hpos hkey hrun, hfresh]
  rfl

theorem exists_added (h : Keyed (directory w)) (hrun : run realpath events w = some w') (hlen : w.files.length ≤ i)
    (hfile : w'.files[i]? = some row) : ∃ (pre : List Event) (e : Event) (post : List Event) (t : Workspace V)
      (k : Key),
      events = pre ++ e :: post ∧ run realpath pre w = some t ∧ Keyed (directory t) ∧ Adds realpath t e row k := by
  induction events generalizing w with
  | nil =>
      obtain rfl := Option.some.inj hrun
      rw [List.getElem?_eq_none hlen] at hfile
      cases hfile
  | cons e events ih =>
      rw [run_cons] at hrun
      obtain ⟨t, hstep, hrest⟩ := Option.bind_eq_some_iff.mp hrun
      have ht := keyed_step h hstep
      by_cases hlt : i < t.files.length
      · obtain ⟨-, hfiles, -⟩ := run_keeps ht hrest
        have hrow : t.files[i]? = some row := by
          have hkept := getElem?_mono hfiles (List.getElem?_eq_getElem hlt)
          rwa [hkept, ← List.getElem?_eq_getElem hlt] at hfile
        obtain ⟨-, -, src, hsrc⟩ := added_fresh h hstep hlen hrow
        exact ⟨[], e, events, w, keyOf src, rfl, rfl, h, t, i, src, hstep, hlen, hrow, hsrc, rfl⟩
      · obtain ⟨pre, e', post, u, k, rfl, hpre, hu, hadds⟩ := ih ht hrest (Nat.not_lt.mp hlt)
        refine ⟨e :: pre, e', post, u, k, rfl, ?_, hu, hadds⟩
        rw [run_cons, hstep]
        exact hpre

theorem unevicted_iff (hrun : run realpath events (initial V) = some w) (f : FileId) :
    Unevicted w owner f ↔ Admitted V realpath events owner f := by
  have hstart := initial_keyed V
  constructor
  · rintro ⟨i, row, hpos, hfile, rfl, rfl, hlive⟩
    obtain ⟨pre, e, post, t, k, rfl, hpre, ht, hadds⟩ := exists_added hstart hrun hpos hfile
    rw [run_append, hpre, Option.bind_some] at hrun
    obtain ⟨-, -, -, hevicted⟩ := added_evicted ht hadds hrun
    refine ⟨pre, e, post, t, row, k, rfl, hpre, hadds, rfl, rfl, ?_⟩
    rw [hlive] at hevicted
    simpa using hevicted.symm
  · rintro ⟨pre, e, post, t, row, k, rfl, hpre, hadds, rfl, rfl, hremains⟩
    rw [run_append, hpre, Option.bind_some] at hrun
    obtain ⟨i, hpos, hfile, hevicted⟩ := added_evicted (run_keeps hstart hpre).1 hadds hrun
    exact ⟨i, row, hpos, hfile, rfl, rfl, by rw [hevicted, hremains]; rfl⟩

theorem opened_source {path text : Bytes} (h : Keyed (directory w))
    (hstep : step realpath w (.didOpen path text) = some w') :
    ∃ s, 0 < s ∧ (directory w').keys[s]? = some (.path (canonicalizePath realpath path)) ∧ isEvicted w' s = false := by
  have hkeyed := keyed_step h hstep
  simp only [WorkspaceModel.step, Workspace.didOpen] at hstep
  split at hstep
  · rename_i hknown
    have hsource : (directory w').source (.path (canonicalizePath realpath path)) =
        w.lookupSourceByPath (canonicalizePath realpath path) := by
      rw [directory_reopen hstep, source_directory]
      rfl
    refine ⟨_, Nat.pos_of_ne_zero hknown, hsource ▸ hkeyed.keyed _ (hsource ▸ hknown), ?_⟩
    rw [isEvicted_reopen hknown hstep, if_pos rfl]
  · refine ⟨w.sources.length, by simpa [directory] using h.keys, ?_, ?_⟩
    · have hkeys : (directory w').keys = (directory w).keys ++ [.path (canonicalizePath realpath path)] :=
        congrArg Directory.keys (directory_register hstep)
      have hlength : w.sources.length = (directory w).keys.length := by simp [directory]
      rw [hkeys, hlength, List.getElem?_append_right (Nat.le_refl _), Nat.sub_self]
      rfl
    · rw [isEvicted_register hstep]
      simp [isEvicted]

theorem opened_listed {pre : List Event} {path text : Bytes} (hfiled : Filed w)
    (hrun : run realpath (pre ++ .didOpen path text :: post) (initial V) = some w)
    (hremains : remains realpath (.path (canonicalizePath realpath path)) post true = true) :
    ∃ i row src, 0 < i ∧ w.files[i]? = some row ∧ w.sources[row.source]? = some src ∧
      keyOf src = .path (canonicalizePath realpath path) ∧ (0 < row.owner → row.id ∈ memberList w row.owner) := by
  rw [run_append] at hrun
  obtain ⟨t, hpre, hrun⟩ := Option.bind_eq_some_iff.mp hrun
  rw [run_cons] at hrun
  obtain ⟨u, hstep, hrest⟩ := Option.bind_eq_some_iff.mp hrun
  have ht := (run_keeps (initial_keyed V) hpre).1
  have hu := keyed_step ht hstep
  obtain ⟨s, hpos, hkey, hlive⟩ := opened_source ht hstep
  obtain ⟨hkeyed, -, hkeys⟩ := run_keeps hu hrest
  have hlast := run_evicted hu hpos hkey hrest
  rw [hlive, Bool.not_false, hremains, Bool.not_true] at hlast
  obtain ⟨src, hsrc, hname⟩ := keys_getElem (getElem?_mono hkeys hkey)
  have hfile := hkeyed.filed s hpos (List.getElem?_eq_some_iff.mp (getElem?_mono hkeys hkey)).1
  obtain ⟨row, hrow, hsource⟩ := hfiled.bySource s hfile
  have hbehind := hfiled.rows _ row (Nat.pos_of_ne_zero hfile) hrow
  refine ⟨_, row, src, Nat.pos_of_ne_zero hfile, hrow, by rwa [hsource], hname, fun howner => ?_⟩
  exact ((hfiled.listed row.owner howner hbehind.owner).mem row.id).mpr
    ⟨_, row, Nat.pos_of_ne_zero hfile, hrow, rfl, rfl, by rwa [hsource]⟩

def reopenedEvents : List Event :=
  [.didOpen [1] [2], .didOpen [5] [6], .didEvictSource [1], .didOpen [1] [3], .didEvictSource [5]]

end Admission

end Ore.FileSetHistory
