import Ore.FileSets

namespace Ore.WorkspaceIdentity

open EngineModel WorkspaceModel Workspace FileSets

variable {V : Type} {w w' : Workspace V}

/-- What names a source: a canonical path, or the name of a virtual file. -/
inductive Key where
  | path (path : Bytes)
  | name (name : Bytes)
  deriving DecidableEq, Repr

structure Ids where
  source : Nat
  file : Nat
  owner : Nat
  deriving DecidableEq, Repr

/-- The tables of identity, without texts and fingerprints. -/
structure Directory where
  keys : List Key
  files : List File
  namespaces : Nat
  sourceByPath : Bytes → Nat
  fileBySource : Nat → Nat
  virtualByName : Bytes → Nat

def keyOf (row : Source) : Key := if row.isVirtual then .name row.path else .path row.path

def directory (w : Workspace V) : Directory :=
  ⟨w.sources.map keyOf, w.files, w.members.length, w.sourceByPath, w.fileBySource, w.virtualByName⟩

def Key.isVirtual : Key → Bool
  | .path _ => false
  | .name _ => true

def lookupSource (w : Workspace V) : Key → Nat
  | .path path => w.lookupSourceByPath path
  | .name name => w.virtualByName name

def lookup (w : Workspace V) (k : Key) : Ids :=
  let source := lookupSource w k
  let file := w.lookupFileBySource source
  ⟨source, file, w.fileNamespace ⟨file, false⟩⟩

namespace Directory

def source (d : Directory) : Key → Nat
  | .path path => if path = [] then 0 else d.sourceByPath path
  | .name name => d.virtualByName name

def register (d : Directory) (k : Key) : Directory where
  keys := d.keys ++ [k]
  files := d.files ++ [⟨⟨d.files.length, k.isVirtual⟩, d.keys.length, d.namespaces⟩]
  namespaces := d.namespaces + 1
  sourceByPath := match k with
    | .path path => Function.update d.sourceByPath path d.keys.length
    | .name _ => d.sourceByPath
  fileBySource := Function.update d.fileBySource d.keys.length d.files.length
  virtualByName := match k with
    | .path _ => d.virtualByName
    | .name name => Function.update d.virtualByName name d.keys.length

/-- Sources, files and namespaces are created together, each source under the
key that it is looked up by. -/
structure OneToOne (d : Directory) : Prop where
  positive : 0 < d.keys.length
  files : d.files.length = d.keys.length
  namespaces : d.namespaces = d.keys.length
  rows : ∀ i file, d.files[i]? = some file → file.source = i ∧ file.owner = i ∧ d.fileBySource i = i
  named : ∀ i k, 0 < i → d.keys[i]? = some k → d.source k = i
  keyed : ∀ k, d.source k ≠ 0 → d.keys[d.source k]? = some k

theorem source_register (d : Directory) {k : Key} (hk : k ≠ .path []) (k' : Key) :
    (d.register k).source k' = if k' = k then d.keys.length else d.source k' := by
  cases k with
  | path p =>
      cases k' with
      | path q =>
          by_cases hpq : q = p
          · subst hpq
            have hq : q ≠ [] := fun h => hk (h ▸ rfl)
            simp [source, register, hq]
          · simp [source, register, hpq]
      | name n => simp [source, register]
  | name n =>
      cases k' with
      | path q => simp [source, register]
      | name m =>
          by_cases hmn : m = n
          · subst hmn
            simp [source, register]
          · simp [source, register, hmn]

theorem OneToOne.register {d : Directory} (h : OneToOne d) {k : Key} (hk : k ≠ .path []) (hnew : d.source k = 0) :
    OneToOne (d.register k) := by
  have hsource := d.source_register hk
  refine ⟨?_, ?_, ?_, fun i file hfile => ?_, fun i k' hi hkey => ?_, fun k' hne => ?_⟩
  · simp [Directory.register]
  · simp [Directory.register, h.files]
  · simp [Directory.register, h.namespaces]
  · simp only [Directory.register, List.getElem?_append] at hfile ⊢
    by_cases hi : i < d.files.length
    · rw [if_pos hi] at hfile
      obtain ⟨hsrc, howner, hback⟩ := h.rows i file hfile
      rw [Function.update_of_ne (by have := h.files; omega)]
      exact ⟨hsrc, howner, hback⟩
    · rw [if_neg hi] at hfile
      obtain ⟨hlt, rfl⟩ := List.getElem?_eq_some_iff.mp hfile
      obtain rfl : i = d.files.length := by simp at hlt; omega
      simp [h.files, h.namespaces]
  · rw [hsource]
    simp only [Directory.register, List.getElem?_append] at hkey
    by_cases hlt : i < d.keys.length
    · rw [if_pos hlt] at hkey
      have hold := h.named i k' hi hkey
      rw [if_neg]
      · exact hold
      · rintro rfl
        omega
    · rw [if_neg hlt] at hkey
      obtain ⟨hlt', rfl⟩ := List.getElem?_eq_some_iff.mp hkey
      obtain rfl : i = d.keys.length := by simp at hlt'; omega
      simp
  · rw [hsource] at hne ⊢
    by_cases hk' : k' = k
    · subst hk'
      simp [Directory.register]
    · rw [if_neg hk'] at hne ⊢
      have hold := h.keyed k' hne
      have hlt := (List.getElem?_eq_some_iff.mp hold).1
      exact (List.getElem?_append_left hlt).trans hold

end Directory

theorem getElem?_mono {β : Type*} {l l' : List β} {i : Nat} {a : β} (h : l <+: l') (hget : l[i]? = some a) :
    l'[i]? = some a := by
  obtain ⟨more, rfl⟩ := h
  rw [List.getElem?_append_left (List.getElem?_eq_some_iff.mp hget).1]
  exact hget

theorem directory_inputChanged {dur : Durability} (hstep : w.inputChanged dur = some w') :
    directory w' = directory w := by
  simp only [Workspace.inputChanged, Option.ite_none_right_eq_some, Option.some.injEq] at hstep
  obtain ⟨-, rfl⟩ := hstep
  rfl

theorem directory_fileSetAdd (w : Workspace V) (owner : Nat) (f : FileId) :
    directory (w.fileSetAdd owner f) = directory w := by
  obtain ⟨hfiles, hsources, hbySource, hbyPath, hmembers⟩ := fileSetAdd_rest w owner f
  have hvirtual : (w.fileSetAdd owner f).virtualByName = w.virtualByName := by
    rw [Workspace.fileSetAdd]
    split <;> rfl
  simp only [directory, hfiles, hsources, hbySource, hbyPath, hmembers, hvirtual]

theorem directory_setSource (w : Workspace V) {src : Nat} {row : Source} (new : Source)
    (hrow : w.sources[src]? = some row)
    (hkey : keyOf new = keyOf row) : directory { w with sources := w.sources.set src new } = directory w := by
  obtain ⟨hlt, rfl⟩ := List.getElem?_eq_some_iff.mp hrow
  have hset : (w.sources.set src new).map keyOf = w.sources.map keyOf := by
    rw [List.map_set, hkey, ← List.getElem_map keyOf (h := by simpa using hlt), List.set_getElem_self]
  simp only [directory, hset]

theorem directory_readmitSource (w : Workspace V) (src : Nat) : directory (w.readmitSource src) = directory w := by
  simp only [Workspace.readmitSource]
  split
  · rfl
  · rename_i row hrow
    split
    · rfl
    · have hset := directory_setSource w { row with evicted := false } hrow rfl
      split
      · exact hset
      · rw [directory_fileSetAdd]
        exact hset

theorem directory_setSourceText {src : Nat} {text : Bytes} (hstep : w.setSourceText src text = some w') :
    directory w' = directory w := by
  simp only [Workspace.setSourceText] at hstep
  split at hstep
  · rw [Option.some.inj hstep]
  · rename_i row hrow
    split at hstep
    · rw [Option.some.inj hstep]
    · split at hstep
      · split at hstep
        · rw [Option.some.inj hstep]
        · obtain ⟨t, hchanged, rfl⟩ := Option.map_eq_some_iff.mp hstep
          exact (directory_inputChanged hchanged).trans (directory_setSource w _ hrow rfl)
      · simp at hstep

theorem directory_reopen {src : Nat} {text : Bytes} (hstep : w.reopen src text = some w') :
    directory w' = directory w :=
  (directory_setSourceText hstep).trans (directory_readmitSource w src)

theorem directory_createFile {src owner : Nat} {bump : Bool} (hstep : w.createFile src owner bump = some w') :
    directory w' = { directory w with
      files := w.files ++ [⟨⟨w.files.length, false⟩, src, owner⟩]
      fileBySource := Function.update w.fileBySource src w.files.length } := by
  simp only [Workspace.createFile] at hstep
  split at hstep
  · rw [← Option.some.inj hstep]
    rfl
  · split at hstep
    · obtain ⟨t, hchanged, rfl⟩ := Option.map_eq_some_iff.mp hstep
      rw [directory_fileSetAdd, directory_inputChanged hchanged]
      rfl
    · rw [← Option.some.inj hstep, directory_fileSetAdd]
      rfl

theorem directory_createVirtualFile (w : Workspace V) (src owner : Nat) :
    directory (w.createVirtualFile src owner) = { directory w with
      files := w.files ++ [⟨⟨w.files.length, true⟩, src, owner⟩]
      fileBySource := Function.update w.fileBySource src w.files.length } := by
  rw [Workspace.createVirtualFile, directory_fileSetAdd]
  rfl

theorem directory_register {path text : Bytes} {bump : Bool} (hstep : w.register path text none bump = some w') :
    directory w' = (directory w).register (.path path) := by
  simp only [Workspace.register] at hstep
  split at hstep
  · simp at hstep
  · rename_i src t hcreate
    simp only [Workspace.createSourceRow, Option.ite_none_right_eq_some, Option.some.injEq, Prod.mk.injEq] at hcreate
    obtain ⟨-, rfl, rfl⟩ := hcreate
    rw [directory_createFile hstep]
    simp [directory, Directory.register, Workspace.createNamespace, Workspace.inputSet, keyOf, Key.isVirtual]

theorem directory_admitVirtual {name text : Bytes} (hstep : w.admitVirtual name text = some w') :
    directory w' = directory w ∨
      lookupSource w (.name name) = 0 ∧ directory w' = (directory w).register (.name name) := by
  simp only [Workspace.admitVirtual] at hstep
  split at hstep
  · exact .inl (by rw [Option.some.inj hstep])
  · rename_i hfree
    simp only [not_or, ne_eq, Decidable.not_not] at hfree
    split at hstep
    · simp at hstep
    · rename_i src t hcreate
      simp only [Workspace.createSourceRow, Option.ite_none_right_eq_some, Option.some.injEq, Prod.mk.injEq] at hcreate
      obtain ⟨-, rfl, rfl⟩ := hcreate
      rw [Option.some.injEq] at hstep
      refine .inr ⟨hfree.2.2, ?_⟩
      have hvirtual (t : Workspace V) (src : Nat) :
          directory { t with virtualByName := Function.update t.virtualByName name src } =
            { directory t with virtualByName := Function.update (directory t).virtualByName name src } := rfl
      rw [← hstep, hvirtual, directory_createVirtualFile]
      simp [directory, Directory.register, Workspace.createNamespace, Workspace.inputSet, keyOf, Key.isVirtual]

section Evict

variable [Inhabited V]

theorem directory_evictFile (w : Workspace V) (file : File) : directory (w.evictFile file) = directory w := by
  simp only [Workspace.evictFile, Workspace.namespaceRemoveFile]
  split
  · rfl
  · simp [directory, Workspace.inputSet]

theorem directory_evictFiles (src : Nat) (files : List File) (w : Workspace V) :
    directory (evictFiles src files w) = directory w := by
  induction files generalizing w with
  | nil => rfl
  | cons file rest ih =>
      rw [Workspace.evictFiles, ih]
      split
      · exact directory_evictFile w file
      · rfl

theorem directory_didEvictSource {path : Bytes} (hstep : w.didEvictSource path = some w') :
    directory w' = directory w := by
  simp only [Workspace.didEvictSource] at hstep
  split at hstep
  · rw [Option.some.inj hstep]
  · rw [directory_inputChanged hstep, directory_evictFiles]
    have hkeys : (w.sources.modify (w.lookupSourceByPath path) fun row =>
      { row with evicted := true, text := none, textLen := 0 }).map keyOf =
        w.sources.map keyOf := by
      apply List.ext_getElem?
      intro i
      rw [List.getElem?_map, List.getElem?_map, List.getElem?_modify]
      cases w.sources[i]? with
      | none => rfl
      | some row =>
          simp only [Option.map_some]
          split <;> rfl
    simp only [directory, hkeys]

/-- The events of an editing session. An empty path has no identity. -/
def Editing : Event → Prop
  | .didOpen path _ => path ≠ []
  | .loadImport path _ => path ≠ []
  | .createNamespace => False
  | .addFile _ _ _ => False
  | _ => True

variable {realpath : Bytes → Option Bytes}

omit [Inhabited V] in
theorem directory_loadImport {path : Bytes} {disk : Option Bytes} (hstep : w.loadImport path disk = some w') :
    directory w' = directory w ∨ lookupSource w (.path path) = 0 ∧
      directory w' = (directory w).register (.path path) := by
  simp only [Workspace.loadImport] at hstep
  split at hstep
  · exact .inl (by rw [Option.some.inj hstep])
  · rename_i hnew
    split at hstep
    · exact .inl (by rw [Option.some.inj hstep])
    · exact .inr ⟨Decidable.not_not.mp hnew, directory_register hstep⟩

/-- An event leaves the tables of identity, or enters one key that was not
there. -/
theorem directory_step (hreal : ∀ p c, realpath p = some c → c ≠ []) {e : Event} (he : Editing e)
    (hstep : step realpath w e = some w') :
    directory w' = directory w ∨
      ∃ k, k ≠ .path [] ∧ lookupSource w k = 0 ∧ directory w' = (directory w).register k := by
  have hpath {path : Bytes} (hne : path ≠ []) (h : directory w' = directory w ∨
      lookupSource w (.path path) = 0 ∧ directory w' = (directory w).register (.path path)) :
      directory w' = directory w ∨ ∃ k, k ≠ .path [] ∧ lookupSource w k = 0 ∧ directory w' = (directory w).register k :=
    h.imp_right fun h => ⟨.path path, by simpa using hne, h⟩
  cases e with
  | didOpen path text =>
      have hne : canonicalizePath realpath path ≠ [] := by
        rw [canonicalizePath]
        cases hc : realpath path with
        | none => exact he
        | some c => exact hreal path c hc
      simp only [WorkspaceModel.step, Workspace.didOpen] at hstep
      split at hstep
      · exact .inl (directory_reopen hstep)
      · rename_i hnew
        exact hpath hne (.inr ⟨Decidable.not_not.mp hnew, directory_register hstep⟩)
  | didChange path text =>
      simp only [WorkspaceModel.step, Workspace.didChange] at hstep
      split at hstep
      · exact .inl (directory_reopen hstep)
      · exact .inl (by rw [Option.some.inj hstep])
  | didChangeExternal path text =>
      simp only [WorkspaceModel.step, Workspace.didChangeExternal] at hstep
      split at hstep
      · split at hstep
        · exact .inl (directory_reopen hstep)
        · exact .inl (by rw [Option.some.inj hstep])
      · exact .inl (by rw [Option.some.inj hstep])
  | didEvictSource path => exact .inl (directory_didEvictSource hstep)
  | loadImport path disk => exact hpath he (directory_loadImport hstep)
  | resolveImport importer pathStr disk =>
      obtain ⟨⟨t, owner⟩, hresolve, rfl⟩ := Option.map_eq_some_iff.mp hstep
      rcases resolveImport_cases hresolve with rfl | ⟨joined, path, text, hjoined, hload⟩
      · exact .inl rfl
      · exact hpath (hreal joined path hjoined) (directory_loadImport hload)
  | admitVirtual name text =>
      exact (directory_admitVirtual hstep).imp_right fun h => ⟨.name name, by simp, h⟩
  | createNamespace => exact absurd he id
  | addFile path text owner => exact absurd he id

omit [Inhabited V] in
theorem source_directory (w : Workspace V) (k : Key) : (directory w).source k = lookupSource w k := by
  cases k <;> rfl

theorem oneToOne_step (hreal : ∀ p c, realpath p = some c → c ≠ []) {e : Event} (he : Editing e)
    (hstep : step realpath w e = some w') (h : (directory w).OneToOne) :
    (directory w').OneToOne ∧ ∀ k, lookupSource w k ≠ 0 → lookupSource w' k = lookupSource w k := by
  rcases directory_step hreal he hstep with hsame | ⟨k, hk, hnew, hregister⟩
  · refine ⟨hsame ▸ h, fun k _ => ?_⟩
    rw [← source_directory, hsame, source_directory]
  · refine ⟨hregister ▸ h.register hk (by rwa [source_directory]), fun k' hne => ?_⟩
    rw [← source_directory, hregister, Directory.source_register _ hk, if_neg, source_directory]
    rintro rfl
    exact hne hnew

theorem oneToOne_run (hreal : ∀ p c, realpath p = some c → c ≠ []) {events : List Event}
    (hevents : ∀ e ∈ events, Editing e)
    (hrun : run realpath events w = some w') (h : (directory w).OneToOne) :
    (directory w').OneToOne ∧ ∀ k, lookupSource w k ≠ 0 → lookupSource w' k = lookupSource w k := by
  induction events generalizing w with
  | nil =>
      obtain rfl := Option.some.inj hrun
      exact ⟨h, fun _ _ => rfl⟩
  | cons e es ih =>
      rw [WorkspaceModel.run, List.foldlM_cons] at hrun
      obtain ⟨t, hstep, hrest⟩ := Option.bind_eq_some_iff.mp hrun
      obtain ⟨ht, hsame⟩ := oneToOne_step hreal (hevents e (List.mem_cons_self ..)) hstep h
      obtain ⟨hw', hsame'⟩ := ih (fun e' he' => hevents e' (List.mem_cons_of_mem _ he')) hrest ht
      refine ⟨hw', fun k hne => ?_⟩
      rw [hsame' k (by rwa [hsame k hne]), hsame k hne]

end Evict

theorem lookup_eq (h : (directory w).OneToOne) (k : Key) :
    lookup w k = ⟨lookupSource w k, lookupSource w k, lookupSource w k⟩ := by
  have hlt : lookupSource w k < w.files.length := by
    have hfiles : w.files.length = w.sources.length := by simpa [directory] using h.files
    by_cases hzero : lookupSource w k = 0
    · have := h.positive
      simp only [directory, List.length_map] at this
      omega
    · have hkey := h.keyed k (by rwa [source_directory])
      have hlt := (List.getElem?_eq_some_iff.mp hkey).1
      rw [source_directory] at hlt
      simp only [directory, List.length_map] at hlt
      omega
  obtain ⟨-, howner, hback⟩ := h.rows _ _ (List.getElem?_eq_getElem hlt)
  have hfile : w.lookupFileBySource (lookupSource w k) = lookupSource w k := by
    rw [Workspace.lookupFileBySource]
    split
    · rename_i hzero
      exact hzero.symm
    · exact hback
  rw [lookup, hfile, Workspace.fileNamespace, List.getElem?_eq_getElem hlt]
  simp [howner]

/-- Keys, sources, files and namespaces belong to one another one to one. -/
structure Identified (w : Workspace V) : Prop where
  found : ∀ k, (lookup w k).source ≠ 0 → ∃ row file, w.sources[(lookup w k).source]? = some row ∧ keyOf row = k ∧
    w.files[(lookup w k).file]? = some file ∧ file.source = (lookup w k).source ∧ file.owner = (lookup w k).owner ∧
      (lookup w k).file ≠ 0 ∧ (lookup w k).owner ≠ 0
  sources : ∀ src row, 0 < src → w.sources[src]? = some row → (lookup w (keyOf row)).source = src
  files : ∀ i file, 0 < i → w.files[i]? = some file →
    ∃ row, w.sources[file.source]? = some row ∧ lookup w (keyOf row) = ⟨file.source, i, file.owner⟩
  apart : ∀ k k', k ≠ k' → (lookup w k).source ≠ 0 → (lookup w k).source ≠ (lookup w k').source ∧
    (lookup w k).file ≠ (lookup w k').file ∧ (lookup w k).owner ≠ (lookup w k').owner

theorem keys_getElem {src : Nat} {k : Key} (h : (directory w).keys[src]? = some k) : ∃ row,
    w.sources[src]? = some row ∧ keyOf row = k := by
  rw [directory, List.getElem?_map] at h
  exact Option.map_eq_some_iff.mp h

theorem identified (h : (directory w).OneToOne) : Identified w := by
  have hkeyed (k : Key) (hne : lookupSource w k ≠ 0) : ∃ row, w.sources[lookupSource w k]? = some row ∧
    keyOf row = k := by
    have hkey := h.keyed k (by rwa [source_directory])
    rw [source_directory] at hkey
    exact keys_getElem hkey
  have hfiles : w.files.length = w.sources.length := by simpa [directory] using h.files
  have hnamed (src : Nat) (row : Source) (hpos : 0 < src) (hrow : w.sources[src]? = some row) :
    lookupSource w (keyOf row) = src := by
    rw [← source_directory]
    refine h.named src (keyOf row) hpos ?_
    rw [directory, List.getElem?_map, hrow]
    rfl
  refine ⟨fun k hne => ?_, fun src row hpos hrow => ?_, fun i file hpos hfile => ?_, fun k k' hkk hne => ?_⟩
  · rw [lookup_eq h] at hne ⊢
    obtain ⟨row, hrow, hkey⟩ := hkeyed k hne
    have hlt := (List.getElem?_eq_some_iff.mp hrow).1
    rw [← hfiles] at hlt
    obtain ⟨hsrc, howner, -⟩ := h.rows _ _ (List.getElem?_eq_getElem hlt)
    exact ⟨row, _, hrow, hkey, List.getElem?_eq_getElem hlt, hsrc, howner, hne, hne⟩
  · rw [lookup_eq h]
    exact hnamed src row hpos hrow
  · obtain ⟨hsrc, howner, -⟩ := h.rows i file hfile
    have hlt := (List.getElem?_eq_some_iff.mp hfile).1
    rw [hfiles] at hlt
    refine ⟨w.sources[i], ?_, ?_⟩
    · rw [hsrc]
      exact List.getElem?_eq_getElem hlt
    · rw [lookup_eq h, hnamed i _ hpos (List.getElem?_eq_getElem hlt), hsrc, howner]
  · rw [lookup_eq h] at hne
    rw [lookup_eq h, lookup_eq h]
    have hsource : lookupSource w k ≠ lookupSource w k' := by
      intro heq
      obtain ⟨row, hrow, hkey⟩ := hkeyed k hne
      obtain ⟨row', hrow', hkey'⟩ := hkeyed k' (heq ▸ hne)
      rw [heq, hrow'] at hrow
      obtain rfl := Option.some.inj hrow
      exact hkk (hkey.symm.trans hkey')
    exact ⟨hsource, hsource, hsource⟩

theorem oneToOne_initial (V : Type) [Inhabited V] : (directory (Workspace.initial V)).OneToOne := by
  refine ⟨Nat.one_pos, rfl, rfl, fun i file hfile => ?_, fun i k hpos hkey => ?_, fun k hne => ?_⟩
  · obtain ⟨hlt, rfl⟩ := List.getElem?_eq_some_iff.mp hfile
    obtain rfl : i = 0 := Nat.lt_one_iff.mp hlt
    exact ⟨rfl, rfl, rfl⟩
  · have hlt : i < 1 := (List.getElem?_eq_some_iff.mp hkey).1
    omega
  · refine absurd ?_ hne
    cases k with
    | path path => exact ite_self _
    | name name => rfl

theorem source_of_didOpen [Inhabited V] {realpath : Bytes → Option Bytes} (hreal : ∀ p c, realpath p = some c → c ≠ [])
    (h : (directory w).OneToOne) {path text : Bytes} (hpath : path ≠ [])
      (hstep : step realpath w (.didOpen path text) = some w') :
    lookupSource w' (.path (canonicalizePath realpath path)) ≠ 0 := by
  have hne : canonicalizePath realpath path ≠ [] := by
    rw [canonicalizePath]
    cases hc : realpath path with
    | none => exact hpath
    | some c => exact hreal path c hc
  have hstep' := hstep
  simp only [WorkspaceModel.step, Workspace.didOpen] at hstep
  split at hstep
  · rename_i hknown
    obtain ⟨-, hsame⟩ := oneToOne_step hreal (e := .didOpen path text) hpath hstep' h
    have hsource : lookupSource w (.path (canonicalizePath realpath path)) ≠ 0 := hknown
    rwa [hsame _ hsource]
  · rw [← source_directory, directory_register hstep, Directory.source_register _ (by simpa using hne), if_pos rfl]
    exact Nat.ne_of_gt h.positive

theorem owner_of_resolveImport {realpath : Bytes → Option Bytes} (hreal : ∀ p c, realpath p = some c → c ≠ [])
    (h : (directory w).OneToOne) {importer owner : Nat} {pathStr : Bytes} {disk : Option Bytes}
    (hstep : w.resolveImport realpath importer pathStr disk = some (w', owner)) (howner : owner ≠ 0) :
    ∃ k, (lookup w' k).owner = owner ∧ (k = .name pathStr ∨ ∃ joined c, realpath joined = some c ∧ k = .path c) := by
  have hzero {t : Workspace V} (hsame : some (w, 0) = some (t, owner)) : False :=
    howner (Prod.mk.inj (Option.some.inj hsame)).2.symm
  simp only [Workspace.resolveImport] at hstep
  split at hstep
  · exact (hzero hstep).elim
  · split at hstep
    · exact (hzero hstep).elim
    · split at hstep
      · exact (hzero hstep).elim
      · split at hstep
        · split at hstep
          · simp at hstep
          · obtain ⟨rfl, hans⟩ := Prod.mk.inj (Option.some.inj hstep)
            exact ⟨.name pathStr, hans, .inl rfl⟩
        · split at hstep
          · exact (hzero hstep).elim
          · rename_i canonical hcanonical
            obtain ⟨-, hjoined⟩ := Option.ite_none_left_eq_some.mp hcanonical
            split at hstep
            · obtain ⟨rfl, hans⟩ := Prod.mk.inj (Option.some.inj hstep)
              exact ⟨.path canonical, hans, .inr ⟨_, _, hjoined, rfl⟩⟩
            · rename_i hnew
              split at hstep
              · exact (hzero hstep).elim
              · rename_i text
                obtain ⟨t, hload, hpair⟩ := Option.map_eq_some_iff.mp hstep
                obtain ⟨rfl, rfl⟩ := Prod.mk.inj hpair
                have hne : Key.path canonical ≠ .path [] := by simpa using hreal _ _ hjoined
                have hsource : lookupSource w (.path canonical) = 0 := Decidable.not_not.mp hnew
                have hregister : directory t = (directory w).register (.path canonical) := by
                  rw [Workspace.loadImport, if_neg hnew] at hload
                  exact directory_register hload
                have hone : (directory t).OneToOne := hregister ▸ h.register hne (by rwa [source_directory])
                refine ⟨.path canonical, ?_, .inr ⟨_, _, hjoined, rfl⟩⟩
                rw [lookup_eq hone, ← source_directory, hregister, Directory.source_register _ hne, if_pos rfl]
                exact h.namespaces.symm

/-- In every editing session without empty paths, identity is one to one and
kept for good. -/
theorem identity_one_to_one [Inhabited V] {realpath : Bytes → Option Bytes}
    (hreal : ∀ p c, realpath p = some c → c ≠ [])
    {events : List Event} (hevents : ∀ e ∈ events, Editing e) (hrun : run realpath events (initial V) = some w) :
    Identified w ∧
    (∀ later w', (∀ e ∈ later, Editing e) → run realpath later w = some w' → ∀ k, (lookup w k).source ≠ 0 →
      lookup w' k = lookup w k) ∧
    (∀ path text w', path ≠ [] → step realpath w (.didOpen path text) = some w' →
      (lookup w' (.path (canonicalizePath realpath path))).source ≠ 0) ∧
    (∀ importer pathStr disk w' owner, w.resolveImport realpath importer pathStr disk = some (w', owner) → owner ≠ 0 →
      ∃ k, (lookup w' k).owner = owner ∧ (k = .name pathStr ∨ ∃ joined c, realpath joined = some c ∧ k = .path c)) := by
  have h := (oneToOne_run hreal hevents hrun (oneToOne_initial V)).1
  refine ⟨identified h, fun later w' hlater hrun' k hne => ?_, fun path text w' hpath hstep =>
    source_of_didOpen hreal h hpath hstep,
    fun importer pathStr disk w' owner hstep howner => owner_of_resolveImport hreal h hstep howner⟩
  obtain ⟨h', hsame⟩ := oneToOne_run hreal hlater hrun' h
  rw [lookup_eq h', lookup_eq h, hsame k hne]

def plainRealpath (path : Bytes) : Option Bytes := if path = [] then none else some path

def sessionEvents : List Event :=
  [.admitVirtual [98] [1], .didOpen [47, 97] [2], .didEvictSource [47, 97], .didOpen [47, 97] [3]]

theorem identity_one_to_one_session :
    ∃ w : Workspace Nat, run plainRealpath sessionEvents (initial Nat) = some w ∧
      lookup w (.path [47, 97]) = ⟨2, 2, 2⟩ ∧ Identified w := by
  have hlookup : (run plainRealpath sessionEvents (initial Nat)).map (lookup · (.path [47, 97])) = some
    ⟨2, 2, 2⟩ := by decide +kernel
  obtain ⟨w, hrun, hw⟩ := Option.map_eq_some_iff.mp hlookup
  have hreal (p c : Bytes) (h : plainRealpath p = some c) : c ≠ [] := by
    obtain ⟨hne, hpc⟩ := Option.ite_none_left_eq_some.mp h
    exact Option.some.inj hpc ▸ hne
  exact ⟨w, hrun, hw, (identity_one_to_one hreal (by simp [sessionEvents, Editing]) hrun).1⟩

/-- The empty path gets a new source, file and namespace whenever it is opened. -/
theorem empty_path_twice :
    ∃ w : Workspace Nat, run plainRealpath [.didOpen [] [1], .didOpen [] [2]] (initial Nat) = some w ∧
      w.sources.tail.map keyOf = [.path [], .path []] ∧ w.files.tail.map (fun f => (f.source, f.owner)) =
        [(1, 1), (2, 2)] ∧
        ¬Identified w := by
  have htables : (run plainRealpath [.didOpen [] [1], .didOpen [] [2]] (initial Nat)).map
      (fun w => (w.sources.tail.map keyOf, w.files.tail.map fun f => (f.source, f.owner))) =
        some ([.path [], .path []], [(1, 1), (2, 2)]) := by decide +kernel
  obtain ⟨w, hrun, hw⟩ := Option.map_eq_some_iff.mp htables
  obtain ⟨hkeys, hfiles⟩ := Prod.mk.inj hw
  refine ⟨w, hrun, hkeys, hfiles, fun h => ?_⟩
  have hkey : (w.sources.tail.map keyOf)[0]? = some (.path []) := by rw [hkeys]; rfl
  rw [List.getElem?_map, List.getElem?_tail] at hkey
  obtain ⟨row, hrow, hpath⟩ := Option.map_eq_some_iff.mp hkey
  have hsource := h.sources 1 row Nat.one_pos hrow
  rw [hpath] at hsource
  exact absurd hsource (Nat.zero_ne_one)

end Ore.WorkspaceIdentity
