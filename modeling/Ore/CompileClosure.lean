import Ore.BodyScopes
import Ore.WorkspaceIdentity
import Ore.Worklist
import Mathlib.Data.List.Perm.Subperm

namespace Ore.CompileClosure

open SyntaxKinds GreenTree DeclAstPaths BodyScopes
open WorkspaceModel Workspace WorkspacePaths WorkspaceIdentity FileSets

section Imports

def isLiteralTok (kind : SyntaxKind) : Bool :=
  kind ∈ [.intLit, .floatLit, .stringLit, .byteLit, .asmLit, .trueKw, .falseKw, .nilKw, .unreachableKw]

def literalToken (n : Placed) : Option GreenToken :=
  n.node.children.findSome? fun
    | .token tok => if isLiteralTok tok.kind then some tok else none
    | .node _ _ => none

def quote : UInt8 := 0x22

def unquote (text : Bytes) : Bytes :=
  if 2 ≤ text.length ∧ text.head? = some quote ∧ text.getLast? = some quote then text.tail.dropLast else text

def astStringLiteralText (n : Placed) : Option Bytes :=
  if n.node.kind = .literalExpr then
    ((literalToken n).filter fun tok => tok.kind = .stringLit).map fun tok => unquote tok.text
  else none

def importName : Bytes := [105, 109, 112, 111, 114, 116]

def importSiteOf (n : Placed) : Option Bytes :=
  if n.node.kind = .builtinExpr then
    match NamespaceItems.firstToken .ident n.node.children with
    | none => none
    | some name =>
        if cstr name.text = importName then
          (astFirstChild n .argList).bind fun args => (childNodes args).head?.bind astStringLiteralText
        else none
  else none

/-- The paths of the imports of a tree, in document order. -/
def dbQueryFileImports (root : Green) : List Bytes := (placed 0 [] root).filterMap importSiteOf

end Imports

section Compile

variable {V : Type}

/-- What the workspace is asked from outside: canonical paths, the texts on disk, the trees of
texts, and the imports that the check of a namespace resolves. -/
structure Host (V : Type) where
  realpath : Bytes → Option Bytes
  slurp : Bytes → Option Bytes
  fileAst : Bytes → Option Green
  demanded : Workspace V → Nat → List (Nat × Bytes)

variable (host : Host V)

def importPath (w : Workspace V) (importer : Nat) (pathStr : Bytes) : Option Bytes :=
  match w.namespaceFiles importer with
  | [] => none
  | file :: _ => canonicalizeRelative host.realpath (cstr (w.sourcePath (w.fileSource file))) (cstr pathStr)

def workspaceResolveImport (w : Workspace V) (importer : Nat) (pathStr : Bytes) : Option (Workspace V × Nat) :=
  w.resolveImport host.realpath importer pathStr ((importPath host w importer pathStr).bind host.slurp)

def fileImports (w : Workspace V) (f : FileId) : List Bytes :=
  (((w.sources[w.fileSource f]?.bind (·.text)).bind host.fileAst).map dbQueryFileImports).getD []

def checkNamespace (w : Workspace V) (owner : Nat) : Option (Workspace V) :=
  (host.demanded w owner).foldlM (fun w d => (workspaceResolveImport host w d.1 d.2).map Prod.fst) w

def followImport (owner : Nat) (r : Workspace V × List FileId) (pathStr : Bytes) : Option (Workspace V × List FileId) :=
  (workspaceResolveImport host r.1 owner pathStr).map fun (w, target) => (w, r.2 ++ w.namespaceFiles target)

def visit (w : Workspace V) (f : FileId) : Option (Workspace V × List FileId) :=
  let owner := w.fileNamespace f
  if owner = 0 then some (w, [])
  else (checkNamespace host w owner).bind fun w => (fileImports host w f).foldlM (followImport host owner) (w, [])

/-- Between the parses of the profile loop the revision moves. -/
def profile (count : Nat) (w : Workspace V) : Option (Workspace V) :=
  (List.range (count - 1)).foldlM (fun w _ => w.inputChanged .low) w

/-- The file, and those whose diagnostics are collected. The inner `none` is a failed assertion,
the outer one a lack of fuel. -/
def compileFile (fuel : Nat) (w : Workspace V) (src profileCount : Nat) :
    Option (Option (Workspace V × FileId × List FileId)) :=
  let f : FileId := ⟨w.lookupFileBySource src, false⟩
  if src = 0 ∨ f.row = 0 ∨ w.fileNamespace f = 0 then some (some (w, ⟨0, false⟩, []))
  else
    match profile profileCount w with
    | none => some none
    | some w => (Worklist.collect (visit host) fuel w f).map fun r => r.map fun (w, closure) => (w, f, closure)

end Compile

section Growth

variable {V : Type} {slurp : Bytes → Option Bytes} {w w' t : Workspace V} {k : Key} {f : FileId} {file : File}
    {owner : Nat}

/-- The tables only grow, by sources that are on disk. -/
structure Grows (slurp : Bytes → Option Bytes) (w w' : Workspace V) : Prop where
  sources : w.sources <+: w'.sources
  files : w.files <+: w'.files
  members : w.members <+: w'.members
  loaded : ∀ src row, w.sources.length ≤ src → w'.sources[src]? = some row →
    row.isVirtual = false ∧ (slurp row.path).isSome

theorem Grows.refl (w : Workspace V) : Grows slurp w w where
  sources := List.prefix_rfl
  files := List.prefix_rfl
  members := List.prefix_rfl
  loaded := by
    intro src row hsrc hrow
    exact absurd (List.getElem?_eq_some_iff.mp hrow).1 (Nat.not_lt.mpr hsrc)

theorem Grows.trans (h : Grows slurp w w') (h' : Grows slurp w' t) : Grows slurp w t where
  sources := h.sources.trans h'.sources
  files := h.files.trans h'.files
  members := h.members.trans h'.members
  loaded := by
    intro src row hsrc hrow
    by_cases hlt : src < w'.sources.length
    · have hrow' := getElem?_mono h'.sources (List.getElem?_eq_getElem hlt)
      rw [hrow] at hrow'
      exact h.loaded src row hsrc (Option.some.inj hrow' ▸ List.getElem?_eq_getElem hlt)
    · exact h'.loaded src row (Nat.not_lt.mp hlt) hrow

/-- Workspaces as editing leaves them. -/
structure Good (w : Workspace V) : Prop where
  filed : Filed w
  oneToOne : (directory w).OneToOne

theorem Good.lengths (h : Good w) : w.files.length = w.sources.length ∧ w.members.length = w.sources.length := by
  have hfiles := h.oneToOne.files
  have hmembers := h.oneToOne.namespaces
  simp only [directory, List.length_map] at hfiles hmembers
  exact ⟨hfiles, hmembers⟩

theorem Good.row (h : Good w) (hrow : w.files[f.row]? = some file) : file.source = f.row ∧ file.owner = f.row := by
  obtain ⟨hsource, howner, -⟩ := h.oneToOne.rows f.row file hrow
  exact ⟨hsource, howner⟩

theorem Good.source_lt (h : Good w) (k : Key) : lookupSource w k < w.sources.length := by
  by_cases hzero : lookupSource w k = 0
  · rw [hzero]
    exact h.filed.sources
  · have hkey := h.oneToOne.keyed k (by rwa [source_directory])
    obtain ⟨row, hrow, -⟩ := keys_getElem hkey
    rw [source_directory] at hrow
    exact (List.getElem?_eq_some_iff.mp hrow).1

theorem fileSource_eq (h : Good w) (hrow : w.files[f.row]? = some file) : w.fileSource f = f.row := by
  rw [Workspace.fileSource, hrow]
  exact (h.row hrow).1

theorem fileNamespace_eq (h : Good w) (hrow : w.files[f.row]? = some file) : w.fileNamespace f = f.row := by
  rw [Workspace.fileNamespace, hrow]
  exact (h.row hrow).2

theorem source_kept (h : Good w) (h' : Good w') (hgrows : Grows slurp w w') (hne : lookupSource w k ≠ 0) :
    lookupSource w' k = lookupSource w k := by
  have hkey := h.oneToOne.keyed k (by rwa [source_directory])
  rw [source_directory] at hkey
  obtain ⟨row, hrow, rfl⟩ := keys_getElem hkey
  have hrow' := getElem?_mono hgrows.sources hrow
  have hnamed := h'.oneToOne.named (lookupSource w (keyOf row)) (keyOf row) (Nat.pos_of_ne_zero hne) (by
    rw [directory, List.getElem?_map, hrow']
    rfl)
  rwa [source_directory] at hnamed

theorem source_loaded (h : Good w) (h' : Good w') (hgrows : Grows slurp w w') (hzero : lookupSource w k = 0)
    (hne : lookupSource w' k ≠ 0) : ∃ path, k = .path path ∧ (slurp path).isSome := by
  have hkey := h'.oneToOne.keyed k (by rwa [source_directory])
  rw [source_directory] at hkey
  obtain ⟨row, hrow, rfl⟩ := keys_getElem hkey
  by_cases hlt : lookupSource w' (keyOf row) < w.sources.length
  · have hold : w.sources[lookupSource w' (keyOf row)]? = some row := by
      have hsame := getElem?_mono hgrows.sources (List.getElem?_eq_getElem hlt)
      rw [hrow] at hsame
      rw [List.getElem?_eq_getElem hlt]
      exact hsame.symm
    have hnamed := h.oneToOne.named (lookupSource w' (keyOf row)) (keyOf row) (Nat.pos_of_ne_zero hne) (by
      rw [directory, List.getElem?_map, hold]
      rfl)
    rw [source_directory, hzero] at hnamed
    exact absurd hnamed.symm hne
  · obtain ⟨hphysical, hdisk⟩ := hgrows.loaded _ row (Nat.not_lt.mp hlt) hrow
    refine ⟨row.path, ?_, hdisk⟩
    rw [keyOf, hphysical]
    rfl

theorem Good.member (h : Good w) (hmem : f ∈ w.namespaceFiles owner) :
    f.row ≠ 0 ∧ ∃ file, w.files[f.row]? = some file ∧ file.id = f := by
  rw [Workspace.namespaceFiles] at hmem
  split at hmem
  · cases hmem
  · rename_i howner
    have hlist : f ∈ memberList w owner := (List.mem_filter.mp hmem).1
    have hlt : owner < w.members.length := by
      by_contra hge
      rw [memberList, List.getElem?_eq_none (Nat.not_lt.mp hge)] at hlist
      cases hlist
    obtain ⟨i, file, hpos, hrow, rfl, -, -⟩ := ((h.filed.listed owner (Nat.pos_of_ne_zero howner) hlt).mem f).mp hlist
    have hid := (h.filed.rows i file hpos hrow).id
    rw [hid]
    exact ⟨Nat.ne_of_gt hpos, file, hrow, rfl⟩

theorem namespaceFiles_kept (h : Good w) (h' : Good w') (hgrows : Grows slurp w w') (hlt : owner < w.members.length) :
    w'.namespaceFiles owner = w.namespaceFiles owner := by
  rw [Workspace.namespaceFiles, Workspace.namespaceFiles]
  split
  · rfl
  · rename_i howner
    have hlist := List.getElem?_eq_getElem hlt
    rw [getElem?_mono hgrows.members hlist, hlist]
    apply List.filter_congr
    intro f hf
    have hmem : f ∈ memberList w owner := by rwa [memberList, hlist]
    obtain ⟨i, file, hpos, hrow, rfl, -, -⟩ := ((h.filed.listed owner (Nat.pos_of_ne_zero howner) hlt).mem f).mp hmem
    have hid := (h.filed.rows i file hpos hrow).id
    rw [← hid] at hrow
    have hrow' := getElem?_mono hgrows.files hrow
    rw [fileSource_eq h hrow, fileSource_eq h' hrow', Workspace.sourceEvicted, Workspace.sourceEvicted]
    have hsrc : file.id.row < w.sources.length := by
      rw [← h.lengths.1]
      exact (List.getElem?_eq_some_iff.mp hrow).1
    have hsource := List.getElem?_eq_getElem hsrc
    rw [getElem?_mono hgrows.sources hsource, hsource]

end Growth

section Resolution

variable {V : Type} {host : Host V} {slurp : Bytes → Option Bytes} {w w' t : Workspace V} {k : Key}
    {owner importer : Nat}
  {pathStr : Bytes}

def importKey (host : Host V) (w : Workspace V) (importer : Nat) (pathStr : Bytes) : Option Key :=
  if pathStr = [] then none
  else
    match w.namespaceFiles importer with
    | [] => none
    | file :: _ =>
        if w.sourcePath (w.fileSource file) = [] then none
        else if lookupSource w (.name pathStr) ≠ 0 then some (.name pathStr)
        else (importPath host w importer pathStr).map .path

def enter (slurp : Bytes → Option Bytes) (w : Workspace V) (k : Key) : Option (Workspace V × Nat) :=
  if lookupSource w k ≠ 0 then some (w, lookupSource w k)
  else
    match k with
    | .name _ => some (w, 0)
    | .path path =>
        match slurp path with
        | none => some (w, 0)
        | some text => (w.register path text none false).map fun w' => (w', w.members.length)

theorem lookup_owner (h : Good w) (k : Key) :
    w.fileNamespace ⟨w.lookupFileBySource (lookupSource w k), false⟩ = lookupSource w k :=
  congrArg Ids.owner (lookup_eq h.oneToOne k)

theorem lookup_file (h : Good w) (k : Key) : w.lookupFileBySource (lookupSource w k) = lookupSource w k :=
  congrArg Ids.file (lookup_eq h.oneToOne k)

theorem resolve_eq (h : Good w) (importer : Nat) (pathStr : Bytes) :
    workspaceResolveImport host w importer pathStr =
      match importKey host w importer pathStr with
      | none => some (w, 0)
      | some k => enter host.slurp w k := by
  rw [workspaceResolveImport, Workspace.resolveImport, importKey]
  by_cases hpath : pathStr = []
  · rw [if_pos hpath, if_pos hpath]
  · rw [if_neg hpath, if_neg hpath]
    cases hfiles : w.namespaceFiles importer with
    | nil => rfl
    | cons file rest =>
        by_cases hsource : w.sourcePath (w.fileSource file) = []
        · simp only [hsource, ↓reduceIte]
        · simp only [hsource, ↓reduceIte]
          have hname := lookup_owner h (.name pathStr)
          have hfile := lookup_file h (.name pathStr)
          by_cases hvirtual : lookupSource w (.name pathStr) = 0
          · have hvirtual' : w.virtualByName pathStr = 0 := hvirtual
            have htarget : importPath host w importer pathStr =
                canonicalizeRelative host.realpath (cstr (w.sourcePath (w.fileSource file))) (cstr pathStr) := by
              rw [importPath, hfiles]
            rw [if_neg (not_not.mpr hvirtual'), if_neg (not_not.mpr hvirtual), ← htarget]
            cases importPath host w importer pathStr with
            | none => rfl
            | some path =>
                have howner := lookup_owner h (.path path)
                show (if w.lookupSourceByPath path ≠ 0 then _ else _) = enter host.slurp w (.path path)
                by_cases hknown : lookupSource w (.path path) = 0
                · have hknown' : w.lookupSourceByPath path = 0 := hknown
                  rw [enter, if_neg (not_not.mpr hknown), if_neg (not_not.mpr hknown'), Option.bind_some]
                  cases host.slurp path with
                  | none => rfl
                  | some text =>
                      show (w.loadImport path (some text)).map _ = _
                      rw [Workspace.loadImport, if_neg (not_not.mpr hknown')]
                · rw [enter, if_pos hknown]
                  have hknown' : w.lookupSourceByPath path ≠ 0 := hknown
                  rw [if_pos hknown']
                  exact congrArg (fun o => some (w, o)) howner
          · have hvirtual' : w.virtualByName pathStr ≠ 0 := hvirtual
            have hfile' : w.lookupFileBySource (w.virtualByName pathStr) = w.virtualByName pathStr := hfile
            rw [hfile] at hname
            have hname' : w.fileNamespace ⟨w.virtualByName pathStr, false⟩ = w.virtualByName pathStr := hname
            rw [if_pos hvirtual', if_pos hvirtual, hfile', hname', if_neg (by simpa using hvirtual')]
            show _ = enter host.slurp w (.name pathStr)
            rw [enter, if_pos hvirtual]
            rfl

theorem importKey_ne (hreal : ∀ p c, host.realpath p = some c → c ≠ [])
    (h : importKey host w importer pathStr = some k) :
    k ≠ .path [] := by
  rw [importKey] at h
  split at h
  · cases h
  · split at h
    · cases h
    · rename_i file rest hfiles
      split at h
      · cases h
      · split at h
        · rw [← Option.some.inj h]
          simp
        · obtain ⟨path, hpath, rfl⟩ := Option.map_eq_some_iff.mp h
          rw [importPath, hfiles] at hpath
          obtain ⟨-, hcanonical⟩ := Option.ite_none_left_eq_some.mp hpath
          simpa using hreal _ _ hcanonical

theorem importKey_kept (h : Good w) (h' : Good w') (hgrows : Grows host.slurp w w')
    (hlt : importer < w.members.length) :
    importKey host w' importer pathStr = importKey host w importer pathStr := by
  have hfiles := namespaceFiles_kept h h' hgrows hlt
  rw [importKey, importKey, hfiles]
  split
  · rfl
  · cases hlist : w.namespaceFiles importer with
    | nil => rfl
    | cons file rest =>
        have hmem : file ∈ w.namespaceFiles importer := by
          rw [hlist]
          exact List.mem_cons_self
        obtain ⟨-, row, hrow, -⟩ := h.member hmem
        have hsource : w'.sourcePath (w'.fileSource file) = w.sourcePath (w.fileSource file) := by
          have hsrc : file.row < w.sources.length := by
            rw [← h.lengths.1]
            exact (List.getElem?_eq_some_iff.mp hrow).1
          have hget := List.getElem?_eq_getElem hsrc
          rw [fileSource_eq h hrow, fileSource_eq h' (getElem?_mono hgrows.files hrow), Workspace.sourcePath,
            Workspace.sourcePath, getElem?_mono hgrows.sources hget, hget]
        have hpath : importPath host w' importer pathStr = importPath host w importer pathStr := by
          rw [importPath, importPath, hfiles, hlist]
          show canonicalizeRelative _ (cstr (w'.sourcePath (w'.fileSource file))) _ = _
          rw [hsource]
        have hname : lookupSource w' (.name pathStr) ≠ 0 ↔ lookupSource w (.name pathStr) ≠ 0 := by
          constructor
          · intro hne hzero
            obtain ⟨path, hkey, -⟩ := source_loaded h h' hgrows hzero hne
            cases hkey
          · intro hne
            rwa [source_kept h h' hgrows hne]
        simp only [hsource, hpath, hname]

theorem createFile_lazy (w : Workspace V) (src : Nat) (howner : owner ≠ 0) :
    w.createFile src owner false = some (fileSetAdd
      { w with
        files := w.files ++ [⟨⟨w.files.length, false⟩, src, owner⟩]
        fileBySource := Function.update w.fileBySource src w.files.length }
      owner ⟨w.files.length, false⟩) := by
  rw [Workspace.createFile, if_neg howner]
  rfl

theorem fileSetAdd_members (w : Workspace V) (f : FileId) (howner : owner ≠ 0) :
    (w.fileSetAdd owner f).members = w.members.modify owner (· ++ [f]) := by
  rw [Workspace.fileSetAdd, if_neg howner]
  rfl

theorem register_tables {path text : Bytes} (hpos : w.members.length ≠ 0)
    (hstep : w.register path text none false = some w') :
    ∃ row : Source, (row.isVirtual = false ∧ row.path = path) ∧ w'.sources = w.sources ++ [row] ∧
      (∃ file, w'.files = w.files ++ [file]) ∧
        ∃ f, w'.members = (w.members ++ [[]]).modify w.members.length (· ++ [f]) := by
  simp only [Workspace.register, Workspace.createSourceRow] at hstep
  split at hstep
  · cases hstep
  · rename_i src t hcreate
    obtain ⟨-, hpair⟩ := Option.ite_none_right_eq_some.mp hcreate
    obtain ⟨rfl, rfl⟩ := Prod.mk.inj (Option.some.inj hpair)
    obtain rfl := Option.some.inj ((createFile_lazy _ _ hpos).symm.trans hstep)
    obtain ⟨hfiles, hsources, -⟩ := fileSetAdd_rest _ w.members.length ⟨w.files.length, false⟩
    exact ⟨_, ⟨rfl, rfl⟩, hsources, ⟨_, hfiles⟩, ⟨_, fileSetAdd_members _ _ hpos⟩⟩

/-- A new source is entered in all tables at once. -/
theorem register_grows (h : Good w) {path text : Bytes} (hpath : path ≠ []) (hnew : lookupSource w (.path path) = 0)
    (hdisk : (slurp path).isSome) (hstep : w.register path text none false = some w') :
    Good w' ∧ Grows slurp w w' ∧ lookupSource w' (.path path) = w.members.length ∧
      w.members.length < w'.members.length := by
  have hdir := directory_register hstep
  have hne : Key.path path ≠ .path [] := by simpa using hpath
  have hgood : Good w' := ⟨h.filed.register (by simp) hstep, hdir ▸ h.oneToOne.register hne (by rwa [source_directory])⟩
  have hsource : lookupSource w' (.path path) = w.members.length := by
    rw [← source_directory, hdir, Directory.source_register _ hne, if_pos rfl, h.lengths.2]
    exact List.length_map _
  obtain ⟨row, ⟨hphysical, hname⟩, hsources, ⟨file, hfiles⟩, f, hmembers⟩ :=
    register_tables (Nat.ne_of_gt h.filed.members) hstep
  refine ⟨hgood, ⟨hsources ▸ List.prefix_append _ _, hfiles ▸ List.prefix_append _ _, ?_, ?_⟩, hsource, ?_⟩
  · rw [List.prefix_iff_getElem?]
    intro i hi
    rw [hmembers, List.getElem?_modify_ne _ _ (Nat.ne_of_gt hi), List.getElem?_append_left hi]
    exact List.getElem?_eq_getElem hi
  · intro src new hsrc hget
    rw [hsources, List.getElem?_append_right hsrc] at hget
    obtain rfl := List.mem_singleton.mp (List.mem_of_getElem? hget)
    exact ⟨hphysical, hname ▸ hdisk⟩
  · rw [hmembers, List.length_modify, List.length_append]
    exact Nat.lt_succ_self _

/-- Entering a key again gives the same namespace and changes nothing. -/
theorem enter_spec (h : Good w) (hk : k ≠ .path []) (hstep : enter slurp w k = some (w', owner)) :
    Good w' ∧ Grows slurp w w' ∧ owner < w'.members.length ∧
      ∀ t, Good t → Grows slurp w' t → enter slurp t k = some (t, owner) := by
  have hkept (t : Workspace V) (howner : lookupSource w' k = owner) (hne : owner ≠ 0) (h' : Good w') (ht : Good t)
      (hgrows : Grows slurp w' t) : enter slurp t k = some (t, owner) := by
    have hsame : lookupSource t k = owner := by
      rw [source_kept h' ht hgrows (by rwa [howner]), howner]
    rw [enter.eq_def, hsame, if_pos hne]
  rw [enter.eq_def] at hstep
  split at hstep
  · rename_i hne
    obtain ⟨rfl, rfl⟩ := Prod.mk.inj (Option.some.inj hstep)
    refine ⟨h, Grows.refl w, ?_, fun t => hkept t rfl hne h⟩
    rw [h.lengths.2]
    exact h.source_lt k
  · rename_i hzero
    rw [not_not] at hzero
    split at hstep
    · rename_i name
      obtain ⟨rfl, rfl⟩ := Prod.mk.inj (Option.some.inj hstep)
      refine ⟨h, Grows.refl w, h.filed.members, fun t ht hgrows => ?_⟩
      have hzero' : lookupSource t (.name name) = 0 := by
        by_contra hne
        obtain ⟨path, hkey, -⟩ := source_loaded h ht hgrows hzero hne
        cases hkey
      rw [enter, hzero', if_neg (by simp)]
    · rename_i path
      split at hstep
      · rename_i hdisk
        obtain ⟨rfl, rfl⟩ := Prod.mk.inj (Option.some.inj hstep)
        refine ⟨h, Grows.refl w, h.filed.members, fun t ht hgrows => ?_⟩
        have hzero' : lookupSource t (.path path) = 0 := by
          by_contra hne
          obtain ⟨path', hkey, hsome⟩ := source_loaded h ht hgrows hzero hne
          obtain rfl := Key.path.inj hkey
          rw [hdisk] at hsome
          cases hsome
        rw [enter, hzero', if_neg (by simp)]
        simp only [hdisk]
      · rename_i text hdisk
        obtain ⟨next, hregister, hpair⟩ := Option.map_eq_some_iff.mp hstep
        obtain ⟨rfl, rfl⟩ := Prod.mk.inj hpair
        have hpath : path ≠ [] := fun heq => hk (congrArg Key.path heq)
        have hsome : (slurp path).isSome := Option.isSome_of_eq_some hdisk
        obtain ⟨hgood, hgrows, hsource, hlt⟩ := register_grows h hpath hzero hsome hregister
        exact ⟨hgood, hgrows, hlt, fun t => hkept t hsource (Nat.ne_of_gt h.filed.members) hgood⟩

theorem resolve_spec (hreal : ∀ p c, host.realpath p = some c → c ≠ []) (h : Good w)
    (hstep : workspaceResolveImport host w importer pathStr = some (w', owner)) :
    Good w' ∧ Grows host.slurp w w' ∧ owner < w'.members.length ∧ (importer < w.members.length →
      ∀ t, Good t → Grows host.slurp w' t → workspaceResolveImport host t importer pathStr = some (t, owner)) := by
  rw [resolve_eq h] at hstep
  cases hkey : importKey host w importer pathStr with
  | none =>
      rw [hkey] at hstep
      obtain ⟨rfl, rfl⟩ := Prod.mk.inj (Option.some.inj hstep)
      refine ⟨h, Grows.refl w, h.filed.members, fun hlt t ht hgrows => ?_⟩
      rw [resolve_eq ht, importKey_kept h ht hgrows hlt, hkey]
  | some k =>
      rw [hkey] at hstep
      obtain ⟨hgood, hgrows, howner, hagain⟩ := enter_spec h (importKey_ne hreal hkey) hstep
      refine ⟨hgood, hgrows, howner, fun hlt t ht hgrows' => ?_⟩
      rw [resolve_eq ht, importKey_kept h ht (hgrows.trans hgrows') hlt, hkey]
      exact hagain t ht hgrows'

theorem check_spec (hreal : ∀ p c, host.realpath p = some c → c ≠ []) (h : Good w)
    (hstep : checkNamespace host w owner = some w') : Good w' ∧ Grows host.slurp w w' := by
  rw [checkNamespace] at hstep
  generalize host.demanded w owner = demands at hstep
  induction demands generalizing w with
  | nil => exact Option.some.inj hstep ▸ ⟨h, Grows.refl w⟩
  | cons d demands ih =>
      rw [List.foldlM_cons] at hstep
      obtain ⟨next, hfirst, hrest⟩ := Option.bind_eq_some_iff.mp hstep
      obtain ⟨⟨w₁, o⟩, hresolve, rfl⟩ := Option.map_eq_some_iff.mp hfirst
      obtain ⟨hgood, hgrows, -⟩ := resolve_spec hreal h hresolve
      obtain ⟨hgood', hgrows'⟩ := ih hgood hrest
      exact ⟨hgood', hgrows.trans hgrows'⟩

end Resolution

section Closure

variable {V : Type} {host : Host V} {w w' t : Workspace V} {importer : Nat} {f : FileId} {out out' : List FileId}

def Known (w : Workspace V) (f : FileId) : Prop := f.row ≠ 0 ∧ ∃ file, w.files[f.row]? = some file ∧ file.id = f

def targets (host : Host V) (w : Workspace V) (importer : Nat) (pathStr : Bytes) : List FileId :=
  match workspaceResolveImport host w importer pathStr with
  | none => []
  | some (_, owner) => w.namespaceFiles owner

def imported (host : Host V) (w : Workspace V) (f : FileId) : List FileId :=
  (fileImports host w f).flatMap (targets host w (w.fileNamespace f))

/-- The imports of a file resolve with nothing left to load. -/
def Settled (host : Host V) (w : Workspace V) (f : FileId) : Prop :=
  ∀ pathStr ∈ fileImports host w f, ∃ owner, workspaceResolveImport host w (w.fileNamespace f) pathStr = some (w, owner)

theorem Known.grows (h : Known w f) {slurp : Bytes → Option Bytes} (hgrows : Grows slurp w w') : Known w' f := by
  obtain ⟨hne, file, hrow, hid⟩ := h
  exact ⟨hne, file, getElem?_mono hgrows.files hrow, hid⟩

theorem follow_spec (hreal : ∀ p c, host.realpath p = some c → c ≠ []) (h : Good w) (hlt : importer < w.members.length)
    {paths : List Bytes} (hrun : paths.foldlM (followImport host importer) (w, out) = some (w', out')) :
    Good w' ∧ Grows host.slurp w w' ∧ ∃ more, out' = out ++ more ∧ (∀ f ∈ more, Known w' f) ∧
      ∀ t, Good t → Grows host.slurp w' t →
        (∀ p ∈ paths, ∃ owner, workspaceResolveImport host t importer p = some (t, owner)) ∧
          paths.flatMap (targets host t importer) = more := by
  induction paths generalizing w out with
  | nil =>
      obtain ⟨rfl, rfl⟩ := Prod.mk.inj (Option.some.inj hrun)
      refine ⟨h, Grows.refl w, [], (List.append_nil _).symm, ?_, fun t _ _ => ⟨?_, rfl⟩⟩
      · intro f hf
        cases hf
      · intro p hp
        cases hp
  | cons p paths ih =>
      rw [List.foldlM_cons] at hrun
      obtain ⟨next, hfirst, hrest⟩ := Option.bind_eq_some_iff.mp hrun
      obtain ⟨⟨w₁, target⟩, hresolve, rfl⟩ := Option.map_eq_some_iff.mp hfirst
      obtain ⟨hgood, hgrows, htarget, hagain⟩ := resolve_spec hreal h hresolve
      have hlt' : importer < w₁.members.length := Nat.lt_of_lt_of_le hlt hgrows.members.length_le
      obtain ⟨hgood', hgrows', more, hout, hknown, hsettle⟩ := ih hgood hlt' hrest
      refine ⟨hgood', hgrows.trans hgrows', w₁.namespaceFiles target ++ more, ?_, ?_, ?_⟩
      · rw [hout, List.append_assoc]
      · intro f hf
        rcases List.mem_append.mp hf with hf | hf
        · exact Known.grows (hgood.member hf) hgrows'
        · exact hknown f hf
      · intro t ht hle
        obtain ⟨hpaths, hmore⟩ := hsettle t ht hle
        have hp := hagain hlt t ht (hgrows'.trans hle)
        constructor
        · intro q hq
          rcases List.mem_cons.mp hq with rfl | hq
          · exact ⟨target, hp⟩
          · exact hpaths q hq
        · have hfiles : targets host t importer p = w₁.namespaceFiles target := by
            rw [targets, hp]
            exact namespaceFiles_kept hgood ht (hgrows'.trans hle) htarget
          rw [List.flatMap_cons, hfiles, hmore]

theorem fileImports_kept (h : Good w) (h' : Good w') (hgrows : Grows host.slurp w w') (hknown : Known w f) :
    fileImports host w' f = fileImports host w f := by
  obtain ⟨-, file, hrow, -⟩ := hknown
  have hsrc : f.row < w.sources.length := by
    rw [← h.lengths.1]
    exact (List.getElem?_eq_some_iff.mp hrow).1
  have hget := List.getElem?_eq_getElem hsrc
  rw [fileImports, fileImports, fileSource_eq h hrow, fileSource_eq h' (getElem?_mono hgrows.files hrow),
    getElem?_mono hgrows.sources hget, hget]

theorem fileNamespace_known (h : Good w) (hknown : Known w f) : w.fileNamespace f = f.row := by
  obtain ⟨-, file, hrow, -⟩ := hknown
  exact fileNamespace_eq h hrow

theorem visit_explores (hreal : ∀ p c, host.realpath p = some c → c ≠ []) :
    Worklist.Explores Good Known (Settled host) (Grows host.slurp) (imported host) (visit host) where
  refl := Grows.refl
  trans := by
    intro s t u hst htu
    exact hst.trans htu
  known := by
    intro s t f hgrows hknown
    exact hknown.grows hgrows
  step := by
    intro w f w' out hgood hknown hvisit
    have howner := fileNamespace_known hgood hknown
    rw [visit, howner, if_neg hknown.1] at hvisit
    obtain ⟨w₁, hcheck, hfollow⟩ := Option.bind_eq_some_iff.mp hvisit
    obtain ⟨hgood₁, hgrows₁⟩ := check_spec hreal hgood hcheck
    have hknown₁ := hknown.grows hgrows₁
    have hlt : f.row < w₁.members.length := by
      obtain ⟨-, file, hrow, -⟩ := hknown₁
      rw [hgood₁.lengths.2, ← hgood₁.lengths.1]
      exact (List.getElem?_eq_some_iff.mp hrow).1
    obtain ⟨hgood', hgrows', more, hout, hmore, hsettle⟩ := follow_spec hreal hgood₁ hlt hfollow
    obtain rfl : out = more := hout
    refine ⟨hgood', hgrows₁.trans hgrows', hmore, fun t ht hle => ?_⟩
    obtain ⟨hpaths, hfiles⟩ := hsettle t ht hle
    have himports := fileImports_kept hgood₁ ht (hgrows'.trans hle) hknown₁
    have howner' := fileNamespace_known ht (hknown₁.grows (hgrows'.trans hle))
    rw [Settled, imported, himports, howner']
    exact ⟨hpaths, hfiles⟩

theorem known_row {f g : FileId} (hf : Known w f) (hg : Known w g) (hrow : f.row = g.row) : f = g := by
  obtain ⟨-, file, hfile, rfl⟩ := hf
  obtain ⟨-, file', hfile', rfl⟩ := hg
  rw [hrow, hfile'] at hfile
  rw [Option.some.inj hfile]

theorem known_length_le {found : List FileId} (hnodup : found.Nodup) (hknown : ∀ f ∈ found, Known w f) :
    found.length ≤ w.files.length := by
  have hrows : (found.map FileId.row).Nodup :=
    hnodup.map_on fun f hf g hg hrow => known_row (hknown f hf) (hknown g hg) hrow
  have hsubset : found.map FileId.row ⊆ List.range w.files.length := by
    intro row hmem
    obtain ⟨f, hf, rfl⟩ := List.mem_map.mp hmem
    obtain ⟨-, file, hfile, -⟩ := hknown f hf
    exact List.mem_range.mpr (List.getElem?_eq_some_iff.mp hfile).1
  have hle := (hrows.subperm hsubset).length_le
  rwa [List.length_map, List.length_range] at hle

theorem loaded_path (h' : Good w') (hgrows : Grows host.slurp w w') (hpos : 0 < w.sources.length) {src : Nat}
    (hge : w.sources.length ≤ src) (hlt : src < w'.sources.length) :
    lookupSource w' (.path (w'.sourcePath src)) = src ∧ (host.slurp (w'.sourcePath src)).isSome := by
  have hrow := List.getElem?_eq_getElem hlt
  obtain ⟨hphysical, hdisk⟩ := hgrows.loaded src _ hge hrow
  have hpath : w'.sourcePath src = w'.sources[src].path := by
    rw [Workspace.sourcePath, hrow]
    rfl
  have hkey : keyOf w'.sources[src] = .path (w'.sourcePath src) := by
    rw [keyOf, hphysical, hpath]
    rfl
  have hnamed := h'.oneToOne.named src (.path (w'.sourcePath src)) (by omega) (by
    rw [directory, List.getElem?_map, hrow, Option.map_some, hkey])
  rw [source_directory] at hnamed
  exact ⟨hnamed, hpath ▸ hdisk⟩

theorem room_of_disk {paths : List Bytes} (hdisk : ∀ p, (host.slurp p).isSome → p ∈ paths) (h : Good w) (h' : Good w')
    (hgrows : Grows host.slurp w w') : w'.files.length ≤ w.files.length + paths.length := by
  rw [h.lengths.1, h'.lengths.1]
  have hpath (src : Nat) (hge : w.sources.length ≤ src) (hlt : src < w'.sources.length) :=
    loaded_path h' hgrows h.filed.sources hge hlt
  have hnodup : ((List.range' w.sources.length (w'.sources.length - w.sources.length)).map w'.sourcePath).Nodup := by
    refine List.Nodup.map_on ?_ List.nodup_range'
    intro i hi j hj heq
    rw [List.mem_range'_1] at hi hj
    rw [← (hpath i hi.1 (by omega)).1, heq]
    exact (hpath j hj.1 (by omega)).1
  have hsubset : (List.range' w.sources.length (w'.sources.length - w.sources.length)).map w'.sourcePath ⊆ paths := by
    intro p hp
    obtain ⟨src, hsrc, rfl⟩ := List.mem_map.mp hp
    rw [List.mem_range'_1] at hsrc
    exact hdisk _ (hpath src hsrc.1 (by omega)).2
  have hle := (hnodup.subperm hsubset).length_le
  rw [List.length_map, List.length_range'] at hle
  omega

theorem profile_spec {count : Nat} (h : Good w) (hstep : profile count w = some w') :
    Good w' ∧ directory w' = directory w := by
  rw [profile] at hstep
  generalize List.range (count - 1) = turns at hstep
  induction turns generalizing w with
  | nil => exact Option.some.inj hstep ▸ ⟨h, rfl⟩
  | cons i turns ih =>
      rw [List.foldlM_cons] at hstep
      obtain ⟨next, hfirst, hrest⟩ := Option.bind_eq_some_iff.mp hstep
      have hdir := directory_inputChanged hfirst
      obtain ⟨hgood, hsame⟩ := ih ⟨h.filed.inputChanged hfirst, hdir ▸ h.oneToOne⟩ hrest
      exact ⟨hgood, hsame.trans hdir⟩

theorem known_path (h : Good w) {path : Bytes} (hne : lookupSource w (.path path) ≠ 0) :
    Known w ⟨lookupSource w (.path path), false⟩ := by
  have hlt : lookupSource w (.path path) < w.files.length := by
    rw [h.lengths.1]
    exact h.source_lt _
  have hrow := List.getElem?_eq_getElem hlt
  have hpos := Nat.pos_of_ne_zero hne
  have hid := (h.filed.rows _ _ hpos hrow).id
  have hsource := (h.oneToOne.rows _ _ hrow).1
  have hphysical := (h.filed.registered path).2 _ _ hpos hrow (by
    rw [hsource]
    exact lookupSourceByPath_eq w hne)
  refine ⟨hne, _, hrow, ?_⟩
  generalize w.files[lookupSource w (.path path)].id = id at hid hphysical ⊢
  obtain ⟨row, isVirtual⟩ := id
  cases hid
  cases hphysical
  rfl

end Closure

section Compilation

variable {V : Type} [Inhabited V] {host : Host V} {w : Workspace V}

open Relation

/-- The compilation of a registered path ends on a finite disk. It checks the namespace of each
file that the target reaches over imports once, the target first, and leaves none of their
imports to load. -/
theorem compile_closure (hreal : ∀ p c, host.realpath p = some c → c ≠ []) {paths : List Bytes}
    (hdisk : ∀ p, (host.slurp p).isSome → p ∈ paths) {events : List Event} (hevents : ∀ e ∈ events, Editing e)
    (hrun : run host.realpath events (initial V) = some w) (path : Bytes) (profileCount : Nat) {fuel : Nat}
    (hfuel : w.files.length + paths.length < fuel) :
    ∃ result, compileFile host fuel w (w.lookupSourceByPath path) profileCount = some result ∧
      ∀ w' f closure, result = some (w', f, closure) → w.lookupSourceByPath path ≠ 0 →
        f = ⟨w.lookupSourceByPath path, false⟩ ∧ closure.head? = some f ∧ closure.Nodup ∧
          (closure.map w'.fileNamespace).Nodup ∧ (∀ g ∈ closure, Settled host w' g) ∧
          ∀ g, g ∈ closure ↔ ReflTransGen (fun a b => b ∈ imported host w' a) f g := by
  have hgood : Good w :=
    ⟨run_filed (initial_filed V) hrun, (oneToOne_run hreal hevents hrun (oneToOne_initial V)).1⟩
  have hfile : w.lookupFileBySource (w.lookupSourceByPath path) = w.lookupSourceByPath path :=
    lookup_file hgood (.path path)
  have howner : w.fileNamespace ⟨w.lookupFileBySource (w.lookupSourceByPath path), false⟩ = w.lookupSourceByPath path :=
    lookup_owner hgood (.path path)
  rw [compileFile]
  simp only [hfile] at howner ⊢
  rw [howner]
  by_cases hzero : w.lookupSourceByPath path = 0
  · rw [if_pos (.inl hzero)]
    exact ⟨_, rfl, fun _ _ _ _ hne => absurd hzero hne⟩
  · rw [if_neg (by simpa using hzero)]
    cases hprofile : profile profileCount w with
    | none =>
        refine ⟨none, rfl, ?_⟩
        intro w' f closure hnone
        cases hnone
    | some w₁ =>
        obtain ⟨hgood₁, hdir⟩ := profile_spec hgood hprofile
        have hsource : lookupSource w₁ (.path path) = w.lookupSourceByPath path := by
          rw [← source_directory, hdir, source_directory]
          rfl
        have hfiles : w₁.files = w.files := congrArg Directory.files hdir
        have hroot : Known w₁ ⟨w.lookupSourceByPath path, false⟩ :=
          hsource ▸ known_path hgood₁ (by rwa [hsource])
        have hexplores : Worklist.Explores Good Known (Settled host) (Grows host.slurp) (imported host) (visit host) :=
          visit_explores hreal
        have hroom (t : Workspace V) (ht : Good t) (hgrows : Grows host.slurp w₁ t) (found : List FileId)
            (hnodup : found.Nodup) (hknown : ∀ f ∈ found, Known t f) : found.length ≤ w.files.length + paths.length :=
          Nat.le_trans (known_length_le hnodup hknown) (hfiles ▸ room_of_disk hdisk hgood₁ ht hgrows)
        obtain ⟨result, hresult⟩ := Worklist.collect_ends hexplores hgood₁ hroot hroom hfuel
        refine ⟨_, congrArg (Option.map _) hresult, ?_⟩
        intro w' f closure heq _
        obtain ⟨⟨w₂, found⟩, rfl, hpair⟩ := Option.map_eq_some_iff.mp heq
        simp only [Prod.mk.injEq] at hpair
        obtain ⟨rfl, rfl, rfl⟩ := hpair
        obtain ⟨hgood', -, hnodup, hhead, hdone, hreach⟩ := Worklist.collect_spec hexplores hgood₁ hroot hresult
        refine ⟨rfl, hhead, hnodup, ?_, fun g hg => (hdone g hg).2, hreach w₂ hgood' (Grows.refl w₂)⟩
        apply hnodup.map_on
        intro f hf g hg hsame
        rw [fileNamespace_known hgood' (hdone f hf).1, fileNamespace_known hgood' (hdone g hg).1] at hsame
        exact known_row (hdone f hf).1 (hdone g hg).1 hsame

def importOf (path : Bytes) : Green :=
  .node .sourceFile [.node .builtinExpr [.token ⟨.ident, importName⟩,
    .node .argList [.node .literalExpr [.token ⟨.stringLit, quote :: path ++ [quote]⟩]]]]

/-- An open file `/a` and a file `/b` on disk import one another. -/
def pairHost : Host Nat where
  realpath := plainRealpath
  slurp := fun path => if path = [47, 98] then some [2] else none
  fileAst := fun text => some (importOf (if text = [1] then [98] else [97]))
  demanded := fun _ _ => []

def pairEvents : List Event := [.didOpen [47, 97] [1]]

theorem compile_closure_pair : ∃ w w' : Workspace Nat, run plainRealpath pairEvents (initial Nat) = some w ∧
    compileFile pairHost 10 w (w.lookupSourceByPath [47, 97]) 1 =
      some (some (w', ⟨1, false⟩, [⟨1, false⟩, ⟨2, false⟩])) ∧
    ∀ g, g ∈ [FileId.mk 1 false, ⟨2, false⟩] ↔ ReflTransGen (fun a b => b ∈ imported pairHost w' a) ⟨1, false⟩ g := by
  have heval : (run plainRealpath pairEvents (initial Nat)).map
      (fun w => (w.files.length, w.lookupSourceByPath [47, 97],
      (compileFile pairHost 10 w (w.lookupSourceByPath [47, 97]) 1).map (·.map (·.2.2)))) =
        some (2, 1, some (some [⟨1, false⟩, ⟨2, false⟩])) := by decide +kernel
  obtain ⟨w, hrun, hw⟩ := Option.map_eq_some_iff.mp heval
  simp only [Prod.mk.injEq] at hw
  obtain ⟨hfiles, hsource, hclosure⟩ := hw
  have hreal (p c : Bytes) (h : pairHost.realpath p = some c) : c ≠ [] := by
    obtain ⟨hne, hpc⟩ := Option.ite_none_left_eq_some.mp h
    exact Option.some.inj hpc ▸ hne
  have hevents : ∀ e ∈ pairEvents, Editing e := by simp [pairEvents, Editing]
  have hfuel : w.files.length + [([47, 98] : Bytes)].length < 10 := by simp [hfiles]
  have hdisk (p : Bytes) (h : (pairHost.slurp p).isSome) : p ∈ [([47, 98] : Bytes)] := by
    by_contra hne
    have hnone : pairHost.slurp p = none := if_neg (by simpa using hne)
    rw [hnone] at h
    cases h
  obtain ⟨result, hresult, hspec⟩ := compile_closure hreal hdisk hevents hrun [47, 97] 1 hfuel
  rw [hresult] at hclosure
  obtain ⟨⟨w', f, closure⟩, rfl, hlist⟩ := Option.map_eq_some_iff.mp (Option.some.inj hclosure)
  obtain rfl : closure = [⟨1, false⟩, ⟨2, false⟩] := hlist
  obtain ⟨rfl, -, -, -, -, hreach⟩ := hspec w' f _ rfl (by simp [hsource])
  rw [hsource] at hresult hreach
  exact ⟨w, w', hrun, hsource.symm ▸ hresult, hreach⟩

end Compilation

end Ore.CompileClosure
