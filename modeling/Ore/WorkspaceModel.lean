import Ore.EngineModel
import Ore.WorkspacePaths

namespace Ore.WorkspaceModel

open EngineModel WorkspacePaths

abbrev Bytes := List UInt8

def fnvOffset : UInt64 := 0xcbf29ce484222325
def fnvPrime : UInt64 := 0x100000001b3

/-- The null fingerprint is remapped. -/
def nonzero (h : UInt64) : UInt64 := if h = 0 then fnvPrime else h

def foldBytes (seed : UInt64) (p : Bytes) : UInt64 := p.foldl (fun h b => (h ^^^ b.toUInt64) * fnvPrime) seed

/-- The bytes of a word in memory, lowest first. -/
def wordBytes (x : UInt64) : Bytes := (List.range 8).map fun i => (x >>> (8 * i).toUInt64).toUInt8

def fpU64 (x : UInt64) : UInt64 := nonzero (foldBytes fnvOffset (wordBytes x))

def fpCombine (a b : UInt64) : UInt64 := nonzero (foldBytes a (wordBytes b))

def sourceFnv1a (text : Bytes) : UInt64 := foldBytes fnvOffset text

/-- A file's row, with the bit that marks virtual files. -/
structure FileId where
  row : Nat
  isVirtual : Bool
  deriving DecidableEq, Repr

def FileId.idx (f : FileId) : Nat := if f.isVirtual then 2 ^ 31 + f.row else f.row

def foldFile (fp : UInt64) (f : FileId) : UInt64 := fpCombine fp (fpU64 f.idx.toUInt64)

structure Source where
  path : Bytes
  text : Option Bytes
  textLen : Nat
  hash : UInt64
  version : Nat
  durability : Durability
  evicted : Bool
  isVirtual : Bool

structure File where
  id : FileId
  source : Nat
  owner : Nat

/-- The tables of the input side. Row zero of each is a sentinel, so a zero id
is invalid. `members` is the list of files of each namespace. -/
structure Workspace (V : Type) where
  engine : State V UInt64
  sources : List Source
  files : List File
  members : List (List FileId)
  sourceByPath : Bytes → Nat
  fileBySource : Nat → Nat
  virtualByName : Bytes → Nat

variable {V : Type}

def sourceLimit : Nat := 2 ^ 24

namespace Workspace

def inputSet (w : Workspace V) (q : Query) (fp : UInt64) (dur : Durability) : Workspace V :=
  { w with engine := w.engine.modifySlot q fun slot =>
      { slot with
        state := .done, fingerprint := some fp, durability := dur, verifiedRev := w.engine.current
        computedRev := w.engine.current } }

/-- The revision moves outside of requests only. -/
def inputChanged (w : Workspace V) (dur : Durability) : Option (Workspace V) :=
  if w.engine.request = 0 then some { w with engine := EngineModel.inputChanged dur w.engine } else none

def slotFingerprint (w : Workspace V) (q : Query) : UInt64 := (w.engine.slots q).fingerprint.getD 0

def createSourceRow (w : Workspace V) (path text : Bytes) (isVirtual : Bool) : Option (Nat × Workspace V) :=
  if text.length < sourceLimit then
    let src := w.sources.length
    let hash := sourceFnv1a text
    let w : Workspace V := { w with
      sources := w.sources ++ [⟨path, some text, text.length, hash, 1, .low, false, isVirtual⟩]
      sourceByPath := if isVirtual then w.sourceByPath else Function.update w.sourceByPath path src }
    some (src, w.inputSet ⟨.sourceText, src⟩ (fpU64 hash) .low)
  else none

def createNamespace (w : Workspace V) : Nat × Workspace V :=
  let owner := w.members.length
  let w : Workspace V := { w with members := w.members ++ [[]] }
  (owner, w.inputSet ⟨.fileSet, owner⟩ (fpU64 0) .medium)

def fileSetAdd (w : Workspace V) (owner : Nat) (f : FileId) : Workspace V :=
  if owner = 0 then w
  else
    let w : Workspace V := { w with members := w.members.modify owner (· ++ [f]) }
    let old := w.slotFingerprint ⟨.fileSet, owner⟩
    w.inputSet ⟨.fileSet, owner⟩ (foldFile old f) .medium

/-- The empty path is interned as the null string and names no source. -/
def lookupSourceByPath (w : Workspace V) (path : Bytes) : Nat := if path = [] then 0 else w.sourceByPath path

def lookupFileBySource (w : Workspace V) (src : Nat) : Nat := if src = 0 then 0 else w.fileBySource src

def fileNamespace (w : Workspace V) (f : FileId) : Nat := (w.files[f.row]?.map (·.owner)).getD 0

def readmitSource (w : Workspace V) (src : Nat) : Workspace V :=
  match w.sources[src]? with
  | none => w
  | some row =>
      if src = 0 ∨ row.evicted = false then w
      else
        let w : Workspace V := { w with sources := w.sources.set src { row with evicted := false } }
        let f : FileId := ⟨w.lookupFileBySource src, false⟩
        if f.row = 0 then w else w.fileSetAdd (w.fileNamespace f) f

/-- Drop the first matching file and recompute the fingerprint. -/
def namespaceRemoveFile (w : Workspace V) (owner : Nat) (f : FileId) : Workspace V :=
  if owner = 0 ∨ w.members.length ≤ owner then w
  else
    let w : Workspace V := { w with members := w.members.modify owner (·.erase f) }
    let fp := ((w.members[owner]?).getD []).foldl foldFile (fpU64 0)
    w.inputSet ⟨.fileSet, owner⟩ fp .medium

/-- The revision is bumped for a file that joins an existing namespace, and not
for a lazy load. -/
def createFile (w : Workspace V) (src owner : Nat) (bump : Bool) : Option (Workspace V) :=
  let f : FileId := ⟨w.files.length, false⟩
  let w : Workspace V := { w with
    files := w.files ++ [⟨f, src, owner⟩], fileBySource := Function.update w.fileBySource src f.row }
  if owner = 0 then some w
  else if bump then (w.inputChanged .medium).map (·.fileSetAdd owner f)
  else some (w.fileSetAdd owner f)

def createVirtualFile (w : Workspace V) (src owner : Nat) : Workspace V :=
  let f : FileId := ⟨w.files.length, true⟩
  let w : Workspace V := { w with
    files := w.files ++ [⟨f, src, owner⟩], fileBySource := Function.update w.fileBySource src f.row }
  w.fileSetAdd owner f

/-- A text with the same hash and length is no edit. The revision is bumped
before the slot is stamped. -/
def setSourceText (w : Workspace V) (src : Nat) (text : Bytes) : Option (Workspace V) :=
  match w.sources[src]? with
  | none => some w
  | some row =>
      if src = 0 then some w
      else if text.length < sourceLimit then
        let hash := sourceFnv1a text
        if row.hash = hash ∧ row.textLen = text.length then some w
        else
          let row := { row with text := some text, hash := hash, textLen := text.length, version := row.version + 1 }
          let w : Workspace V := { w with sources := w.sources.set src row }
          (w.inputChanged row.durability).map fun w => w.inputSet ⟨.sourceText, src⟩ (fpU64 hash) row.durability
      else none

/-- A new source in a namespace, fresh or given. -/
def register (w : Workspace V) (path text : Bytes) (owner : Option Nat) (bump : Bool) : Option (Workspace V) :=
  match w.createSourceRow path text false with
  | none => none
  | some (src, w) =>
      match owner with
      | some owner => w.createFile src owner bump
      | none =>
          let (owner, w) := w.createNamespace
          w.createFile src owner bump

def reopen (w : Workspace V) (src : Nat) (text : Bytes) :
    Option (Workspace V) := (w.readmitSource src).setSourceText src text

def didOpen (w : Workspace V) (path text : Bytes) : Option (Workspace V) :=
  let src := w.lookupSourceByPath path
  if src ≠ 0 then w.reopen src text else w.register path text none true

def didChange (w : Workspace V) (path text : Bytes) : Option (Workspace V) :=
  let src := w.lookupSourceByPath path
  if src ≠ 0 then w.reopen src text else some w

/-- The text on disk is absent when it cannot be read. -/
def didChangeExternal (w : Workspace V) (path : Bytes) (text : Option Bytes) : Option (Workspace V) :=
  let src := w.lookupSourceByPath path
  match text with
  | some text => if src ≠ 0 then w.reopen src text else some w
  | none => some w

section Evict

variable [Inhabited V]

/-- The per-file columns are cleared behind the back of their slots. -/
def evictFile (w : Workspace V) (file : File) : Workspace V :=
  let columns := Function.update w.engine.columns ⟨.fileAst, file.id.idx⟩ default
  let columns := Function.update columns ⟨.lineIndex, file.id.idx⟩ default
  let columns := Function.update columns ⟨.fileImports, file.id.idx⟩ default
  let w : Workspace V := { w with engine := { w.engine with columns := columns } }
  w.namespaceRemoveFile file.owner file.id

def evictFiles (src : Nat) : List File → Workspace V → Workspace V
  | [], w => w
  | file :: rest, w => evictFiles src rest (if file.source = src then w.evictFile file else w)

def didEvictSource (w : Workspace V) (path : Bytes) : Option (Workspace V) :=
  let src := w.lookupSourceByPath path
  if src = 0 then some w
  else
    let w : Workspace V := { w with
      sources := w.sources.modify src fun row => { row with evicted := true, text := none, textLen := 0 } }
    (evictFiles src w.files.tail w).inputChanged .medium

end Evict

def loadImport (w : Workspace V) (path : Bytes) (disk : Option Bytes) : Option (Workspace V) :=
  if w.lookupSourceByPath path ≠ 0 then some w
  else
    match disk with
    | none => some w
    | some text => w.register path text none false

def fileSource (w : Workspace V) (f : FileId) : Nat := (w.files[f.row]?.map (·.source)).getD 0

def sourceEvicted (w : Workspace V) (src : Nat) : Bool := (w.sources[src]?.map (·.evicted)).getD false

def sourcePath (w : Workspace V) (src : Nat) : Bytes := (w.sources[src]?.map (·.path)).getD []

def namespaceFiles (w : Workspace V) (owner : Nat) : List FileId :=
  if owner = 0 then [] else ((w.members[owner]?).getD []).filter fun f => !w.sourceEvicted (w.fileSource f)

/-- The target of an import has to exist on disk. -/
def canonicalizeRelative (realpath : Bytes → Option Bytes) (importerPath rel : Bytes) : Option Bytes :=
  let joined := pathNormalize (pathDirname importerPath) rel orePathMax
  if joined = [] then none else realpath joined

/-- The namespace that an import means: of a virtual file, of a known source,
or of a file loaded from disk. -/
def resolveImport (realpath : Bytes → Option Bytes) (w : Workspace V) (importer : Nat) (pathStr : Bytes)
    (disk : Option Bytes) :
    Option (Workspace V × Nat) :=
  if pathStr = [] then some (w, 0)
  else
    match w.namespaceFiles importer with
    | [] => some (w, 0)
    | importerFile :: _ =>
        let importerPath := w.sourcePath (w.fileSource importerFile)
        if importerPath = [] then some (w, 0)
        else if w.virtualByName pathStr ≠ 0 then
          let file := w.lookupFileBySource (w.virtualByName pathStr)
          let owner := w.fileNamespace ⟨file, false⟩
          if file = 0 ∨ owner = 0 then none else some (w, owner)
        else
          match canonicalizeRelative realpath (cstr importerPath) (cstr pathStr) with
          | none => some (w, 0)
          | some canonical =>
              let existing := w.lookupSourceByPath canonical
              if existing ≠ 0 then some (w, w.fileNamespace ⟨w.lookupFileBySource existing, false⟩)
              else
                match disk with
                | none => some (w, 0)
                | some _ => (w.loadImport canonical disk).map fun w' => (w', w.members.length)

def admitVirtual (w : Workspace V) (name text : Bytes) : Option (Workspace V) :=
  if name = [] ∨ w.lookupSourceByPath name ≠ 0 ∨ w.virtualByName name ≠ 0 then some w
  else
    match w.createSourceRow name text true with
    | none => none
    | some (src, w) =>
        let (owner, w) := w.createNamespace
        let w := w.createVirtualFile src owner
        some { w with virtualByName := Function.update w.virtualByName name src }

/-- Only the sentinel rows. -/
def initial (V : Type) [Inhabited V] : Workspace V where
  engine := EngineModel.initial V UInt64
  sources := [⟨[], none, 0, 0, 0, .low, false, false⟩]
  files := [⟨⟨0, false⟩, 0, 0⟩]
  members := [[]]
  sourceByPath := fun _ => 0
  fileBySource := fun _ => 0
  virtualByName := fun _ => 0

end Workspace

/-- What reaches the workspace. `addFile` composes a namespace of several
files. -/
inductive Event
  | didOpen (path text : Bytes)
  | didChange (path text : Bytes)
  | didChangeExternal (path : Bytes) (text : Option Bytes)
  | didEvictSource (path : Bytes)
  | loadImport (path : Bytes) (disk : Option Bytes)
  | resolveImport (importer : Nat) (pathStr : Bytes) (disk : Option Bytes)
  | admitVirtual (name text : Bytes)
  | createNamespace
  | addFile (path text : Bytes) (owner : Nat)

def canonicalizePath (realpath : Bytes → Option Bytes) (path : Bytes) : Bytes := (realpath path).getD path

/-- One event. `none` is a failed assertion, or a file added at a path or to a
namespace that does not allow it. -/
def step [Inhabited V] (realpath : Bytes → Option Bytes) (w : Workspace V) : Event → Option (Workspace V)
  | .didOpen path text => w.didOpen (canonicalizePath realpath path) text
  | .didChange path text => w.didChange (canonicalizePath realpath path) text
  | .didChangeExternal path text => w.didChangeExternal (canonicalizePath realpath path) text
  | .didEvictSource path => w.didEvictSource (canonicalizePath realpath path)
  | .loadImport path disk => w.loadImport path disk
  | .resolveImport importer pathStr disk => (w.resolveImport realpath importer pathStr disk).map Prod.fst
  | .admitVirtual name text => w.admitVirtual name text
  | .createNamespace => some w.createNamespace.2
  | .addFile path text owner =>
      if w.sourceByPath path = 0 ∧ owner < w.members.length then w.register path text (some owner) true else none

def run [Inhabited V] (realpath : Bytes → Option Bytes) (events : List Event) (w : Workspace V) :
    Option (Workspace V) :=
  events.foldlM (step realpath) w

end Ore.WorkspaceModel
