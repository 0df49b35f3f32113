import Ore.WorkspaceModel
import Mathlib.Data.List.Nodup

namespace Ore.FileSets

open EngineModel WorkspaceModel Workspace

variable {V : Type} {w w' : Workspace V} {src owner : Nat}

theorem lookupSourceByPath_eq (w : Workspace V) {path : Bytes} (hne : ¬w.lookupSourceByPath path = 0) :
    w.lookupSourceByPath path = w.sourceByPath path := by
  rw [Workspace.lookupSourceByPath] at hne ⊢
  by_cases hpath : path = []
  · exact absurd (if_pos hpath) hne
  · exact if_neg hpath

theorem resolveImport_cases {realpath : Bytes → Option Bytes} {importer : Nat} {pathStr : Bytes} {disk : Option Bytes}
    {owner : Nat}
    (hstep : w.resolveImport realpath importer pathStr disk = some (w', owner)) :
    w' = w ∨ ∃ joined path text, realpath joined = some path ∧ w.loadImport path (some text) = some w' := by
  have hsame {o : Nat} (h : some (w, o) = some (w', owner)) : w' = w := (Prod.mk.inj (Option.some.inj h)).1.symm
  simp only [Workspace.resolveImport] at hstep
  split at hstep
  · exact .inl (hsame hstep)
  · split at hstep
    · exact .inl (hsame hstep)
    · split at hstep
      · exact .inl (hsame hstep)
      · split at hstep
        · split at hstep
          · simp at hstep
          · exact .inl (hsame hstep)
        · split at hstep
          · exact .inl (hsame hstep)
          · rename_i canonical hcanonical
            obtain ⟨-, hreal⟩ := Option.ite_none_left_eq_some.mp hcanonical
            split at hstep
            · exact .inl (hsame hstep)
            · split at hstep
              · exact .inl (hsame hstep)
              · rename_i text
                obtain ⟨t, hload, hpair⟩ := Option.map_eq_some_iff.mp hstep
                exact .inr ⟨_, canonical, text, hreal, (Prod.mk.inj hpair).1 ▸ hload⟩

def setFp (files : List FileId) : UInt64 := files.foldl foldFile (fpU64 0)

def memberList (w : Workspace V) (owner : Nat) : List FileId := (w.members[owner]?).getD []

def isEvicted (w : Workspace V) (src : Nat) : Bool := (w.sources[src]?.map (·.evicted)).getD false

def fileSet (w : Workspace V) (owner : Nat) : Option UInt64 := (w.engine.slots ⟨.fileSet, owner⟩).fingerprint

def Unevicted (w : Workspace V) (owner : Nat) (f : FileId) : Prop :=
  ∃ i file, 0 < i ∧ w.files[i]? = some file ∧ file.id = f ∧ file.owner = owner ∧ isEvicted w file.source = false

/-- The list of a namespace holds its files that are not evicted, each once, and its
fingerprint is the one from scratch. -/
structure Listed (w : Workspace V) (owner : Nat) : Prop where
  nodup : (memberList w owner).Nodup
  mem : ∀ f, f ∈ memberList w owner ↔ Unevicted w owner f
  fp : fileSet w owner = some (setFp (memberList w owner))

structure FileRow (w : Workspace V) (i : Nat) (file : File) : Prop where
  id : file.id.row = i
  source : file.source < w.sources.length
  owner : file.owner < w.members.length
  back : w.fileBySource file.source = i
  physical : isEvicted w file.source = true → file.id.isVirtual = false

structure Tables (w : Workspace V) : Prop where
  sources : 0 < w.sources.length
  files : 0 < w.files.length
  members : 0 < w.members.length
  rows : ∀ i file, 0 < i → w.files[i]? = some file → FileRow w i file
  bySource : ∀ src, w.fileBySource src ≠ 0 → ∃ file, w.files[w.fileBySource src]? = some file ∧ file.source = src
  registered : ∀ path, w.sourceByPath path < w.sources.length ∧
    ∀ i file, 0 < i → w.files[i]? = some file → file.source = w.sourceByPath path → file.id.isVirtual = false

structure Filed (w : Workspace V) : Prop extends Tables w where
  listed : ∀ owner, 0 < owner → owner < w.members.length → Listed w owner

theorem setFp_append (files : List FileId) (f : FileId) :
    setFp (files ++ [f]) = foldFile (setFp files) f := by
  rw [setFp, setFp, List.foldl_append, List.foldl_cons, List.foldl_nil]

theorem fileSet_inputSet (w : Workspace V) (q : Query) (fp : UInt64) (dur : Durability) (owner : Nat) :
    fileSet (w.inputSet q fp dur) owner = if q = ⟨.fileSet, owner⟩ then some fp else fileSet w owner := by
  by_cases hq : q = ⟨.fileSet, owner⟩
  · subst hq
    simp [fileSet, Workspace.inputSet, State.modifySlot]
  · simp [fileSet, Workspace.inputSet, State.modifySlot, hq, Function.update_of_ne (Ne.symm hq)]

theorem Tables.congr (h : Tables w) (hfiles : w'.files = w.files) (hmembers : w'.members.length = w.members.length)
    (hsources : w'.sources.length = w.sources.length) (hevicted : ∀ src, isEvicted w' src = true →
      isEvicted w src = true)
    (hbySource : w'.fileBySource = w.fileBySource) (hbyPath : w'.sourceByPath = w.sourceByPath) : Tables w' := by
  constructor
  · rw [hsources]
    exact h.sources
  · rw [hfiles]
    exact h.files
  · rw [hmembers]
    exact h.members
  · intro i file hi hfile
    obtain ⟨hid, hsrc, howner, hback, hphysical⟩ := h.rows i file hi (hfiles ▸ hfile)
    constructor
    · exact hid
    · rw [hsources]
      exact hsrc
    · rw [hmembers]
      exact howner
    · rw [hbySource]
      exact hback
    · exact fun he => hphysical (hevicted _ he)
  · rw [hbySource, hfiles]
    exact h.bySource
  · rw [hbyPath, hsources, hfiles]
    exact h.registered

theorem Filed.congr (h : Filed w) (hfiles : w'.files = w.files) (hmembers : w'.members = w.members)
    (hsources : w'.sources.length = w.sources.length) (hevicted : ∀ src, isEvicted w' src = isEvicted w src)
    (hbySource : w'.fileBySource = w.fileBySource) (hbyPath : w'.sourceByPath = w.sourceByPath)
    (hfileSet : ∀ owner, fileSet w' owner = fileSet w owner) : Filed w' := by
  have hmemberList (owner : Nat) : memberList w' owner = memberList w owner := by simp [memberList, hmembers]
  constructor
  · exact h.toTables.congr hfiles (by rw [hmembers]) hsources (fun src he => hevicted src ▸ he) hbySource hbyPath
  · intro owner hpos hlt
    rw [hmembers] at hlt
    obtain ⟨hnodup, hmem, hfp⟩ := h.listed owner hpos hlt
    constructor
    · rw [hmemberList]
      exact hnodup
    · intro f
      simp only [hmemberList, hmem f, Unevicted, hfiles, hevicted]
    · rw [hfileSet, hmemberList]
      exact hfp

theorem Filed.inputChanged (h : Filed w) {dur : Durability} (hstep : w.inputChanged dur = some w') : Filed w' := by
  simp only [Workspace.inputChanged, Option.ite_none_right_eq_some, Option.some.injEq] at hstep
  obtain ⟨-, rfl⟩ := hstep
  exact h.congr rfl rfl rfl (fun _ => rfl) rfl rfl fun _ => rfl

theorem Filed.stampText (h : Filed w) (fp : UInt64) (dur : Durability) :
    Filed (w.inputSet ⟨.sourceText, src⟩ fp dur) := by
  have hfileSet (owner : Nat) : fileSet (w.inputSet ⟨.sourceText, src⟩ fp dur) owner = fileSet w owner := by
    rw [fileSet_inputSet, if_neg]
    simp
  exact h.congr rfl rfl rfl (fun _ => rfl) rfl rfl hfileSet

theorem memberList_modify (w : Workspace V) (f : List FileId → List FileId) (owner o : Nat) :
    memberList { w with members := w.members.modify owner f } o =
      if o = owner ∧ o < w.members.length then f (memberList w o) else memberList w o := by
  simp only [memberList, List.getElem?_modify]
  by_cases ho : owner = o
  · subst ho
    by_cases hlt : owner < w.members.length
    · simp [hlt]
    · simp [hlt]
  · simp [ho, Ne.symm ho]

theorem memberList_inputSet (w : Workspace V) (q : Query) (fp : UInt64) (dur : Durability) (o : Nat) :
    memberList (w.inputSet q fp dur) o = memberList w o := rfl

theorem memberList_fileSetAdd (w : Workspace V) {f : FileId} (hpos : 0 < owner) (hlt : owner < w.members.length)
    (o : Nat) :
    memberList (w.fileSetAdd owner f) o = if o = owner then memberList w o ++ [f] else memberList w o := by
  rw [Workspace.fileSetAdd, if_neg (Nat.ne_of_gt hpos), memberList_inputSet, memberList_modify]
  by_cases ho : o = owner
  · simp [ho, hlt]
  · simp [ho]

theorem fileSet_fileSetAdd (w : Workspace V) {f : FileId} (hpos : 0 < owner) (o : Nat) :
    fileSet (w.fileSetAdd owner f) o =
      if o = owner then some (foldFile ((fileSet w owner).getD 0) f) else fileSet w o := by
  rw [Workspace.fileSetAdd, if_neg (Nat.ne_of_gt hpos), fileSet_inputSet]
  by_cases ho : o = owner
  · simp [ho, Workspace.slotFingerprint, fileSet]
  · simp [ho, Ne.symm ho, fileSet]

theorem fileSetAdd_rest (w : Workspace V) (owner : Nat) (f : FileId) :
    (w.fileSetAdd owner f).files = w.files ∧ (w.fileSetAdd owner f).sources = w.sources ∧
      (w.fileSetAdd owner f).fileBySource = w.fileBySource ∧ (w.fileSetAdd owner f).sourceByPath = w.sourceByPath ∧
      (w.fileSetAdd owner f).members.length = w.members.length := by
  rw [Workspace.fileSetAdd]
  split
  · exact ⟨rfl, rfl, rfl, rfl, rfl⟩
  · exact ⟨rfl, rfl, rfl, rfl, List.length_modify ..⟩

theorem fileSetAdd_tables (h : Tables w) (owner : Nat) (f : FileId) : Tables (w.fileSetAdd owner f) := by
  obtain ⟨hfiles, hsources, hbySource, hbyPath, hmembers⟩ := fileSetAdd_rest w owner f
  apply h.congr hfiles hmembers (by rw [hsources]) ?_ hbySource hbyPath
  intro src he
  simpa only [isEvicted, hsources] using he

theorem Filed.join (h : Filed w) (w' : Workspace V) (htables : Tables w') {f : FileId}
    (howner : owner < w.members.length)
    (hmembers : w'.members = w.members) (hfileSet : ∀ o, fileSet w' o = fileSet w o) (hnew : ¬ Unevicted w owner f)
    (hadmitted : ∀ o g, 0 < o → (Unevicted w' o g ↔ Unevicted w o g ∨ o = owner ∧ g = f)) :
    Filed (w'.fileSetAdd owner f) := by
  obtain ⟨hfiles, hsources, -, -, hlength⟩ := fileSetAdd_rest w' owner f
  have hmemberList (o : Nat) : memberList w' o = memberList w o := by simp only [memberList, hmembers]
  have hadm (o : Nat) (g : FileId) : Unevicted (w'.fileSetAdd owner f) o g ↔ Unevicted w' o g := by
    simp only [Unevicted, hfiles, isEvicted, hsources]
  constructor
  · exact fileSetAdd_tables htables owner f
  · intro o hpos hlt
    rw [hlength, hmembers] at hlt
    obtain ⟨hnodup, hmem, hfp⟩ := h.listed o hpos hlt
    rcases Nat.eq_zero_or_pos owner with hzero | hpos'
    · have hsame : w'.fileSetAdd owner f = w' := by simp [Workspace.fileSetAdd, hzero]
      have ho : o ≠ owner := by omega
      constructor
      · rw [hsame, hmemberList]
        exact hnodup
      · intro g
        rw [hadm, hadmitted o g hpos, hsame, hmemberList, hmem g]
        simp [ho]
      · rw [hsame, hmemberList, hfileSet]
        exact hfp
    · have hlist := memberList_fileSetAdd w' (f := f) hpos' (hmembers ▸ howner) o
      have hset := fileSet_fileSetAdd w' (f := f) hpos' o
      rw [hmemberList] at hlist
      by_cases ho : o = owner
      · subst ho
        rw [if_pos rfl] at hlist hset
        constructor
        · rw [hlist, List.nodup_append]
          refine ⟨hnodup, by simp, ?_⟩
          intro g hg f' hf' heq
          rw [List.mem_singleton.mp hf'] at heq
          exact hnew ((hmem f).mp (heq ▸ hg))
        · intro g
          rw [hadm, hadmitted o g hpos, hlist, List.mem_append, hmem g, List.mem_singleton]
          simp
        · rw [hset, hlist, setFp_append, hfileSet, hfp]
          rfl
      · rw [if_neg ho] at hlist hset
        constructor
        · rw [hlist]
          exact hnodup
        · intro g
          rw [hadm, hadmitted o g hpos, hlist, hmem g]
          simp [ho]
        · rw [hset, hlist, hfileSet]
          exact hfp

theorem Filed.noFile (h : Filed w) (hsrc : w.sources.length ≤ src) : w.fileBySource src = 0 := by
  by_contra hne
  obtain ⟨file, hfile, rfl⟩ := h.bySource src hne
  have hrow := (h.rows _ file (Nat.pos_of_ne_zero hne) hfile).source
  omega

theorem Filed.createSourceRow (h : Filed w) {path text : Bytes} {isVirtual : Bool}
    (hstep : w.createSourceRow path text isVirtual = some (src, w')) :
    Filed w' ∧ src < w'.sources.length ∧ w'.fileBySource src = 0 ∧ isEvicted w' src = false ∧
      w'.members = w.members ∧ (isVirtual = true → ∀ path, w'.sourceByPath path ≠ src) := by
  simp only [Workspace.createSourceRow, Option.ite_none_right_eq_some, Option.some.injEq, Prod.mk.injEq] at hstep
  obtain ⟨-, rfl, rfl⟩ := hstep
  have hnofile := h.noFile (Nat.le_refl w.sources.length)
  refine ⟨Filed.stampText ?_ _ _, ?_, hnofile, ?_, rfl, ?_⟩
  · have hevicted (src : Nat) : isEvicted { w with
        sources := w.sources ++ [⟨path, some text, text.length, sourceFnv1a text, 1, .low, false, isVirtual⟩]
        sourceByPath := if isVirtual then w.sourceByPath else Function.update w.sourceByPath path w.sources.length }
          src =
          isEvicted w src := by
      simp only [isEvicted, List.getElem?_append]
      split
      · rfl
      · rename_i hlt
        rw [List.getElem?_eq_none (Nat.not_lt.mp hlt)]
        cases hk : src - w.sources.length <;> simp
    constructor
    · constructor
      · simp
      · exact h.files
      · exact h.members
      · intro i file hi hfile
        obtain ⟨hid, hsrc, howner, hback, hphysical⟩ := h.rows i file hi hfile
        refine ⟨hid, ?_, howner, hback, fun he => hphysical (hevicted _ ▸ he)⟩
        simp only [List.length_append, List.length_singleton]
        omega
      · exact h.bySource
      · intro p
        obtain ⟨hlt, hphys⟩ := h.registered p
        simp only [List.length_append, List.length_singleton]
        cases isVirtual with
        | true => exact ⟨Nat.lt_succ_of_lt hlt, hphys⟩
        | false =>
            by_cases hp : p = path
            · subst hp
              simp only [Bool.false_eq_true, if_false, Function.update_self]
              refine ⟨Nat.lt_succ_self _, fun i file hi hfile hsrc => ?_⟩
              have hrow := (h.rows i file hi hfile).source
              omega
            · simp only [Bool.false_eq_true, if_false, Function.update_of_ne hp]
              exact ⟨Nat.lt_succ_of_lt hlt, hphys⟩
    · intro owner hpos hlt
      obtain ⟨hnodup, hmem, hfp⟩ := h.listed owner hpos hlt
      refine ⟨hnodup, fun f => ?_, hfp⟩
      simp only [Unevicted, hevicted]
      exact hmem f
  · simp [Workspace.inputSet]
  · simp [isEvicted, Workspace.inputSet]
  · intro hv p heq
    have hlt := (h.registered p).1
    simp only [Workspace.inputSet, hv, if_true] at heq
    omega

theorem Filed.createNamespace (h : Filed w) :
    Filed w.createNamespace.2 ∧ w.createNamespace.1 < w.createNamespace.2.members.length := by
  have hlength : w.createNamespace.2.members.length = w.members.length + 1 := by
    simp [Workspace.createNamespace, Workspace.inputSet]
  have hset (o : Nat) : fileSet w.createNamespace.2 o =
      if o = w.members.length then some (fpU64 0) else fileSet w o := by
    simp only [Workspace.createNamespace, fileSet_inputSet]
    by_cases ho : o = w.members.length
    · simp [ho]
    · simp [ho, Ne.symm ho, fileSet]
  have hlist (o : Nat) : memberList w.createNamespace.2 o = memberList w o := by
    simp only [memberList, Workspace.createNamespace, Workspace.inputSet, List.getElem?_append]
    split
    · rfl
    · rename_i hlt
      rw [List.getElem?_eq_none (Nat.not_lt.mp hlt)]
      cases hk : o - w.members.length <;> simp
  have hadm (o : Nat) (f : FileId) : Unevicted w.createNamespace.2 o f ↔ Unevicted w o f := Iff.rfl
  refine ⟨⟨?_, ?_⟩, ?_⟩
  · constructor
    · exact h.sources
    · exact h.files
    · rw [hlength]
      exact Nat.succ_pos _
    · intro i file hi hfile
      obtain ⟨hid, hsrc, howner, hback, hphysical⟩ := h.rows i file hi hfile
      exact ⟨hid, hsrc, by rw [hlength]; omega, hback, hphysical⟩
    · exact h.bySource
    · exact h.registered
  · intro o hpos hlt
    by_cases ho : o = w.members.length
    · subst ho
      have hnil : memberList w w.members.length = [] := by simp [memberList]
      constructor
      · rw [hlist, hnil]
        exact List.nodup_nil
      · intro f
        rw [hlist, hnil, hadm]
        simp only [List.not_mem_nil, false_iff]
        rintro ⟨i, file, hi, hfile, -, howner, -⟩
        have hrow := (h.rows i file hi hfile).owner
        omega
      · rw [hset, if_pos rfl, hlist, hnil]
        rfl
    · obtain ⟨hnodup, hmem, hfp⟩ := h.listed o hpos (by omega)
      constructor
      · rw [hlist]
        exact hnodup
      · intro f
        rw [hlist, hadm]
        exact hmem f
      · rw [hset, if_neg ho, hlist]
        exact hfp
  · rw [hlength]
    exact Nat.lt_succ_self _

theorem Filed.newFile (h : Filed w) (isVirtual : Bool) (hsrc : src < w.sources.length) (hfree : w.fileBySource src = 0)
    (hlive : isEvicted w src = false) (howner : owner < w.members.length)
    (hpath : isVirtual = true → ∀ path, w.sourceByPath path ≠ src) (w' : Workspace V)
    (hfiles : w'.files = w.files ++ [⟨⟨w.files.length, isVirtual⟩, src, owner⟩]) (hsources : w'.sources = w.sources)
    (hmembers : w'.members = w.members) (hbySource : w'.fileBySource = Function.update w.fileBySource src
      w.files.length)
    (hbyPath : w'.sourceByPath = w.sourceByPath) (hslots : w'.engine.slots = w.engine.slots) :
    Filed (w'.fileSetAdd owner ⟨w.files.length, isVirtual⟩) := by
  have hpos := h.files
  have hevicted (src : Nat) : isEvicted w' src = isEvicted w src := by simp only [isEvicted, hsources]
  have hother (i : Nat) (file : File) (hi : 0 < i) (hfile : w.files[i]? = some file) : file.source ≠ src := by
    intro heq
    have hback := (h.rows i file hi hfile).back
    rw [heq, hfree] at hback
    omega
  have hget (i : Nat) (file : File) : w'.files[i]? = some file ↔
      w.files[i]? = some file ∨ i = w.files.length ∧ file = ⟨⟨w.files.length, isVirtual⟩, src, owner⟩ := by
    rw [hfiles, List.getElem?_append]
    by_cases hlt : i < w.files.length
    · have hne : i ≠ w.files.length := by omega
      simp [hlt, hne]
    · have hout : w.files[i]? = none := List.getElem?_eq_none (by omega)
      simp only [hlt, if_false, hout, List.getElem?_singleton]
      by_cases hi : i = w.files.length
      · simp [hi, eq_comm]
      · have hsub : i - w.files.length ≠ 0 := by omega
        simp [hi, hsub]
  apply h.join w' ?_ howner hmembers ?_ ?_ ?_
  · constructor
    · rw [hsources]
      exact h.sources
    · simp [hfiles]
    · rw [hmembers]
      exact h.members
    · intro i file hi hfile
      rcases (hget i file).mp hfile with hfile | ⟨rfl, rfl⟩
      · obtain ⟨hid, hlt, howner', hback, hphysical⟩ := h.rows i file hi hfile
        constructor
        · exact hid
        · rw [hsources]
          exact hlt
        · rw [hmembers]
          exact howner'
        · rw [hbySource, Function.update_of_ne (hother i file hi hfile)]
          exact hback
        · rw [hevicted]
          exact hphysical
      · constructor
        · rfl
        · rw [hsources]
          exact hsrc
        · rw [hmembers]
          exact howner
        · rw [hbySource, Function.update_self]
        · rw [hevicted, hlive]
          simp
    · intro src' hne
      rw [hbySource] at hne ⊢
      by_cases hs : src' = src
      · subst hs
        rw [Function.update_self]
        exact ⟨_, (hget _ _).mpr (.inr ⟨rfl, rfl⟩), rfl⟩
      · rw [Function.update_of_ne hs] at hne ⊢
        obtain ⟨file, hfile, hsource⟩ := h.bySource src' hne
        exact ⟨file, (hget _ _).mpr (.inl hfile), hsource⟩
    · intro path
      obtain ⟨hlt, hphys⟩ := h.registered path
      rw [hbyPath, hsources]
      refine ⟨hlt, fun i file hi hfile hsource => ?_⟩
      rcases (hget i file).mp hfile with hfile | ⟨-, rfl⟩
      · exact hphys i file hi hfile hsource
      · cases isVirtual with
        | true => exact absurd hsource.symm (hpath rfl path)
        | false => rfl
  · intro o
    simp only [fileSet, hslots]
  · rintro ⟨i, file, hi, hfile, hid, -, -⟩
    have hrow := (h.rows i file hi hfile).id
    have hlt := (List.getElem?_eq_some_iff.mp hfile).1
    rw [hid] at hrow
    simp only at hrow
    omega
  · intro o g _
    simp only [Unevicted, hevicted, hget]
    constructor
    · rintro ⟨i, file, hi, hfile | ⟨-, rfl⟩, hid, howner', hlive'⟩
      · exact .inl ⟨i, file, hi, hfile, hid, howner', hlive'⟩
      · exact .inr ⟨howner'.symm, hid.symm⟩
    · rintro (⟨i, file, hi, hfile, hid, howner', hlive'⟩ | ⟨rfl, rfl⟩)
      · exact ⟨i, file, hi, .inl hfile, hid, howner', hlive'⟩
      · exact ⟨w.files.length, _, hpos, .inr ⟨rfl, rfl⟩, rfl, rfl, hlive⟩

theorem Filed.createFile (h : Filed w) (hsrc : src < w.sources.length) (hfree : w.fileBySource src = 0)
    (hlive : isEvicted w src = false) (howner : owner < w.members.length) {bump : Bool}
    (hstep : w.createFile src owner bump = some w') : Filed w' := by
  simp only [Workspace.createFile] at hstep
  split at hstep
  · rename_i hzero
    have hjoined := h.newFile false hsrc hfree hlive howner (by simp) { w with
      files := w.files ++ [⟨⟨w.files.length, false⟩, src, owner⟩]
      fileBySource := Function.update w.fileBySource src w.files.length } rfl rfl rfl rfl rfl rfl
    rw [Workspace.fileSetAdd, if_pos hzero] at hjoined
    exact Option.some.inj hstep ▸ hjoined
  · split at hstep
    · simp only [Option.map_eq_some_iff, Workspace.inputChanged, Option.ite_none_right_eq_some,
        Option.some.injEq] at hstep
      obtain ⟨t, ⟨-, rfl⟩, rfl⟩ := hstep
      exact h.newFile false hsrc hfree hlive howner (by simp) _ rfl rfl rfl rfl rfl rfl
    · exact Option.some.inj hstep ▸ h.newFile false hsrc hfree hlive howner (by simp) _ rfl rfl rfl rfl rfl rfl

theorem Filed.register (h : Filed w) {path text : Bytes} {owner : Option Nat}
    (howner : ∀ o ∈ owner, o < w.members.length)
    {bump : Bool} (hstep : w.register path text owner bump = some w') : Filed w' := by
  simp only [Workspace.register] at hstep
  split at hstep
  · simp at hstep
  · rename_i src t hcreate
    obtain ⟨hfiled, hsrc, hfree, hlive, hmembers, -⟩ := h.createSourceRow hcreate
    split at hstep
    · rename_i o
      exact hfiled.createFile hsrc hfree hlive (hmembers ▸ howner o rfl) hstep
    · obtain ⟨hspace, hlt⟩ := hfiled.createNamespace
      exact hspace.createFile hsrc hfree hlive hlt hstep

theorem isEvicted_set (w : Workspace V) {row : Source} (hrow : w.sources[src]? = some row) (new : Source) (s : Nat) :
    isEvicted { w with sources := w.sources.set src new } s = if s = src then new.evicted else isEvicted w s := by
  have hlt := (List.getElem?_eq_some_iff.mp hrow).1
  simp only [isEvicted, List.getElem?_set]
  by_cases hs : src = s
  · subst hs
    simp [hlt]
  · simp [hs, Ne.symm hs]

/-- Whether the file of a source is admitted depends on the evicted bit. -/
theorem Filed.readmitSource (h : Filed w) : Filed (w.readmitSource src) := by
  simp only [Workspace.readmitSource]
  split
  · exact h
  · rename_i row hrow
    split
    · exact h
    · rename_i hcond
      simp only [not_or, Bool.not_eq_false] at hcond
      obtain ⟨hne, hwas⟩ := hcond
      have hset := isEvicted_set w hrow { row with evicted := false }
      have hwas' : isEvicted w src = true := by simp [isEvicted, hrow, hwas]
      have htables : Tables { w with sources := w.sources.set src { row with evicted := false } } := by
        refine h.toTables.congr rfl rfl List.length_set ?_ rfl rfl
        intro s hs
        rw [hset] at hs
        split at hs
        · simp at hs
        · exact hs
      have hadmitted (o : Nat) (g : FileId) :
          Unevicted { w with sources := w.sources.set src { row with evicted := false } } o g ↔
            Unevicted w o g ∨ ∃ i file, 0 < i ∧ w.files[i]? = some file ∧ file.id = g ∧ file.owner = o ∧
              file.source = src := by
        constructor
        · rintro ⟨i, file, hi, hfile, hid, howner, hlive⟩
          rw [hset] at hlive
          split at hlive
          · rename_i hsrc
            exact .inr ⟨i, file, hi, hfile, hid, howner, hsrc⟩
          · exact .inl ⟨i, file, hi, hfile, hid, howner, hlive⟩
        · rintro (⟨i, file, hi, hfile, hid, howner, hlive⟩ | ⟨i, file, hi, hfile, hid, howner, hsrc⟩)
          · refine ⟨i, file, hi, hfile, hid, howner, ?_⟩
            rw [hset]
            split
            · rfl
            · exact hlive
          · exact ⟨i, file, hi, hfile, hid, howner, by rw [hset, if_pos hsrc]⟩
      have hlookup : lookupFileBySource { w with sources := w.sources.set src { row with evicted := false } } src =
          w.fileBySource src := by simp [Workspace.lookupFileBySource, hne]
      rw [hlookup]
      by_cases hzero : w.fileBySource src = 0
      · rw [if_pos hzero]
        refine ⟨htables, fun o hpos hlt => ?_⟩
        obtain ⟨hnodup, hmem, hfp⟩ := h.listed o hpos hlt
        refine ⟨hnodup, fun g => ?_, hfp⟩
        rw [hadmitted]
        refine (hmem g).trans (or_iff_left ?_).symm
        rintro ⟨i, file, hi, hfile, -, -, hsrc⟩
        have hback := (h.rows i file hi hfile).back
        rw [hsrc, hzero] at hback
        omega
      · rw [if_neg hzero]
        obtain ⟨file, hfile, hsrc⟩ := h.bySource src hzero
        have hrow' := h.rows _ file (Nat.pos_of_ne_zero hzero) hfile
        have hid : file.id = ⟨w.fileBySource src, false⟩ := by
          rw [← hrow'.id, ← hrow'.physical (hsrc ▸ hwas')]
        have hspace : fileNamespace { w with sources := w.sources.set src { row with evicted := false } }
            ⟨w.fileBySource src, false⟩ = file.owner := by simp [Workspace.fileNamespace, hfile]
        rw [hspace]
        apply h.join _ htables hrow'.owner rfl (fun _ => rfl) ?_ ?_
        · rintro ⟨i, file', hi, hfile', hid', -, hlive⟩
          have hi' := (h.rows i file' hi hfile').id
          rw [hid'] at hi'
          simp only at hi'
          rw [← hi', hfile] at hfile'
          rw [← Option.some.inj hfile', hsrc, hwas'] at hlive
          simp at hlive
        · intro o g _
          rw [hadmitted]
          apply or_congr_right
          constructor
          · rintro ⟨i, file', hi, hfile', rfl, rfl, hsrc'⟩
            have hi' := (h.rows i file' hi hfile').back
            rw [hsrc'] at hi'
            rw [← hi', hfile] at hfile'
            obtain rfl := Option.some.inj hfile'
            exact ⟨rfl, hid⟩
          · rintro ⟨rfl, rfl⟩
            exact ⟨_, file, Nat.pos_of_ne_zero hzero, hfile, hid, rfl, hsrc⟩

theorem Filed.setSourceText (h : Filed w) {text : Bytes} (hstep : w.setSourceText src text = some w') : Filed w' := by
  simp only [Workspace.setSourceText] at hstep
  split at hstep
  · exact Option.some.inj hstep ▸ h
  · rename_i row hrow
    split at hstep
    · exact Option.some.inj hstep ▸ h
    · split at hstep
      · split at hstep
        · exact Option.some.inj hstep ▸ h
        · simp only [Option.map_eq_some_iff] at hstep
          obtain ⟨t, hbump, rfl⟩ := hstep
          have hset := isEvicted_set w hrow { row with
            text := some text, hash := sourceFnv1a text, textLen := text.length, version := row.version + 1 }
          apply Filed.stampText
          refine Filed.inputChanged ?_ hbump
          refine h.congr rfl rfl List.length_set ?_ rfl rfl fun _ => rfl
          intro s
          rw [hset]
          split
          · rename_i hs
            simp [hs, isEvicted, hrow]
          · rfl
      · simp at hstep

theorem Filed.reopen (h : Filed w) {text : Bytes} (hstep : w.reopen src text = some w') : Filed w' :=
  h.readmitSource.setSourceText hstep

theorem Filed.admitVirtual (h : Filed w) {name text : Bytes} (hstep : w.admitVirtual name text = some w') :
    Filed w' := by
  simp only [Workspace.admitVirtual] at hstep
  split at hstep
  · exact Option.some.inj hstep ▸ h
  · split at hstep
    · simp at hstep
    · rename_i src t hcreate
      obtain ⟨hfiled, hsrc, hfree, hlive, -, hpath⟩ := h.createSourceRow hcreate
      obtain ⟨hspace, hlt⟩ := hfiled.createNamespace
      have hjoined := hspace.newFile true hsrc hfree hlive hlt hpath { t.createNamespace.2 with
        files := t.createNamespace.2.files ++ [⟨⟨t.createNamespace.2.files.length, true⟩, src, t.createNamespace.1⟩]
        fileBySource := Function.update t.createNamespace.2.fileBySource src t.createNamespace.2.files.length }
        rfl rfl rfl rfl rfl rfl
      rw [← Option.some.inj hstep]
      exact hjoined.congr rfl rfl rfl (fun _ => rfl) rfl rfl fun _ => rfl

theorem memberList_remove (w : Workspace V) {f : FileId} (hpos : 0 < owner) (hlt : owner < w.members.length) (o : Nat) :
    memberList (w.namespaceRemoveFile owner f) o = if o = owner then (memberList w o).erase f else memberList w o := by
  rw [Workspace.namespaceRemoveFile, if_neg (by omega), memberList_inputSet, memberList_modify]
  by_cases ho : o = owner
  · simp [ho, hlt]
  · simp [ho]

theorem fileSet_remove (w : Workspace V) {f : FileId} (hpos : 0 < owner) (hlt : owner < w.members.length) (o : Nat) :
    fileSet (w.namespaceRemoveFile owner f) o =
      if o = owner then some (setFp ((memberList w owner).erase f)) else fileSet w o := by
  have hlist := memberList_modify w (·.erase f) owner owner
  rw [if_pos ⟨rfl, hlt⟩] at hlist
  rw [Workspace.namespaceRemoveFile, if_neg (by omega), fileSet_inputSet]
  by_cases ho : o = owner
  · subst ho
    rw [if_pos rfl, if_pos rfl, ← hlist]
    rfl
  · simp [ho, Ne.symm ho, fileSet]

theorem remove_rest (w : Workspace V) (owner : Nat) (f : FileId) :
    (w.namespaceRemoveFile owner f).files = w.files ∧ (w.namespaceRemoveFile owner f).sources = w.sources ∧
      (w.namespaceRemoveFile owner f).fileBySource = w.fileBySource ∧
      (w.namespaceRemoveFile owner f).sourceByPath = w.sourceByPath ∧
      (w.namespaceRemoveFile owner f).members.length = w.members.length := by
  rw [Workspace.namespaceRemoveFile]
  split
  · exact ⟨rfl, rfl, rfl, rfl, rfl⟩
  · exact ⟨rfl, rfl, rfl, rfl, List.length_modify ..⟩

/-- In the middle of an eviction: the files still to be removed may be listed
although their source is evicted. -/
structure Evicting (src : Nat) (todo : List File) (w : Workspace V) : Prop extends Tables w where
  evicted : isEvicted w src = true
  rows' : ∀ file ∈ todo, ∃ i, 0 < i ∧ w.files[i]? = some file
  distinct : (todo.map (·.id)).Nodup
  nodup : ∀ o, 0 < o → o < w.members.length → (memberList w o).Nodup
  mem : ∀ o f, 0 < o → o < w.members.length → Unevicted w o f → f ∈ memberList w o
  only : ∀ o f, 0 < o → o < w.members.length → f ∈ memberList w o →
    Unevicted w o f ∨ ∃ file ∈ todo, file.source = src ∧ file.owner = o ∧ file.id = f
  fp : ∀ o, 0 < o → o < w.members.length → fileSet w o = some (setFp (memberList w o))

theorem Evicting.skip {todo : List File} {file : File} (h : Evicting src (file :: todo) w) (hsrc : file.source ≠ src) :
    Evicting src todo w := by
  refine ⟨h.toTables, h.evicted, fun file' hmem => h.rows' file' (List.mem_cons_of_mem _ hmem),
    (List.nodup_cons.mp (List.map_cons .. ▸ h.distinct)).2, h.nodup, h.mem, fun o f hpos hlt hmem => ?_, h.fp⟩
  rcases h.only o f hpos hlt hmem with hadmitted | ⟨file', hmemt, hsrc', hrest⟩
  · exact .inl hadmitted
  · rcases List.mem_cons.mp hmemt with rfl | hmemt
    · exact absurd hsrc' hsrc
    · exact .inr ⟨file', hmemt, hsrc', hrest⟩

/-- Once the evicted bit is set, the files of the source are the ones to remove. -/
theorem Filed.evicting (h : Filed w) (path : Bytes) (hsrc : w.sourceByPath path = src) (f : Source → Source)
    (hset : ∀ row, (f row).evicted = true) :
    Evicting src w.files.tail { w with sources := w.sources.modify src f } := by
  have hlt : src < w.sources.length := hsrc ▸ (h.registered path).1
  have hevicted (s : Nat) : isEvicted { w with sources := w.sources.modify src f } s =
      if s = src then true else isEvicted w s := by
    simp only [isEvicted, List.getElem?_modify]
    by_cases hs : src = s
    · subst hs
      simp [hlt, hset]
    · simp [hs, Ne.symm hs]
  have htail (file : File) (hmem : file ∈ w.files.tail) : ∃ i, 0 < i ∧ w.files[i]? = some file := by
    obtain ⟨i, hi⟩ := List.getElem?_of_mem hmem
    rw [List.getElem?_tail] at hi
    exact ⟨i + 1, Nat.succ_pos i, hi⟩
  have hadmitted (o : Nat) (g : FileId) (hnew : Unevicted { w with sources := w.sources.modify src f } o g) :
      Unevicted w o g := by
    obtain ⟨i, file, hi, hfile, hid, howner, hlive⟩ := hnew
    rw [hevicted] at hlive
    split at hlive
    · simp at hlive
    · exact ⟨i, file, hi, hfile, hid, howner, hlive⟩
  constructor
  · constructor
    · rw [List.length_modify]
      exact h.sources
    · exact h.files
    · exact h.members
    · intro i file hi hfile
      obtain ⟨hid, hsource, howner, hback, hphysical⟩ := h.rows i file hi hfile
      refine ⟨hid, by rw [List.length_modify]; exact hsource, howner, hback, fun he => ?_⟩
      rw [hevicted] at he
      split at he
      · rename_i heq
        exact (h.registered path).2 i file hi hfile (heq.trans hsrc.symm)
      · exact hphysical he
    · exact h.bySource
    · rw [List.length_modify]
      exact h.registered
  · rw [hevicted, if_pos rfl]
  · exact htail
  · rw [List.nodup_iff_getElem?_ne_getElem?]
    intro i j hij hj heq
    rw [List.length_map] at hj
    simp only [List.getElem?_map, List.getElem?_tail] at heq
    obtain ⟨filei, hfilei⟩ : ∃ file, w.files[i + 1]? = some file :=
      ⟨_, List.getElem?_eq_getElem (by rw [List.length_tail] at hj; omega)⟩
    obtain ⟨filej, hfilej⟩ : ∃ file, w.files[j + 1]? = some file :=
      ⟨_, List.getElem?_eq_getElem (by rw [List.length_tail] at hj; omega)⟩
    have hi' := (h.rows _ filei (Nat.succ_pos i) hfilei).id
    have hj' := (h.rows _ filej (Nat.succ_pos j) hfilej).id
    rw [hfilei, hfilej] at heq
    simp only [Option.map_some, Option.some.injEq] at heq
    rw [heq] at hi'
    omega
  · exact fun o hpos hlt => (h.listed o hpos hlt).nodup
  · exact fun o g hpos hlt hnew => ((h.listed o hpos hlt).mem g).mpr (hadmitted o g hnew)
  · intro o g hpos hlt hmem
    obtain ⟨i, file, hi, hfile, hid, howner, hlive⟩ := ((h.listed o hpos hlt).mem g).mp hmem
    by_cases hs : file.source = src
    · refine .inr ⟨file, ?_, hs, howner, hid⟩
      obtain ⟨k, rfl⟩ := Nat.exists_eq_succ_of_ne_zero (Nat.ne_of_gt hi)
      exact List.mem_of_getElem? (List.getElem?_tail.trans hfile)
    · exact .inl ⟨i, file, hi, hfile, hid, howner, by rw [hevicted, if_neg hs]; exact hlive⟩
  · exact fun o hpos hlt => (h.listed o hpos hlt).fp

section Evict

variable [Inhabited V]

theorem evictFile_rest (w : Workspace V) (file : File) :
    (w.evictFile file).files = w.files ∧ (w.evictFile file).sources = w.sources ∧
      (w.evictFile file).fileBySource = w.fileBySource ∧ (w.evictFile file).sourceByPath = w.sourceByPath ∧
      (w.evictFile file).members.length = w.members.length := by
  simp only [Workspace.evictFile]
  exact remove_rest _ _ _

theorem Evicting.step {todo : List File} {file : File} (h : Evicting src (file :: todo) w) (hsrc : file.source = src) :
    Evicting src todo (w.evictFile file) := by
  obtain ⟨hfiles, hsources, hbySource, hbyPath, hmembers⟩ := evictFile_rest w file
  have hevicted (s : Nat) : isEvicted (w.evictFile file) s = isEvicted w s := by simp only [isEvicted, hsources]
  have hadm (o : Nat) (f : FileId) : Unevicted (w.evictFile file) o f ↔ Unevicted w o f := by
    simp only [Unevicted, hfiles, hevicted]
  obtain ⟨i, hi, hfile⟩ := h.rows' file (List.mem_cons_self ..)
  have hrow := h.rows i file hi hfile
  have hgone (o : Nat) : ¬ Unevicted w o file.id := by
    rintro ⟨i', file', hi', hfile', hid, -, hlive⟩
    have hrow' := h.rows i' file' hi' hfile'
    rw [← hrow'.id, hid, hrow.id, hfile] at hfile'
    rw [← Option.some.inj hfile', hsrc, h.evicted] at hlive
    simp at hlive
  have hlist (o : Nat) (hpos : 0 < o) (hlt : o < w.members.length) : memberList (w.evictFile file) o =
      if o = file.owner then (memberList w o).erase file.id else memberList w o := by
    rcases Nat.eq_zero_or_pos file.owner with hzero | hpos'
    · have ho : o ≠ file.owner := by omega
      rw [if_neg ho, Workspace.evictFile, Workspace.namespaceRemoveFile, if_pos (.inl hzero)]
      rfl
    · rw [Workspace.evictFile, memberList_remove _ hpos']
      · rfl
      · exact hrow.owner
  have hset (o : Nat) (hpos : 0 < o) : fileSet (w.evictFile file) o =
      if o = file.owner then some (setFp ((memberList w o).erase file.id)) else fileSet w o := by
    rcases Nat.eq_zero_or_pos file.owner with hzero | hpos'
    · have ho : o ≠ file.owner := by omega
      rw [if_neg ho, Workspace.evictFile, Workspace.namespaceRemoveFile, if_pos (.inl hzero)]
      rfl
    · rw [Workspace.evictFile, fileSet_remove _ hpos']
      · by_cases ho : o = file.owner
        · rw [if_pos ho, if_pos ho, ho]
          rfl
        · rw [if_neg ho, if_neg ho]
          rfl
      · exact hrow.owner
  have hdistinct := List.nodup_cons.mp (List.map_cons .. ▸ h.distinct)
  constructor
  · exact h.toTables.congr hfiles hmembers (by rw [hsources]) (fun s hs => hevicted s ▸ hs) hbySource hbyPath
  · rw [hevicted]
    exact h.evicted
  · rw [hfiles]
    exact fun file' hmem => h.rows' file' (List.mem_cons_of_mem _ hmem)
  · exact hdistinct.2
  · intro o hpos hlt
    rw [hmembers] at hlt
    rw [hlist o hpos hlt]
    split
    · exact (h.nodup o hpos hlt).erase _
    · exact h.nodup o hpos hlt
  · intro o f hpos hlt hadmitted
    rw [hmembers] at hlt
    rw [hadm] at hadmitted
    have hmem := h.mem o f hpos hlt hadmitted
    rw [hlist o hpos hlt]
    split
    · apply (List.mem_erase_of_ne ?_).mpr hmem
      rintro rfl
      exact hgone o hadmitted
    · exact hmem
  · intro o f hpos hlt hmem
    rw [hmembers] at hlt
    rw [hadm]
    rw [hlist o hpos hlt] at hmem
    have hmem' : f ∈ memberList w o ∧ ¬ (o = file.owner ∧ file.id = f) := by
      split at hmem
      · have herase := ((h.nodup o hpos hlt).mem_erase_iff).mp hmem
        exact ⟨herase.2, fun heq => herase.1 heq.2.symm⟩
      · rename_i ho
        exact ⟨hmem, fun heq => ho heq.1⟩
    rcases h.only o f hpos hlt hmem'.1 with hadmitted | ⟨file', hmemt, hsrc', howner', hid'⟩
    · exact .inl hadmitted
    · rcases List.mem_cons.mp hmemt with rfl | hmemt
      · exact absurd ⟨howner'.symm, hid'⟩ hmem'.2
      · exact .inr ⟨file', hmemt, hsrc', howner', hid'⟩
  · intro o hpos hlt
    rw [hmembers] at hlt
    rw [hset o hpos, hlist o hpos hlt]
    split
    · rfl
    · exact h.fp o hpos hlt

theorem Evicting.finish (todo : List File) (w : Workspace V) (h : Evicting src todo w) :
    Filed (evictFiles src todo w) := by
  induction todo generalizing w with
  | nil =>
      refine ⟨h.toTables, fun o hpos hlt => ⟨h.nodup o hpos hlt, fun f => ⟨fun hmem => ?_, h.mem o f hpos hlt⟩,
        h.fp o hpos hlt⟩⟩
      rcases h.only o f hpos hlt hmem with hadmitted | ⟨file, hfile, -⟩
      · exact hadmitted
      · simp at hfile
  | cons file todo ih =>
      rw [Workspace.evictFiles]
      split
      · rename_i hsrc
        exact ih _ (h.step hsrc)
      · rename_i hsrc
        exact ih _ (h.skip hsrc)

theorem Filed.didEvictSource (h : Filed w) {path : Bytes} (hstep : w.didEvictSource path = some w') : Filed w' := by
  simp only [Workspace.didEvictSource] at hstep
  split at hstep
  · exact Option.some.inj hstep ▸ h
  · rename_i hne
    rw [lookupSourceByPath_eq w hne] at hstep
    have hevicting := h.evicting path rfl (fun row => { row with evicted := true, text := none, textLen := 0 }) fun _
      => rfl
    exact (hevicting.finish _ _).inputChanged hstep

omit [Inhabited V] in
theorem Filed.loadImport (h : Filed w) {path : Bytes} {disk : Option Bytes} (hstep : w.loadImport path disk = some w')
    : Filed w' := by
  simp only [Workspace.loadImport] at hstep
  split at hstep
  · exact Option.some.inj hstep ▸ h
  · split at hstep
    · exact Option.some.inj hstep ▸ h
    · exact h.register (by simp) hstep

theorem step_filed {realpath : Bytes → Option Bytes} {event : Event} (h : Filed w)
    (hstep : step realpath w event = some w') : Filed w' := by
  have hopt : w = w' → Filed w' := fun heq => heq ▸ h
  cases event with
  | didOpen path text =>
      simp only [WorkspaceModel.step, Workspace.didOpen] at hstep
      split at hstep
      · exact h.reopen hstep
      · exact h.register (by simp) hstep
  | didChange path text =>
      simp only [WorkspaceModel.step, Workspace.didChange] at hstep
      split at hstep
      · exact h.reopen hstep
      · exact hopt (Option.some.inj hstep)
  | didChangeExternal path text =>
      simp only [WorkspaceModel.step, Workspace.didChangeExternal] at hstep
      split at hstep
      · split at hstep
        · exact h.reopen hstep
        · exact hopt (Option.some.inj hstep)
      · exact hopt (Option.some.inj hstep)
  | didEvictSource path => exact h.didEvictSource hstep
  | loadImport path disk => exact h.loadImport hstep
  | resolveImport importer pathStr disk =>
      obtain ⟨⟨t, owner⟩, hresolve, rfl⟩ := Option.map_eq_some_iff.mp hstep
      rcases resolveImport_cases hresolve with rfl | ⟨_, path, text, -, hload⟩
      · exact h
      · exact h.loadImport hload
  | admitVirtual name text => exact h.admitVirtual hstep
  | createNamespace => exact Option.some.inj hstep ▸ h.createNamespace.1
  | addFile path text owner =>
      simp only [WorkspaceModel.step, Option.ite_none_right_eq_some] at hstep
      refine h.register ?_ hstep.2
      rintro o ho
      exact Option.some.inj ho ▸ hstep.1.2

theorem initial_filed (V : Type) [Inhabited V] : Filed (initial V) := by
  constructor
  · constructor
    · exact Nat.one_pos
    · exact Nat.one_pos
    · exact Nat.one_pos
    · intro i file hi hfile
      have hlt : i < 1 := (List.getElem?_eq_some_iff.mp hfile).1
      omega
    · exact fun src hne => absurd rfl hne
    · refine fun path => ⟨Nat.one_pos, fun i file hi hfile _ => ?_⟩
      have hlt : i < 1 := (List.getElem?_eq_some_iff.mp hfile).1
      omega
  · intro owner hpos hlt
    have hlt' : owner < 1 := hlt
    omega

theorem run_filed {realpath : Bytes → Option Bytes} {events : List Event} {w w' : Workspace V} (h : Filed w)
    (hrun : run realpath events w = some w') : Filed w' := by
  induction events generalizing w with
  | nil => exact Option.some.inj hrun ▸ h
  | cons event events ih =>
      rw [WorkspaceModel.run, List.foldlM_cons] at hrun
      obtain ⟨t, hstep, hrest⟩ := Option.bind_eq_some_iff.mp hrun
      exact ih (step_filed h hstep) hrest

end Evict

end Ore.FileSets
