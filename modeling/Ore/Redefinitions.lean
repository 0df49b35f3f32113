import Ore.NamespaceFingerprints
import Ore.NodePointers

namespace Ore.Redefinitions

open NamespaceItems
open NamespaceFingerprints
open NodePointers (ptr_of_resolve)
open RedTree (SyntaxNodePtr)
open WorkspaceModel (Bytes FileId)

variable {φ : Type} {q : Qsort} {h : ItemHashes φ} {ns : Namespace} {prev item : NamespaceItem}
  {rest items : List NamespaceItem} {name : Bytes}

structure Diag where
  file : FileId
  ptr : SyntaxNodePtr
  format : String
  name : Bytes

def redefinedAfter (prev : NamespaceItem) : List NamespaceItem → List NamespaceItem
  | [] => []
  | cur :: rest =>
      if cur.name = [] ∨ cur.name ≠ prev.name then redefinedAfter cur rest else cur :: redefinedAfter cur rest

def redefined : List NamespaceItem → List NamespaceItem
  | [] => []
  | first :: rest => redefinedAfter first rest

def redefinition (cur : NamespaceItem) : Diag := ⟨cur.file, cur.ptr, "redefinition of %S", cur.name⟩

def emitRedefinitionErrors (items : List NamespaceItem) : List Diag := (redefined items).map redefinition

def IdsApart (items : List NamespaceItem) : Prop := ∀ a ∈ items, ∀ b ∈ items, a.id = b.id ↔ a.name = b.name

theorem IdsApart.tail (hids : IdsApart (prev :: rest)) : IdsApart rest :=
  fun a ha b hb => hids a (List.mem_cons_of_mem prev ha) b (List.mem_cons_of_mem prev hb)

theorem name_passed {cur : NamespaceItem} (hsorted : (prev :: cur :: rest).Pairwise fun a b => a.id ≤ b.id)
    (hids : IdsApart (prev :: cur :: rest)) (hcur : cur.name ≠ prev.name) (hmem : item ∈ rest) :
    item.name ≠ prev.name := by
  obtain ⟨hprev, hrest⟩ := List.pairwise_cons.mp hsorted
  have hlt : prev.id < cur.id := by
    refine lt_of_le_of_ne (hprev cur List.mem_cons_self) fun heq => hcur ?_
    exact ((hids prev List.mem_cons_self cur (by simp)).mp heq).symm
  intro hname
  have heq : item.id = prev.id := (hids item (by simp [hmem]) prev List.mem_cons_self).mpr hname
  have hle : cur.id ≤ item.id := List.rel_of_pairwise_cons hrest hmem
  omega

theorem redefinedAfter_filter (hsorted : (prev :: rest).Pairwise fun a b => a.id ≤ b.id)
    (hids : IdsApart (prev :: rest))
    (hnamed : ∀ item ∈ rest, item.name ≠ []) : (redefinedAfter prev rest).filter (·.name = name) =
      if prev.name = name then rest.filter (·.name = name) else (rest.filter (·.name = name)).tail := by
  induction rest generalizing prev with
  | nil => simp [redefinedAfter]
  | cons cur rest ih =>
      obtain ⟨hne, hrest⟩ := List.forall_mem_cons.mp hnamed
      have hstep := ih (List.pairwise_cons.mp hsorted).2 hids.tail hrest
      by_cases hcur : cur.name = name
      · rw [if_pos hcur] at hstep
        by_cases hprev : prev.name = name
        · have hsame : ¬ (cur.name = [] ∨ cur.name ≠ prev.name) :=
            not_or.mpr ⟨hne, not_not.mpr (hcur.trans hprev.symm)⟩
          rw [redefinedAfter, if_neg hsame, if_pos hprev, List.filter_cons_of_pos (by simpa using hcur),
            List.filter_cons_of_pos (by simpa using hcur), hstep]
        · have hother : cur.name = [] ∨ cur.name ≠ prev.name := .inr fun heq => hprev (heq ▸ hcur)
          rw [redefinedAfter, if_pos hother, if_neg hprev,
            List.filter_cons_of_pos (by simpa using hcur), List.tail_cons,
            hstep]
      · have hskip : (redefinedAfter prev (cur :: rest)).filter (·.name = name) =
            (redefinedAfter cur rest).filter (·.name = name) := by
          rw [redefinedAfter]
          split
          · rfl
          · rw [List.filter_cons_of_neg (by simpa using hcur)]
        rw [if_neg hcur] at hstep
        rw [hskip, List.filter_cons_of_neg (by simpa using hcur), hstep]
        split
        · rename_i hprev
          have hnone : rest.filter (·.name = name) = [] := by
            rw [List.filter_eq_nil_iff]
            intro item hmem
            have hpassed := name_passed hsorted hids (hprev ▸ hcur) hmem
            simpa [← hprev] using hpassed
          rw [hnone, List.tail_nil]
        · rfl

theorem redefined_filter (hsorted : items.Pairwise fun a b => a.id ≤ b.id) (hids : IdsApart items)
    (hnamed : ∀ item ∈ items, item.name ≠ []) :
    (redefined items).filter (·.name = name) = (items.filter (·.name = name)).tail := by
  cases items with
  | nil => rfl
  | cons first rest =>
      rw [redefined, redefinedAfter_filter hsorted hids (List.forall_mem_cons.mp hnamed).2]
      split
      · rename_i hfirst
        rw [List.filter_cons_of_pos (by simpa using hfirst), List.tail_cons]
      · rename_i hfirst
        rw [List.filter_cons_of_neg (by simpa using hfirst)]

theorem redefined_eq_nil
    (hfilter : ∀ name, (redefined items).filter (·.name = name) = (items.filter (·.name = name)).tail) :
    redefined items = [] ↔ (items.map (·.name)).Nodup := by
  have hcount (name : Bytes) : (items.map (·.name)).count name = (items.filter (·.name = name)).length := by
    rw [List.count, List.countP_map, List.countP_eq_length_filter]
    refine congrArg List.length (List.filter_congr fun item _ => ?_)
    exact beq_eq_decide item.name name
  simp only [List.nodup_iff_count_le_one, hcount]
  constructor
  · intro hnil name
    have htail := hfilter name
    rw [hnil, List.filter_nil] at htail
    have hlength := congrArg List.length htail
    rw [List.length_tail, List.length_nil] at hlength
    omega
  · intro hle
    rw [List.eq_nil_iff_forall_not_mem]
    intro item hitem
    have htail := hfilter item.name
    have hlength : (items.filter (·.name = item.name)).tail.length = 0 := by
      rw [List.length_tail]
      exact Nat.sub_eq_zero_of_le (hle item.name)
    rw [List.length_eq_zero_iff.mp hlength] at htail
    have hmem : item ∈ (redefined items).filter (·.name = item.name) :=
      List.mem_filter.mpr ⟨hitem, decide_eq_true rfl⟩
    rw [htail] at hmem
    cases hmem

theorem of_mem_found (hmem : item ∈ found h ns) : item.id = h.astIdCompute item.name ∧ item.name ≠ [] := by
  simp only [found, List.mem_flatMap, nodeItems, List.mem_map] at hmem
  obtain ⟨file, -, n, -, m, hm, rfl⟩ := hmem
  rw [members, List.mem_filter] at hm
  exact ⟨rfl, of_decide_eq_true hm.2⟩

def entryOf (item : NamespaceItem) : TopLevelEntry := ⟨item.id, item.name, item.file, item.ptr, item.defMeta⟩

theorem itemNode_ptr (ns : Namespace) (item : NamespaceItem) :
    ((itemNode ns item).map RedTree.syntaxNodePtrNew).getD item.ptr = item.ptr := by
  cases hnode : itemNode ns item with
  | none => rfl
  | some n =>
      obtain ⟨root, -, hresolve⟩ := Option.bind_eq_some_iff.mp hnode
      exact ptr_of_resolve hresolve

theorem entry_eq : (dbQueryTopLevelEntry q h ns name).1 =
    ((dbQueryNamespaceItems q h ns).filter (·.name = name)).head?.map entryOf := by
  rw [dbQueryTopLevelEntry, List.head?_filter]
  cases hfind : (dbQueryNamespaceItems q h ns).find? (·.name = name) with
  | none => rfl
  | some item =>
      have hname : item.name = name := by simpa using List.find?_some hfind
      simp only [itemNode_ptr, Option.map_some, entryOf, hname]

/-- Every declaration of a name is reported but the one that the name stands for, once each, so that
there is no report exactly when no name is declared twice. -/
theorem redefinitions_exact (q : Qsort) (ns : Namespace)
    (hids : ∀ a ∈ found h ns, ∀ b ∈ found h ns, h.astIdCompute a.name = h.astIdCompute b.name → a.name = b.name) :
    (∀ name, ((dbQueryNamespaceItems q h ns).filter (·.name = name)).Perm ((found h ns).filter (·.name = name)) ∧
      (emitRedefinitionErrors (dbQueryNamespaceItems q h ns)).filter (·.name = name) =
        ((dbQueryNamespaceItems q h ns).filter (·.name = name)).tail.map redefinition ∧
      (dbQueryTopLevelEntry q h ns name).1 =
        ((dbQueryNamespaceItems q h ns).filter (·.name = name)).head?.map entryOf) ∧
    (emitRedefinitionErrors (dbQueryNamespaceItems q h ns) = [] ↔ ((found h ns).map (·.name)).Nodup) := by
  have hperm := Qsort.sort_perm q (·.id) (found h ns)
  have hmem (item : NamespaceItem) (hitem : item ∈ dbQueryNamespaceItems q h ns) :
      item ∈ found h ns := hperm.mem_iff.mp hitem
  have hapart : IdsApart (dbQueryNamespaceItems q h ns) := by
    intro a ha b hb
    rw [(of_mem_found (hmem a ha)).1, (of_mem_found (hmem b hb)).1]
    exact ⟨hids a (hmem a ha) b (hmem b hb), congrArg _⟩
  have hsorted : (dbQueryNamespaceItems q h ns).Pairwise fun a b => a.id ≤ b.id :=
    Qsort.sort_sorted q (·.id) (found h ns)
  have hfilter (name : Bytes) : (redefined (dbQueryNamespaceItems q h ns)).filter (·.name = name) =
      ((dbQueryNamespaceItems q h ns).filter (·.name = name)).tail :=
    redefined_filter hsorted hapart fun item hitem => (of_mem_found (hmem item hitem)).2
  refine ⟨fun name => ⟨hperm.filter _, ?_, entry_eq⟩, ?_⟩
  · rw [emitRedefinitionErrors, List.filter_map, ← hfilter name]
    rfl
  · rw [emitRedefinitionErrors, List.map_eq_nil_iff, redefined_eq_nil hfilter]
    exact (hperm.map (·.name)).nodup_iff

/-- Three declarations of one name between which another one stands. -/
def thrice : Namespace := oneFile (linesOf [bindLit "x" "1", bindLit "y" "2", bindLit "x" "3", bindLit "x" "4"])

theorem redefinitions_exact_thrice :
    ((emitRedefinitionErrors (dbQueryNamespaceItems stableSort freeHashes thrice)).filter
        (·.name = word "x")).length = 2 ∧
      ((dbQueryTopLevelEntry stableSort freeHashes thrice (word "x")).1.map fun e => e.nodePtr.range.start) =
        some 0 := by
  obtain ⟨hperm, herrors, hentry⟩ :=
    (redefinitions_exact stableSort thrice fun _ _ _ _ heq => freeHashes_collisionFree.ids heq).1 (word "x")
  have hfound : ((found freeHashes thrice).filter (·.name = word "x")).length = 3 := by decide +kernel
  have hfirst : (((dbQueryNamespaceItems stableSort freeHashes thrice).filter (·.name = word "x")).head?.map fun item =>
      item.ptr.range.start) = some 0 := by decide +kernel
  refine ⟨?_, ?_⟩
  · rw [herrors, List.length_map, List.length_tail, hperm.length_eq, hfound]
  · rw [hentry, Option.map_map]
    exact hfirst

/-- With one id for two names the second declaration of a name may go unnoticed. -/
example (a b : NamespaceItem) (hne : b.name ≠ a.name) : redefined [a, b, a] = [] := by
  rw [redefined, redefinedAfter, if_pos (.inr hne), redefinedAfter, if_pos (.inr hne.symm), redefinedAfter]

end Ore.Redefinitions
