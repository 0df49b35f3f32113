import Mathlib.Data.List.Sort
import Mathlib.Data.Nat.Pairing
import Ore.NamespaceItems

namespace Ore.NamespaceFingerprints

open SyntaxKinds GreenTree RedTree NamespaceItems
open WorkspaceModel (Bytes FileId)

namespace Qsort

variable {α β : Type} (q : Qsort)

theorem filterMap_range (items : List α) : (List.range items.length).filterMap (items[·]?) = items := by
  induction items with
  | nil => rfl
  | cons a items ih =>
      rw [List.length_cons, List.range_succ_eq_map, List.filterMap_cons_some (b := a) (by simp), List.filterMap_map]
      exact congrArg (a :: ·) ih

theorem sort_perm (key : α → Nat) (items : List α) : (q.sort key items).Perm items := by
  have hperm := (q.perm (items.map key)).filterMap (items[·]?)
  rwa [List.length_map, filterMap_range] at hperm

theorem map_sort (f : α → β) (key : β → Nat) (items : List α) :
    (q.sort (key ∘ f) items).map f = q.sort key (items.map f) := by
  rw [Qsort.sort, Qsort.sort, List.map_filterMap, List.map_map]
  congr 1
  funext i
  rw [List.getElem?_map]

theorem sort_sorted (key : α → Nat) (items : List α) : (q.sort key items).Pairwise fun a b => key a ≤ key b := by
  rw [Qsort.sort, List.pairwise_filterMap]
  refine (List.pairwise_map.mp (q.sorted (items.map key))).imp fun {i j} hle a ha b hb => ?_
  have hkey (k : Nat) (c : α) (hc : items[k]? = some c) : (items.map key).getD k 0 = key c := by
    rw [List.getD_eq_getElem?_getD, List.getElem?_map, hc]
    rfl
  rwa [hkey i a ha, hkey j b hb] at hle

end Qsort

section Positions

variable {m : Member} {kind : SyntaxKind} {cs ps : List Green} {tok : GreenToken} {name : Bytes}

theorem textLen_le_of_mem {c : Green} (hc : c ∈ cs) : textLen c ≤ textLenAll cs := by
  obtain ⟨before, after, rfl⟩ := List.append_of_mem hc
  rw [textLenAll_append, textLenAll]
  omega

theorem mem_of_firstToken (htok : firstToken kind cs = some tok) : .token tok ∈ cs := by
  induction cs with
  | nil => cases htok
  | cons c cs ih =>
      cases c with
      | token tok' =>
          rw [firstToken] at htok
          split at htok
          · cases htok
            exact List.mem_cons_self ..
          · exact List.mem_cons_of_mem _ (ih htok)
      | node k children =>
          rw [firstToken] at htok
          split at htok
          · cases htok
          · exact List.mem_cons_of_mem _ (ih htok)

theorem mem_of_firstProduct (hps : firstProduct cs = some ps) : .node .productExpr ps ∈ cs := by
  induction cs with
  | nil => cases hps
  | cons c cs ih =>
      rw [firstProduct.eq_def] at hps
      split at hps
      · cases hps
      · rename_i heq
        cases hps
        rw [(List.cons.inj heq).1]
        exact List.mem_cons_self ..
      · rename_i heq
        rw [← (List.cons.inj heq).2] at hps
        exact List.mem_cons_of_mem _ (ih hps)

theorem length_le_of_targetNames (hname : name ∈ targetNames ps) : name.length ≤ textLenAll ps := by
  induction ps with
  | nil => simp [targetNames] at hname
  | cons c ps ih =>
      rw [targetNames.eq_def] at hname
      split at hname
      · simp at hname
      · rename_i cs ps' heq
        obtain ⟨rfl, rfl⟩ := List.cons.inj heq
        rcases List.mem_append.mp hname with hname | hname
        · obtain ⟨tok, htok, rfl⟩ := Option.map_eq_some_iff.mp (Option.mem_toList.mp hname)
          have hle : textLen (.token tok) ≤ textLenAll cs := textLen_le_of_mem (mem_of_firstToken htok)
          have hnode : .node .refExpr cs ∈ Green.node .refExpr cs :: ps := List.mem_cons_self ..
          exact hle.trans (textLen_le_of_mem hnode)
        · exact (ih hname).trans (Nat.le_add_left ..)
      · rename_i heq
        obtain ⟨rfl, rfl⟩ := List.cons.inj heq
        exact (ih hname).trans (Nat.le_add_left ..)

theorem textLenAll_pos (hm : m ∈ members kind cs) : 0 < textLenAll cs := by
  rw [members] at hm
  obtain ⟨hm, hname⟩ := List.mem_filter.mp hm
  have hne : 0 < m.name.length := List.length_pos_iff.mpr (of_decide_eq_true hname)
  refine Nat.lt_of_lt_of_le hne ?_
  split at hm
  · obtain ⟨name, hmem, rfl⟩ := List.mem_map.mp hm
    cases hps : firstProduct cs with
    | none => simp [hps, targetNames] at hmem
    | some ps =>
        rw [hps, Option.getD_some] at hmem
        exact (length_le_of_targetNames hmem).trans (textLen_le_of_mem (mem_of_firstProduct hps))
  · rw [declClassify.eq_def] at hm
    split at hm
    · obtain ⟨tok, htok, rfl⟩ := Option.map_eq_some_iff.mp (Option.mem_toList.mp hm)
      exact textLen_le_of_mem (mem_of_firstToken htok)
    · simp at hm

theorem mem_childNodes {n : SyntaxNode} {start : Nat} (hn : n ∈ childNodes start cs) :
    ∃ before after, cs = before ++ .node n.kind n.children :: after ∧ n.start = start + textLenAll before := by
  induction cs generalizing start with
  | nil => simp [childNodes] at hn
  | cons c cs ih =>
      cases c with
      | token tok =>
          obtain ⟨before, after, rfl, hstart⟩ := ih hn
          exact ⟨.token tok :: before, after, rfl, by rw [hstart, textLenAll, textLen, Nat.add_assoc]⟩
      | node kind children =>
          rcases List.mem_cons.mp hn with rfl | hn
          · exact ⟨[], cs, rfl, rfl⟩
          · obtain ⟨before, after, rfl, hstart⟩ := ih hn
            exact ⟨.node kind children :: before, after, rfl, by rw [hstart, textLenAll, textLen, Nat.add_assoc]⟩

end Positions

section Outlines

variable {keep : SyntaxKind → Bool} {kind : SyntaxKind} {cs : List Green}

/-- What the kind of a value says about the item. -/
def bodyKind : SyntaxKind → SyntaxKind
  | .structDecl => .structDecl
  | .unionDecl => .unionDecl
  | .enumDecl => .enumDecl
  | .lambdaExpr => .lambdaExpr
  | .effectDecl => .effectDecl
  | .distinctType => .distinctType
  | kind => if isBindRhsNode kind then .literalExpr else kind

def outline (keep : SyntaxKind → Bool) : List Green → List Green
  | [] => []
  | .token tok :: cs => if tokenIsTrivia tok.kind then outline keep cs else .token tok :: outline keep cs
  | .node kind children :: cs => (if keep kind then .node kind (stripAll children) else .node (bodyKind kind) []) ::
        outline keep cs

def keeps (kind child : SyntaxKind) : Bool := kind = .destructureDecl && child = .productExpr

/-- A declaration without trivia and bodies. -/
def heading (n : SyntaxNode) : SyntaxKind × List Green := (n.kind, outline (keeps n.kind) n.children)

theorem bodyKind_cases (kind : SyntaxKind) :
    isBindRhsNode (bodyKind kind) = isBindRhsNode kind ∧ ∀ k, semanticKind (bodyKind kind) k = semanticKind kind k := by
  cases kind <;> exact ⟨rfl, fun _ => rfl⟩

theorem bodyKind_eq_ident (kind : SyntaxKind) : bodyKind kind = .ident ↔ kind = .ident := by
  cases kind <;> decide

theorem stripAll_eq (cs : List Green) : stripAll cs = outline (fun _ => true) cs := by
  induction cs with
  | nil => rfl
  | cons c cs ih =>
      cases c with
      | token tok =>
          rw [stripAll, outline, ih]
          rfl
      | node kind children => rw [stripAll, outline, ih, if_pos rfl, if_neg (by simp [isTrivia]), strip]

theorem firstToken_outline (keep : SyntaxKind → Bool) (cs : List Green) :
    firstToken .ident (outline keep cs) = firstToken .ident cs := by
  induction cs with
  | nil => rfl
  | cons c cs ih =>
      cases c with
      | token tok =>
          rw [outline]
          split
          · rename_i htrivia
            have hne : tok.kind ≠ .ident := fun h => by simp [h, tokenIsTrivia] at htrivia
            rw [firstToken, if_neg hne, ih]
          · rw [firstToken, firstToken, ih]
      | node kind children =>
          rw [outline]
          split
          · rw [firstToken, firstToken, ih]
          · rw [firstToken, firstToken, ih]
            simp only [bodyKind_eq_ident]

theorem bindDefValue_outline (keep : SyntaxKind → Bool) (k : DefKind) (cs : List Green) :
    ((bindDefValue (outline keep cs)).map (semanticKind · k)).getD k = ((bindDefValue cs).map (semanticKind · k)).getD
      k := by
  induction cs with
  | nil => rfl
  | cons c cs ih =>
      cases c with
      | token tok =>
          rw [outline]
          split
          · exact ih
          · exact ih
      | node kind children =>
          rw [outline]
          split
          · rw [bindDefValue, bindDefValue]
            split
            · rfl
            · exact ih
          · rw [bindDefValue, bindDefValue, (bodyKind_cases kind).1]
            split
            · simp only [Option.map_some, Option.getD_some, (bodyKind_cases kind).2]
            · exact ih

theorem bindDefIsConst_outline (keep : SyntaxKind → Bool) (cs : List Green) (colons : Nat) :
    bindDefIsConst colons (outline keep cs) = bindDefIsConst colons cs := by
  induction cs generalizing colons with
  | nil => rfl
  | cons c cs ih =>
      cases c with
      | token tok =>
          rw [outline]
          split
          · rename_i htrivia
            have hne : tok.kind ≠ .colonColon := fun h => by simp [h, tokenIsTrivia] at htrivia
            have hne' : tok.kind ≠ .colon := fun h => by simp [h, tokenIsTrivia] at htrivia
            rw [bindDefIsConst, if_neg hne, if_neg hne', ih]
          · rw [bindDefIsConst, bindDefIsConst, ih, ih]
      | node kind children =>
          rw [outline]
          split <;> rw [bindDefIsConst, bindDefIsConst, ih]

theorem scanModifiers_outline (keep : SyntaxKind → Bool) (cs : List Green) (pastBind : Bool) (flags : UInt8) :
    scanModifiers pastBind flags (outline keep cs) = scanModifiers pastBind flags cs := by
  induction cs generalizing pastBind flags with
  | nil => rfl
  | cons c cs ih =>
      cases c with
      | token tok =>
          rw [outline]
          split
          · rename_i htrivia
            have hop : isBindOp tok.kind = false := by
              cases hkind : tok.kind <;> simp [hkind, tokenIsTrivia] at htrivia <;> rfl
            have hne : tok.kind ≠ .comptimeKw := fun h => by simp [h, tokenIsTrivia] at htrivia
            have hne' : tok.kind ≠ .ident := fun h => by simp [h, tokenIsTrivia] at htrivia
            rw [scanModifiers, if_neg hne, if_neg hne', hop, ih]
            cases pastBind <;> rfl
          · rw [scanModifiers, scanModifiers, ih, ih, ih, ih]
      | node kind children =>
          rw [outline]
          split <;> rw [scanModifiers, scanModifiers, ih]

theorem hasColonColon_outline (keep : SyntaxKind → Bool) (cs : List Green) :
    hasColonColon (outline keep cs) = hasColonColon cs := by
  induction cs with
  | nil => rfl
  | cons c cs ih =>
      cases c with
      | token tok =>
          rw [outline]
          split
          · rename_i htrivia
            have hne : tok.kind ≠ .colonColon := fun h => by simp [h, tokenIsTrivia] at htrivia
            rw [hasColonColon, decide_eq_false hne, Bool.false_or, ih]
          · rw [hasColonColon, hasColonColon, ih]
      | node kind children =>
          rw [outline]
          split <;> rw [hasColonColon, hasColonColon, ih]

theorem targetNames_stripAll (ps : List Green) : targetNames (stripAll ps) = targetNames ps := by
  induction ps with
  | nil => rfl
  | cons c ps ih =>
      rw [stripAll]
      cases c with
      | token tok =>
          split
          · exact ih
          · exact ih
      | node kind children =>
          rw [if_neg (by simp [isTrivia]), strip]
          cases kind with
          | refExpr => rw [targetNames, targetNames, ih, stripAll_eq, firstToken_outline]
          | _ => exact ih

theorem firstProduct_outline (hkeep : keep .productExpr = true) (cs : List Green) :
    firstProduct (outline keep cs) = (firstProduct cs).map stripAll := by
  induction cs with
  | nil => rfl
  | cons c cs ih =>
      cases c with
      | token tok =>
          rw [outline]
          split
          · exact ih
          · exact ih
      | node kind children =>
          rw [outline]
          by_cases hprod : kind = .productExpr
          · subst hprod
            rw [if_pos hkeep]
            rfl
          · have hplain : firstProduct (.node kind children :: cs) = firstProduct cs := by
              cases kind <;> first | rfl | exact absurd rfl hprod
            rw [hplain, ← ih]
            split
            · cases kind <;> first | rfl | exact absurd rfl hprod
            · cases kind <;> rfl

theorem members_outline (kind : SyntaxKind) (cs : List Green) :
    members kind (outline (keeps kind) cs) = members kind cs := by
  rw [members, members]
  split
  · rename_i hkind
    have hkeep : keeps kind .productExpr = true := by simp [keeps, hkind]
    rw [destructureMembers, destructureMembers, hasColonColon_outline, firstProduct_outline hkeep]
    cases firstProduct cs with
    | none => rfl
    | some ps => rw [Option.map_some, Option.getD_some, Option.getD_some, targetNames_stripAll]
  · rw [declClassify.eq_def, declClassify.eq_def]
    split
    · rw [firstToken_outline, bindDefIsConst_outline, scanModifiers_outline]
      simp only [bindDefValue_outline]
    · rfl

theorem members_eq_of_heading {n n' : SyntaxNode} (h : heading n = heading n') :
    members n.kind n.children = members n'.kind n'.children := by
  obtain ⟨hkind, houtline⟩ := Prod.mk.inj h
  rw [← members_outline, houtline, hkind, members_outline]

end Outlines

/-- The hashes tell apart what they are given, a tree up to trivia. -/
structure CollisionFree {φ : Type} (h : ItemHashes φ) : Prop where
  ids : Function.Injective h.astIdCompute
  words : Function.Injective h.u64
  pairs : ∀ {a b a' b'}, h.combine a b = h.combine a' b' → a = a' ∧ b = b'
  word_ne : ∀ x, h.u64 x ≠ h.none
  pair_ne : ∀ a b, h.combine a b ≠ h.none
  trees : ∀ kind cs kind' cs', h.structural (.node kind cs) = h.structural (.node kind' cs') ↔
    strip (.node kind cs) = strip (.node kind' cs')

def isDecl (n : SyntaxNode) : Bool := n.kind = .bindDecl || n.kind = .destructureDecl

def itemDeclarations (ns : Namespace) : List SyntaxNode := ns.files.flatMap fun file =>
    (ns.declarations file).filter isDecl

/-- The names of a namespace with their flags and kinds, in source order. -/
def declared (ns : Namespace) : List Member := (itemDeclarations ns).flatMap fun n => members n.kind n.children

section Membership

variable {φ : Type} {h : ItemHashes φ} {q : Qsort} {ns ns' : Namespace}

def tagged (h : ItemHashes φ) (m : Member) : Nat × Member := (h.astIdCompute m.name, m)

def itemView (item : NamespaceItem) : Nat × Member := (item.id, ⟨item.name, item.defMeta, item.kind⟩)

def viewFp (h : ItemHashes φ) (v : Nat × Member) : φ :=
  h.combine (h.u64 v.1) (h.combine (h.u64 v.2.defMeta.toNat) (h.u64 v.2.kind.toNat))

def foldViews (h : ItemHashes φ) (vs : List (Nat × Member)) :
    φ := vs.foldl (fun fp v => h.combine fp (viewFp h v)) h.none

theorem members_eq_nil {n : SyntaxNode} (hn : isDecl n = false) : members n.kind n.children = [] := by
  obtain ⟨hbind, hdestructure⟩ : n.kind ≠ .bindDecl ∧ n.kind ≠ .destructureDecl := by simpa [isDecl] using hn
  rw [members, if_neg hdestructure, declClassify.eq_def]
  split
  · rename_i hkind
    exact absurd hkind hbind
  · rfl

theorem flatMap_members (ns : List SyntaxNode) :
    (ns.filter isDecl).flatMap (fun n => members n.kind n.children) = ns.flatMap fun n =>
      members n.kind n.children := by
  induction ns with
  | nil => rfl
  | cons n ns ih =>
      rw [List.flatMap_cons, ← ih]
      cases hn : isDecl n with
      | true => rw [List.filter_cons_of_pos hn, List.flatMap_cons]
      | false => rw [List.filter_cons_of_neg (by simp [hn]), members_eq_nil hn, List.nil_append]

theorem found_views (h : ItemHashes φ) (ns : Namespace) : (found h ns).map itemView = (declared ns).map (tagged h) := by
  rw [found, declared, itemDeclarations, List.flatMap_assoc, List.map_flatMap, List.map_flatMap]
  congr 1
  funext file
  rw [flatMap_members, List.map_flatMap, List.map_flatMap]
  congr 1
  funext n
  rw [nodeItems, List.map_map]
  rfl

/-- The fingerprint of the items is about names, flags and kinds only. -/
theorem namespaceItemsFp_eq (q : Qsort) (h : ItemHashes φ) (ns : Namespace) :
    namespaceItemsFp q h ns = foldViews h (q.sort Prod.fst ((declared ns).map (tagged h))) := by
  rw [← found_views, ← Qsort.map_sort, foldViews, List.foldl_map]
  rfl

theorem viewFp_inj (hfree : CollisionFree h) {m m' : Member} (heq : viewFp h (tagged h m) = viewFp h (tagged h m')) :
    m = m' := by
  obtain ⟨hid, hrest⟩ := hfree.pairs heq
  obtain ⟨hmeta, hkind⟩ := hfree.pairs hrest
  obtain ⟨name, defMeta, kind⟩ := m
  obtain ⟨name', defMeta', kind'⟩ := m'
  rw [Member.mk.injEq]
  exact ⟨hfree.ids (hfree.words hid), UInt8.toNat_inj.mp (hfree.words hmeta), DefKind.toNat_inj (hfree.words hkind)⟩

theorem foldViews_append (vs : List (Nat × Member)) (v : Nat × Member) :
    foldViews h (vs ++ [v]) = h.combine (foldViews h vs) (viewFp h v) := by
  rw [foldViews, List.foldl_append]
  rfl

theorem foldViews_inj (hfree : CollisionFree h) {ms ms' : List Member}
    (heq : foldViews h (ms.map (tagged h)) = foldViews h (ms'.map (tagged h))) : ms = ms' := by
  induction ms using List.reverseRecOn generalizing ms' with
  | nil =>
      rcases List.eq_nil_or_concat' ms' with rfl | ⟨init, m, rfl⟩
      · rfl
      · rw [List.map_append, List.map_singleton, foldViews_append] at heq
        exact absurd heq.symm (hfree.pair_ne _ _)
  | append_singleton ms m ih =>
      rw [List.map_append, List.map_singleton, foldViews_append] at heq
      rcases List.eq_nil_or_concat' ms' with rfl | ⟨init, m', rfl⟩
      · exact absurd heq (hfree.pair_ne _ _)
      · rw [List.map_append, List.map_singleton, foldViews_append] at heq
        obtain ⟨hinit, hlast⟩ := hfree.pairs heq
        rw [ih hinit, viewFp_inj hfree hlast]

theorem sorted_views (q : Qsort) (h : ItemHashes φ) (ms : List Member) :
    ∃ sorted : List Member, q.sort Prod.fst (ms.map (tagged h)) = sorted.map (tagged h) ∧ sorted.Perm ms :=
  ⟨q.sort (Prod.fst ∘ tagged h) ms, (Qsort.map_sort q (tagged h) Prod.fst ms).symm, Qsort.sort_perm ..⟩

/-- Equal fingerprints: the same names with the same flags and kinds. -/
theorem declared_perm (hfree : CollisionFree h) (heq : namespaceItemsFp q h ns = namespaceItemsFp q h ns') :
    (declared ns).Perm (declared ns') := by
  obtain ⟨sorted, hsorted, hperm⟩ := sorted_views q h (declared ns)
  obtain ⟨sorted', hsorted', hperm'⟩ := sorted_views q h (declared ns')
  rw [namespaceItemsFp_eq, namespaceItemsFp_eq, hsorted, hsorted'] at heq
  rw [foldViews_inj hfree heq] at hperm
  exact hperm.symm.trans hperm'

theorem namespaceItemsFp_congr (heq : declared ns = declared ns') :
    namespaceItemsFp q h ns = namespaceItemsFp q h ns' := by
  rw [namespaceItemsFp_eq, namespaceItemsFp_eq, heq]

/-- Distinct names may change places. -/
theorem namespaceItemsFp_reorder (hfree : CollisionFree h) (hperm : (declared ns).Perm (declared ns'))
    (hnodup : ((declared ns).map (·.name)).Nodup) : namespaceItemsFp q h ns = namespaceItemsFp q h ns' := by
  have hsorted := Qsort.sort_sorted q Prod.fst ((declared ns).map (tagged h))
  have hsorted' := Qsort.sort_sorted q Prod.fst ((declared ns').map (tagged h))
  have hviews := (Qsort.sort_perm q Prod.fst _).trans ((hperm.map (tagged h)).trans (Qsort.sort_perm q Prod.fst _).symm)
  rw [namespaceItemsFp_eq, namespaceItemsFp_eq]
  congr 1
  refine List.Perm.eq_of_pairwise ?_ hsorted hsorted' hviews
  intro a b ha hb hab hba
  obtain ⟨m, hm, rfl⟩ := List.mem_map.mp ((Qsort.sort_perm q Prod.fst _).mem_iff.mp ha)
  obtain ⟨m', hm', rfl⟩ := List.mem_map.mp ((Qsort.sort_perm q Prod.fst _).mem_iff.mp hb)
  have hname : m.name = m'.name := hfree.ids (Nat.le_antisymm hab hba)
  rw [List.inj_on_of_nodup_map hnodup hm (hperm.mem_iff.mpr hm') hname]

theorem flatMap_members_congr : ∀ {l l' : List SyntaxNode}, l.map heading = l'.map heading →
    (l.flatMap fun n => members n.kind n.children) = l'.flatMap fun n => members n.kind n.children
  | [], [], _ => rfl
  | [], _ :: _, heq => by cases heq
  | _ :: _, [], heq => by cases heq
  | n :: l, n' :: l', heq => by
      obtain ⟨hn, hl⟩ := List.cons.inj heq
      rw [List.flatMap_cons, List.flatMap_cons, members_eq_of_heading hn, flatMap_members_congr hl]

end Membership

section Entries

variable {φ : Type} {h : ItemHashes φ} {q : Qsort} {ns : Namespace} {file : FileId} {root n : SyntaxNode}
    {item : NamespaceItem}
  {name : Bytes}

/-- A node at the top level of a file declares a name. -/
structure Declares (ns : Namespace) (name : Bytes) (file : FileId) (n : SyntaxNode) : Prop where
  listed : file ∈ ns.files
  node : n ∈ ns.declarations file
  name : ∃ m ∈ members n.kind n.children, m.name = name

/-- One declaration only declares the name, and the file has text besides. -/
structure SoleDeclaration (ns : Namespace) (name : Bytes) (n : SyntaxNode) : Prop where
  declares : ∃ file root, ns.root file = some root ∧ textLenAll n.children ≠ textLenAll root.children ∧
    Declares ns name file n ∧
    ∀ file' n', Declares ns name file' n' → file' = file ∧ n' = n

theorem mem_found : item ∈ found h ns ↔ ∃ file ∈ ns.files, ∃ n ∈ ns.declarations file, item ∈ nodeItems h file n := by
  simp only [found, List.mem_flatMap]

theorem declares_of_item (hfile : file ∈ ns.files) (hn : n ∈ ns.declarations file) (hitem : item ∈ nodeItems h file n) :
    Declares ns item.name file n ∧ item.file = file ∧ item.ptr = syntaxNodePtrNew n := by
  obtain ⟨m, hm, rfl⟩ := List.mem_map.mp hitem
  exact ⟨⟨hfile, hn, m, hm, rfl⟩, rfl, rfl⟩

theorem itemNode_eq {m : Member} (hroot : ns.root file = some root) (hn : n ∈ ns.declarations file)
    (hm : m ∈ members n.kind n.children) (hlen : textLenAll n.children ≠ textLenAll root.children)
    (hfile : item.file = file) (hptr : item.ptr = syntaxNodePtrNew n) : itemNode ns item = some n := by
  rw [Namespace.declarations, hroot] at hn
  obtain ⟨before, after, hchildren, hstart⟩ := mem_childNodes (by exact hn)
  rw [itemNode, hfile, hroot, hptr, syntaxNodePtrNew, SyntaxNode.textRange, hstart]
  rw [Option.bind_some, resolve_child hchildren (textLenAll_pos hm) hlen, ← hstart]

theorem topLevelEntry_fp (hsole : SoleDeclaration ns name n) :
    (dbQueryTopLevelEntry q h ns name).2 = if h.structural n.green = 0 then h.none else h.u64
      (h.structural n.green) := by
  obtain ⟨file, root, hroot, hlen, ⟨hfile, hn, m, hm, rfl⟩, hunique⟩ := hsole.declares
  have hperm : (dbQueryNamespaceItems q h ns).Perm (found h ns) := Qsort.sort_perm ..
  have hmem : (⟨h.astIdCompute m.name, m.name, file, syntaxNodePtrNew n, m.defMeta, m.kind⟩ : NamespaceItem) ∈
      dbQueryNamespaceItems q h ns :=
    hperm.mem_iff.mpr (mem_found.mpr ⟨file, hfile, n, hn, List.mem_map.mpr ⟨m, hm, rfl⟩⟩)
  cases hfind : (dbQueryNamespaceItems q h ns).find? (·.name = m.name) with
  | none => exact absurd (List.find?_eq_none.mp hfind _ hmem) (by simp)
  | some item =>
      have hname : item.name = m.name := by simpa using List.find?_some hfind
      obtain ⟨file', hfile', n', hn', hitem⟩ := mem_found.mp (hperm.mem_iff.mp (List.mem_of_find?_eq_some hfind))
      obtain ⟨hdeclares, hitemFile, hptr⟩ := declares_of_item hfile' hn' hitem
      obtain ⟨rfl, rfl⟩ := hunique _ _ (hname ▸ hdeclares)
      rw [dbQueryTopLevelEntry, hfind]
      simp only [itemNode_eq hroot hn hm hlen hitemFile hptr, Option.map_some, Option.getD_some]

end Entries

/-- The fingerprint of a name with one declaration changes with the declaration
and nothing else; that of the items follows names, flags and kinds. -/
theorem item_fingerprints {φ : Type} {h : ItemHashes φ} (hfree : CollisionFree h) (q : Qsort) (ns ns' : Namespace) :
    (∀ name n n', SoleDeclaration ns name n → SoleDeclaration ns' name n' →
      ((dbQueryTopLevelEntry q h ns name).2 = (dbQueryTopLevelEntry q h ns' name).2 ↔ strip n.green = strip n'.green)) ∧
    ((itemDeclarations ns).map heading = (itemDeclarations ns').map heading →
      namespaceItemsFp q h ns = namespaceItemsFp q h ns') ∧
    (declared ns = declared ns' → namespaceItemsFp q h ns = namespaceItemsFp q h ns') ∧
    (namespaceItemsFp q h ns = namespaceItemsFp q h ns' → (declared ns).Perm (declared ns')) := by
  refine ⟨fun name n n' hn hn' => ?_, fun hheadings => namespaceItemsFp_congr (flatMap_members_congr hheadings),
    namespaceItemsFp_congr, declared_perm hfree⟩
  rw [topLevelEntry_fp hn, topLevelEntry_fp hn', SyntaxNode.green, SyntaxNode.green, ← hfree.trees]
  generalize h.structural (.node n.kind n.children) = sh
  generalize h.structural (.node n'.kind n'.children) = sh'
  split
  · rename_i hsh
    split
    · rename_i hsh'
      exact ⟨fun _ => hsh.trans hsh'.symm, fun _ => rfl⟩
    · rename_i hsh'
      exact ⟨fun heq => absurd heq.symm (hfree.word_ne _), fun heq => absurd (heq.symm.trans hsh) hsh'⟩
  · rename_i hsh
    split
    · rename_i hsh'
      exact ⟨fun heq => absurd heq (hfree.word_ne _), fun heq => absurd (heq.trans hsh') hsh⟩
    · exact ⟨fun heq => hfree.words heq, congrArg h.u64⟩

section FreeHashes

inductive Digest
  | none
  | word (n : Nat)
  | pair (a b : Digest)
  deriving DecidableEq

def bytesCode : Bytes → Nat
  | [] => 0
  | b :: bs => 257 * bytesCode bs + b.toNat + 1

theorem bytesCode_inj : ∀ {bs bs' : Bytes}, bytesCode bs = bytesCode bs' → bs = bs'
  | [], [], _ => rfl
  | [], b :: bs, h => by simp [bytesCode] at h
  | b :: bs, [], h => by simp [bytesCode] at h
  | b :: bs, b' :: bs', h => by
      rw [bytesCode, bytesCode] at h
      have hb := b.toNat_lt
      have hb' := b'.toNat_lt
      have hhead : b.toNat = b'.toNat := by omega
      have htail : bytesCode bs = bytesCode bs' := by omega
      rw [UInt8.toNat_inj.mp hhead, bytesCode_inj htail]

mutual

def treeCode : Green → Nat
  | .token tok => Nat.pair 0 (Nat.pair tok.kind.ctorIdx (bytesCode tok.text))
  | .node kind cs => Nat.pair 1 (Nat.pair kind.ctorIdx (treeCodes cs))

def treeCodes : List Green → Nat
  | [] => 0
  | c :: cs => Nat.pair (treeCode c) (treeCodes cs) + 1

end

theorem ctorIdx_inj {k k' : SyntaxKind} (h : k.ctorIdx = k'.ctorIdx) : k = k' := by
  rw [← SyntaxKind.ofNat_ctorIdx k, h, SyntaxKind.ofNat_ctorIdx]

mutual

theorem treeCode_inj : {t u : Green} → treeCode t = treeCode u → t = u
  | .token tok, .token tok' => fun h => by
      rw [treeCode, treeCode] at h
      obtain ⟨hkind, htext⟩ := Nat.pair_eq_pair.mp (Nat.pair_eq_pair.mp h).2
      obtain ⟨kind, text⟩ := tok
      obtain ⟨kind', text'⟩ := tok'
      have hk : kind = kind' := ctorIdx_inj hkind
      have ht : text = text' := bytesCode_inj htext
      rw [hk, ht]
  | .token _, .node _ _ => fun h => by
      rw [treeCode, treeCode] at h
      exact absurd (Nat.pair_eq_pair.mp h).1 (by decide)
  | .node _ _, .token _ => fun h => by
      rw [treeCode, treeCode] at h
      exact absurd (Nat.pair_eq_pair.mp h).1 (by decide)
  | .node kind cs, .node kind' cs' => fun h => by
      rw [treeCode, treeCode] at h
      obtain ⟨hkind, hcs⟩ := Nat.pair_eq_pair.mp (Nat.pair_eq_pair.mp h).2
      rw [ctorIdx_inj hkind, treeCodes_inj hcs]

theorem treeCodes_inj : {ts us : List Green} → treeCodes ts = treeCodes us → ts = us
  | [], [] => fun _ => rfl
  | [], _ :: _ => fun h => by simp [treeCodes] at h
  | _ :: _, [] => fun h => by simp [treeCodes] at h
  | t :: ts, u :: us => fun h => by
      rw [treeCodes, treeCodes] at h
      obtain ⟨ht, hts⟩ := Nat.pair_eq_pair.mp (Nat.succ.inj h)
      rw [treeCode_inj ht, treeCodes_inj hts]

end

def freeHashes : ItemHashes Digest where
  astIdCompute := bytesCode
  none := .none
  u64 := .word
  combine := .pair
  structural t := treeCode (strip t)

theorem freeHashes_collisionFree : CollisionFree freeHashes where
  ids _ _ h := bytesCode_inj h
  words _ _ h := Digest.word.inj h
  pairs h := Digest.pair.inj h
  word_ne _ := by simp [freeHashes]
  pair_ne _ _ := by simp [freeHashes]
  trees _ _ _ _ := ⟨treeCode_inj, congrArg treeCode⟩

def insertionPlaces (keys : List Nat) : List Nat := (List.range keys.length).insertionSort fun i j =>
    keys.getD i 0 ≤ keys.getD j 0

def stableSort : Qsort where
  places := insertionPlaces
  perm keys := List.perm_insertionSort _ _
  sorted keys := by
    rw [List.pairwise_map]
    have : Std.Total fun i j : Nat => keys.getD i 0 ≤ keys.getD j 0 := ⟨fun i j => Nat.le_total _ _⟩
    have : IsTrans Nat fun i j : Nat => keys.getD i 0 ≤ keys.getD j 0 := ⟨fun i j k => Nat.le_trans⟩
    exact List.pairwise_insertionSort (fun i j : Nat => keys.getD i 0 ≤ keys.getD j 0) _

def tokenOf (kind : SyntaxKind) (text : String) : Green := .token ⟨kind, word text⟩

def linesOf (declarations : List Green) : Green :=
  .node .sourceFile (declarations.flatMap fun d => [d, tokenOf .virtualSemi "", tokenOf .newline "\n"])

def oneFile (root : Green) : Namespace := ⟨[⟨1, false⟩], fun _ => some root⟩

/-- `name :: value`. -/
def bindLit (name value : String) : Green :=
  .node .bindDecl [tokenOf .ident name, tokenOf .whitespace " ", tokenOf .colonColon "::", tokenOf .whitespace " ",
    .node .literalExpr [tokenOf .intLit value]]

/-- `a, b :: f`. -/
def bindPair (a b f : String) : Green :=
  .node .destructureDecl
    [.node .productExpr [.node .refExpr [tokenOf .ident a], tokenOf .comma ",", tokenOf .whitespace " ",
      .node .refExpr [tokenOf .ident b, tokenOf .whitespace " "]],
    tokenOf .colonColon "::", tokenOf .whitespace " ", .node .refExpr [tokenOf .ident f]]

/-- A declaration in a file with another one, and behind it in a longer file. -/
theorem item_fingerprints_moved :
    (dbQueryTopLevelEntry stableSort freeHashes (oneFile (linesOf [bindLit "x" "1", bindLit "y" "2"])) (word "x")).2 =
      (dbQueryTopLevelEntry stableSort freeHashes
        (oneFile (linesOf [bindLit "z" "3", bindLit "y" "4", bindLit "x" "1"])) (word "x")).2 := by
  have hsole (root : SyntaxNode) (t : Green) (n : SyntaxNode) (hroot : (oneFile t).root ⟨1, false⟩ = some root)
      (hlen : textLenAll n.children ≠ textLenAll root.children)
      (hn : ((oneFile t).declarations ⟨1, false⟩).filter
        (fun n => word "x" ∈ (members n.kind n.children).map (·.name)) = [n]) :
      SoleDeclaration (oneFile t) (word "x") n := by
    have hmem (n' : SyntaxNode) : (n' ∈ (oneFile t).declarations ⟨1, false⟩ ∧
      ∃ m ∈ members n'.kind n'.children, m.name = word "x") ↔ n' = n := by
      rw [← List.mem_singleton, ← hn, List.mem_filter, decide_eq_true_iff, List.mem_map]
    refine ⟨⟨1, false⟩, root, hroot, hlen, ?_, ?_⟩
    · obtain ⟨hdecl, hname⟩ := (hmem n).mpr rfl
      exact ⟨List.mem_singleton_self _, hdecl, hname⟩
    · rintro file' n' ⟨hlisted, hnode, hname⟩
      obtain rfl := List.mem_singleton.mp hlisted
      exact ⟨rfl, (hmem n').mp ⟨hnode, hname⟩⟩
  have hleft := hsole ⟨.sourceFile, _, 0⟩ (linesOf [bindLit "x" "1", bindLit "y" "2"]) ⟨.bindDecl, _, 0⟩ rfl
    (by decide) rfl
  have hright := hsole ⟨.sourceFile, _, 0⟩ (linesOf [bindLit "z" "3", bindLit "y" "4", bindLit "x" "1"])
    ⟨.bindDecl, _, 14⟩ rfl
    (by decide) rfl
  exact ((item_fingerprints freeHashes_collisionFree stableSort _ _).1 _ _ _ hleft hright).mpr rfl

/-- An earlier declaration of the name is noticed, and another name in the same
declaration; a change of the only declaration of a file is not. -/
theorem item_fingerprints_differ :
    CollisionFree freeHashes ∧ strip (bindLit "x" "1") ≠ strip (bindLit "x" "2") ∧
    (dbQueryTopLevelEntry stableSort freeHashes (oneFile (linesOf [bindLit "x" "1"])) (word "x")).2 ≠
      (dbQueryTopLevelEntry stableSort freeHashes (oneFile (linesOf [bindLit "x" "2", bindLit "x" "1"])) (word "x")).2 ∧
    (dbQueryTopLevelEntry stableSort freeHashes (oneFile (linesOf [bindPair "a" "b" "f"])) (word "a")).2 ≠
      (dbQueryTopLevelEntry stableSort freeHashes (oneFile (linesOf [bindPair "a" "c" "f"])) (word "a")).2 ∧
    (dbQueryTopLevelEntry stableSort freeHashes
        (oneFile (.node .sourceFile [bindLit "x" "1", tokenOf .virtualSemi ""])) (word "x")).2 =
      (dbQueryTopLevelEntry stableSort freeHashes
        (oneFile (.node .sourceFile [bindLit "x" "2", tokenOf .virtualSemi ""])) (word "x")).2 :=
  ⟨freeHashes_collisionFree, fun h => absurd (congrArg treeCode h) (by decide +kernel), by decide +kernel,
    by decide +kernel,
    by decide +kernel⟩

end FreeHashes

end Ore.NamespaceFingerprints
