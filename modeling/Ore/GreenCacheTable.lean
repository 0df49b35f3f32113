import Ore.GreenCache

namespace Ore.GreenCacheTable

open SyntaxKinds GreenTree GreenCache
open WorkspaceModel (Bytes)

variable {η : Type} {H : Hashing η}

/-- What is stored where, and what the buckets hold: every token and every
node with few children, each kind and content once. -/
structure Tabled (H : Hashing η) (obj : ElemRef → Option (GreenObj η)) (c : NodeCache η) : Prop where
  tokens : ∀ a o, obj (.token a) = some o → ∃ tok, o = .token tok (H.token tok.kind tok.text)
  nodes : ∀ a o, obj (.node a) = some o → ∃ kind textLen cs, o = .node kind textLen (H.node kind (cs.map (·.ref))) cs
  tokenBucket : ∀ a hash, a ∈ c.tokens hash ↔ ∃ tok, obj (.token a) = some (.token tok hash)
  nodeBucket : ∀ a hash, a ∈ c.nodes hash ↔
    ∃ kind textLen cs, obj (.node a) = some (.node kind textLen hash cs) ∧ cs.length ≤ dedupMaxChildren
  sameToken : ∀ a b tok hash hash', obj (.token a) = some (.token tok hash) →
    obj (.token b) = some (.token tok hash') → a = b
  sameNode : ∀ a b kind textLen textLen' hash hash' cs cs', obj (.node a) = some (.node kind textLen hash cs) →
    obj (.node b) = some (.node kind textLen' hash' cs') → cs.map (·.ref) = cs'.map (·.ref) →
      cs.length ≤ dedupMaxChildren → a = b

variable {obj obj' : ElemRef → Option (GreenObj η)} {c : NodeCache η} {a : Nat} {kind : SyntaxKind} {text : Bytes}

theorem tabled_start : Tabled H (fun _ => none) nodeCacheNew where
  tokens := by simp
  nodes := by simp
  tokenBucket := by simp [nodeCacheNew]
  nodeBucket := by simp [nodeCacheNew]
  sameToken := by simp
  sameNode := by simp

namespace Tabled

theorem free (h : Tabled H obj c)
    (hfree : ∀ r, obj' r = obj r ∨ obj' r = none ∧ ∀ o, obj r = some o → dedupMaxChildren < o.refs.length) :
      Tabled H obj' c := by
  have hback {r : ElemRef} {o : GreenObj η} (ho : obj' r = some o) : obj r = some o := by
    rcases hfree r with heq | ⟨hnone, -⟩
    · rwa [heq] at ho
    · rw [hnone] at ho
      simp at ho
  have hforth {r : ElemRef} {o : GreenObj η} (ho : obj r = some o) (hsmall : o.refs.length ≤ dedupMaxChildren) :
    obj' r = some o := by
    rcases hfree r with heq | ⟨-, hlarge⟩
    · rw [heq, ho]
    · exact absurd (hlarge o ho) (Nat.not_lt.mpr hsmall)
  refine ⟨fun a o ho => h.tokens a o (hback ho), fun a o ho => h.nodes a o (hback ho), fun a hash => ?_, fun a hash =>
    ?_,
    fun a b tok hash hash' ha hb => h.sameToken a b tok hash hash' (hback ha) (hback hb),
    fun a b kind textLen textLen' hash hash' cs cs' ha hb =>
      h.sameNode a b kind textLen textLen' hash hash' cs cs' (hback ha) (hback hb)⟩
  · rw [h.tokenBucket]
    exact exists_congr fun tok => ⟨fun ho => hforth ho (Nat.zero_le _), hback⟩
  · rw [h.nodeBucket]
    refine exists_congr fun kind => exists_congr fun textLen => exists_congr fun cs => and_congr_left fun hsmall => ?_
    exact ⟨fun ho => hforth ho (by simpa [GreenObj.refs] using hsmall), hback⟩

theorem find_token (h : Tabled H obj c) (s : GreenStore η) (hs : s.obj = obj) (kind : SyntaxKind) (text : Bytes) :
    (∃ a hash, (c.tokens (H.token kind text)).find? (greenTokenEquals s kind text) = some a ∧
      obj (.token a) = some (.token ⟨kind, text⟩ hash)) ∨
      ((c.tokens (H.token kind text)).find? (greenTokenEquals s kind text) = none ∧
        ∀ a hash, obj (.token a) ≠ some (.token ⟨kind, text⟩ hash)) := by
  subst hs
  cases hfind : (c.tokens (H.token kind text)).find? (greenTokenEquals s kind text) with
  | some a =>
      have hequals := List.find?_some hfind
      obtain ⟨tok, ho⟩ := (h.tokenBucket a _).mp (List.mem_of_find?_eq_some hfind)
      simp only [greenTokenEquals, ho, Bool.and_eq_true, decide_eq_true_eq] at hequals
      obtain ⟨hkind, htext⟩ := hequals
      refine .inl ⟨a, H.token kind text, rfl, ?_⟩
      rw [ho, ← hkind, ← htext]
  | none =>
      refine .inr ⟨rfl, fun a hash ho => ?_⟩
      obtain ⟨tok, heq⟩ := h.tokens a _ ho
      simp only [GreenObj.token.injEq] at heq
      obtain ⟨rfl, rfl⟩ := heq
      have hmem := (h.tokenBucket a _).mpr ⟨_, ho⟩
      have hno := List.find?_eq_none.mp hfind a hmem
      simp [greenTokenEquals, ho] at hno

theorem find_node (h : Tabled H obj c) (s : GreenStore η) (hs : s.obj = obj) (kind : SyntaxKind)
    (children : List ElemRef)
    (hsmall : children.length ≤ dedupMaxChildren) :
    (∃ a textLen hash cs, (c.nodes (H.node kind children)).find? (greenNodeEquals s kind children) = some a ∧
      obj (.node a) = some (.node kind textLen hash cs) ∧ cs.map (·.ref) = children) ∨
      ((c.nodes (H.node kind children)).find? (greenNodeEquals s kind children) = none ∧
        ∀ a textLen hash cs, obj (.node a) = some (.node kind textLen hash cs) → cs.map (·.ref) ≠ children) := by
  subst hs
  cases hfind : (c.nodes (H.node kind children)).find? (greenNodeEquals s kind children) with
  | some a =>
      have hequals := List.find?_some hfind
      obtain ⟨k, textLen, cs, ho, -⟩ := (h.nodeBucket a _).mp (List.mem_of_find?_eq_some hfind)
      simp only [greenNodeEquals, ho, Bool.and_eq_true, decide_eq_true_eq] at hequals
      obtain ⟨rfl, hrefs⟩ := hequals
      exact .inl ⟨a, textLen, _, cs, rfl, ho, hrefs⟩
  | none =>
      refine .inr ⟨rfl, fun a textLen hash cs ho hrefs => ?_⟩
      obtain ⟨k, len, cs', heq⟩ := h.nodes a _ ho
      simp only [GreenObj.node.injEq] at heq
      obtain ⟨rfl, rfl, rfl, rfl⟩ := heq
      have hlength : cs.length ≤ dedupMaxChildren := by rwa [← hrefs, List.length_map] at hsmall
      have hmem := (h.nodeBucket a _).mpr ⟨_, _, _, ho, hlength⟩
      rw [hrefs] at hmem
      have hno := List.find?_eq_none.mp hfind a hmem
      simp [greenNodeEquals, ho, hrefs] at hno

variable [DecidableEq η]

theorem addToken (h : Tabled H obj c) (hfree : obj (.token a) = none)
    (hnew : ∀ a hash, obj (.token a) ≠ some (.token ⟨kind, text⟩ hash)) :
    Tabled H (Function.update obj (.token a) (some (.token ⟨kind, text⟩ (H.token kind text))))
      { c with tokens := Function.update c.tokens (H.token kind text) (a :: c.tokens (H.token kind text)) } := by
  have hself : Function.update obj (.token a) (some (.token ⟨kind, text⟩ (H.token kind text))) (.token a) =
      some (.token ⟨kind, text⟩ (H.token kind text)) := Function.update_self ..
  have htoken {b : Nat} (hb : b ≠ a) : Function.update obj (.token a) (some (.token ⟨kind, text⟩ (H.token kind text)))
    (.token b) =
      obj (.token b) := Function.update_of_ne (by simpa using hb) _ _
  have hnode (b : Nat) : Function.update obj (.token a) (some (.token ⟨kind, text⟩ (H.token kind text))) (.node b) =
    obj (.node b) :=
    Function.update_of_ne (by simp) _ _
  have hcases {b : Nat} {tok : GreenToken} {hash : η}
      (ho : Function.update obj (.token a) (some (.token ⟨kind, text⟩ (H.token kind text))) (.token b) = some
        (.token tok hash)) :
      b = a ∧ tok = ⟨kind, text⟩ ∨ b ≠ a ∧ tok ≠ ⟨kind, text⟩ ∧ obj (.token b) = some (.token tok hash) := by
    by_cases hb : b = a
    · subst hb
      rw [hself, Option.some.injEq, GreenObj.token.injEq] at ho
      exact .inl ⟨rfl, ho.1.symm⟩
    · rw [htoken hb] at ho
      refine .inr ⟨hb, ?_, ho⟩
      rintro rfl
      exact hnew b hash ho
  refine ⟨fun b o ho => ?_, fun b o ho => h.nodes b o (hnode b ▸ ho), fun b hash => ?_, fun b hash => ?_,
    fun b b' tok hash hash' hb hb' => ?_, fun b b' k l l' hash hash' cs cs' hb hb' => ?_⟩
  · by_cases hb : b = a
    · subst hb
      rw [hself, Option.some.injEq] at ho
      exact ⟨⟨kind, text⟩, ho.symm⟩
    · exact h.tokens b o (htoken hb ▸ ho)
  · have hmem : b ∈ Function.update c.tokens (H.token kind text) (a :: c.tokens (H.token kind text)) hash ↔
        b = a ∧ hash = H.token kind text ∨ b ∈ c.tokens hash := by
      by_cases hhash : hash = H.token kind text
      · subst hhash
        simp
      · simp [hhash]
    rw [hmem, h.tokenBucket]
    by_cases hb : b = a
    · subst hb
      simp [hfree, eq_comm]
    · simp [hb]
  · rw [h.nodeBucket, hnode]
  · rcases hcases hb with ⟨rfl, htok⟩ | ⟨-, htok, ho⟩ <;> rcases hcases hb' with ⟨rfl, htok'⟩ | ⟨-, htok', ho'⟩
    · rfl
    · exact absurd htok htok'
    · exact absurd htok' htok
    · exact h.sameToken b b' tok hash hash' ho ho'
  · exact h.sameNode b b' k l l' hash hash' cs cs' (hnode b ▸ hb) (hnode b' ▸ hb')

omit [DecidableEq η] in
theorem addNode (h : Tabled H obj c) (hfree : obj (.node a) = none) (kind : SyntaxKind) (textLen : Nat)
    (cs : List GreenElement)
    (nodes : η → List Nat)
    (hnew : cs.length ≤ dedupMaxChildren → ∀ a textLen hash cs', obj (.node a) = some (.node kind textLen hash cs') →
      cs'.map (·.ref) ≠ cs.map (·.ref))
    (hnodes : ∀ b hash, b ∈ nodes hash ↔
      b = a ∧ hash = H.node kind (cs.map (·.ref)) ∧ cs.length ≤ dedupMaxChildren ∨ b ∈ c.nodes hash) :
    Tabled H (Function.update obj (.node a) (some (.node kind textLen (H.node kind (cs.map (·.ref))) cs)))
      { c with nodes := nodes } := by
  have hself : Function.update obj (.node a) (some (.node kind textLen (H.node kind (cs.map (·.ref))) cs)) (.node a) =
      some (.node kind textLen (H.node kind (cs.map (·.ref))) cs) := Function.update_self ..
  have hnode {b : Nat} (hb : b ≠ a) :
      Function.update obj (.node a) (some (.node kind textLen (H.node kind (cs.map (·.ref))) cs)) (.node b) = obj
        (.node b) :=
    Function.update_of_ne (by simpa using hb) _ _
  have htoken (b : Nat) :
      Function.update obj (.node a) (some (.node kind textLen (H.node kind (cs.map (·.ref))) cs)) (.token b) = obj
        (.token b) :=
    Function.update_of_ne (by simp) _ _
  refine ⟨fun b o ho => h.tokens b o (htoken b ▸ ho), fun b o ho => ?_, fun b hash => ?_, fun b hash => ?_,
    fun b b' tok hash hash' hb hb' => h.sameToken b b' tok hash hash' (htoken b ▸ hb) (htoken b' ▸ hb'),
    fun b b' k l l' hash hash' ds ds' hb hb' hrefs hsmall => ?_⟩
  · by_cases hb : b = a
    · subst hb
      rw [hself, Option.some.injEq] at ho
      exact ⟨kind, textLen, cs, ho.symm⟩
    · exact h.nodes b o (hnode hb ▸ ho)
  · rw [h.tokenBucket, htoken]
  · rw [hnodes, h.nodeBucket]
    by_cases hb : b = a
    · subst hb
      simp only [hself, hfree, Option.some.injEq, GreenObj.node.injEq, true_and, reduceCtorEq, false_and,
        exists_false, or_false]
      constructor
      · rintro ⟨rfl, hsmall⟩
        exact ⟨kind, textLen, cs, ⟨rfl, rfl, rfl, rfl⟩, hsmall⟩
      · rintro ⟨k, l, ds, ⟨rfl, rfl, rfl, rfl⟩, hsmall⟩
        exact ⟨rfl, hsmall⟩
    · simp [hb]
  · have hlength : ds.length = ds'.length := by simpa using congrArg List.length hrefs
    by_cases hba : b = a <;> by_cases hba' : b' = a
    · rw [hba, hba']
    · subst hba
      rw [hself, Option.some.injEq, GreenObj.node.injEq] at hb
      rw [hnode hba'] at hb'
      obtain ⟨rfl, rfl, rfl, rfl⟩ := hb
      exact absurd hrefs.symm (hnew hsmall b' l' hash' ds' hb')
    · subst hba'
      rw [hself, Option.some.injEq, GreenObj.node.injEq] at hb'
      rw [hnode hba] at hb
      obtain ⟨rfl, rfl, rfl, rfl⟩ := hb'
      exact absurd hrefs (hnew (hlength ▸ hsmall) b l hash ds hb)
    · exact h.sameNode b b' k l l' hash hash' ds ds' (hnode hba ▸ hb) (hnode hba' ▸ hb') hrefs hsmall

end Tabled

end Ore.GreenCacheTable
