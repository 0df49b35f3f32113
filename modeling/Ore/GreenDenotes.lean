import Mathlib.Logic.Relation
import Ore.GreenCacheSteps

namespace Ore.GreenDenotes

open SyntaxKinds GreenTree GreenCache GreenCacheTable GreenCacheSteps RefCounts

variable {η : Type} {H : Hashing η} {obj obj' obj'' : ElemRef → Option (GreenObj η)} {r r' : ElemRef}

mutual

/-- The object at a reference unfolds to a tree. -/
def Denotes (obj : ElemRef → Option (GreenObj η)) (r : ElemRef) : Green → Prop
  | .token tok => ∃ hash, obj r = some (.token tok hash)
  | .node kind ts => ∃ textLen hash cs, obj r = some (.node kind textLen hash cs) ∧ DenotesAll obj (cs.map (·.ref)) ts

def DenotesAll (obj : ElemRef → Option (GreenObj η)) : List ElemRef → List Green → Prop
  | rs, [] => rs = []
  | rs, t :: ts => ∃ r rest, rs = r :: rest ∧ Denotes obj r t ∧ DenotesAll obj rest ts

end

mutual

/-- No node exceeds the limit of the cache. -/
def Small : Green → Prop
  | .token _ => True
  | .node _ cs => cs.length ≤ dedupMaxChildren ∧ SmallAll cs

def SmallAll : List Green → Prop
  | [] => True
  | t :: ts => Small t ∧ SmallAll ts

end

def Child (obj : ElemRef → Option (GreenObj η)) (p c : ElemRef) : Prop := ∃ o, obj p = some o ∧ c ∈ o.refs

/-- An object and all that it reaches stay as they are. -/
def Kept (obj obj' : ElemRef → Option (GreenObj η)) (r : ElemRef) : Prop :=
  ∀ p, Relation.ReflTransGen (Child obj) r p → obj' p = obj p

namespace Kept

theorem of_closed {S : ElemRef → Prop} (hclosed : ∀ p, S p → ∀ c, Child obj p c → S c)
    (hsame : ∀ p, S p → obj' p = obj p)
    (hr : S r) : Kept obj obj' r := by
  intro p hp
  refine hsame p ?_
  induction hp with
  | refl => exact hr
  | tail _ hc ih => exact hclosed _ ih _ hc

theorem child (h : Kept obj obj' r) {c : ElemRef} (hc : Child obj r c) : Kept obj obj' c :=
  fun p hp => h p (.head hc hp)

theorem reaches (h : Kept obj obj' r) {p : ElemRef} (hp : Relation.ReflTransGen (Child obj) r p) :
    Relation.ReflTransGen (Child obj') r p := by
  induction hp with
  | refl => exact .refl
  | tail hp hc ih =>
      obtain ⟨o, ho, hmem⟩ := hc
      exact ih.tail ⟨o, (h _ hp).trans ho, hmem⟩

theorem trans (h : Kept obj obj' r) (h' : Kept obj' obj'' r) : Kept obj obj'' r :=
  fun p hp => (h' p (h.reaches hp)).trans (h p hp)

end Kept

mutual

/-- An object unfolds to one tree only. -/
theorem denotes_unique : ∀ {t t' : Green} {r : ElemRef}, Denotes obj r t → Denotes obj r t' → t = t'
  | .token tok, .token tok', r => by
      rintro ⟨hash, ho⟩ ⟨hash', ho'⟩
      rw [ho] at ho'
      simp only [Option.some.injEq, GreenObj.token.injEq] at ho'
      rw [ho'.1]
  | .token tok, .node kind ts, r => by
      rintro ⟨hash, ho⟩ ⟨_, _, _, ho', -⟩
      rw [ho] at ho'
      simp at ho'
  | .node kind ts, .token tok, r => by
      rintro ⟨_, _, _, ho, -⟩ ⟨hash', ho'⟩
      rw [ho] at ho'
      simp at ho'
  | .node kind ts, .node kind' ts', r => by
      rintro ⟨_, _, _, ho, hcs⟩ ⟨_, _, _, ho', hcs'⟩
      rw [ho] at ho'
      simp only [Option.some.injEq, GreenObj.node.injEq] at ho'
      obtain ⟨rfl, -, -, rfl⟩ := ho'
      rw [denotesAll_unique hcs hcs']

theorem denotesAll_unique : ∀ {ts ts' : List Green} {rs : List ElemRef}, DenotesAll obj rs ts →
    DenotesAll obj rs ts' → ts = ts'
  | [], [], rs => fun _ _ => rfl
  | [], t' :: ts', rs => by
      rintro rfl ⟨_, _, hrs, -⟩
      simp at hrs
  | t :: ts, [], rs => by
      rintro ⟨_, _, hrs, -⟩ rfl
      simp at hrs
  | t :: ts, t' :: ts', rs => by
      rintro ⟨r, rest, rfl, h, hrest⟩ ⟨r', rest', hrs, h', hrest'⟩
      obtain ⟨rfl, rfl⟩ := List.cons.inj hrs
      rw [denotes_unique h h', denotesAll_unique hrest hrest']

end

mutual

theorem Denotes.kept : ∀ {t : Green} {r : ElemRef}, Denotes obj r t → Kept obj obj' r → Denotes obj' r t
  | .token tok, r => by
      rintro ⟨hash, ho⟩ hkept
      exact ⟨hash, (hkept r .refl).trans ho⟩
  | .node kind ts, r => by
      rintro ⟨textLen, hash, cs, ho, hcs⟩ hkept
      refine ⟨textLen, hash, cs, (hkept r .refl).trans ho, DenotesAll.kept hcs fun c hc => ?_⟩
      exact hkept.child ⟨_, ho, hc⟩

theorem DenotesAll.kept : ∀ {ts : List Green} {rs : List ElemRef}, DenotesAll obj rs ts → (∀ r ∈ rs, Kept obj obj' r) →
    DenotesAll obj' rs ts
  | [], rs => fun h _ => h
  | t :: ts, rs => by
      rintro ⟨r, rest, rfl, h, hrest⟩ hkept
      exact ⟨r, rest, rfl, h.kept (hkept r (List.mem_cons_self ..)), DenotesAll.kept hrest fun c hc =>
        hkept c (List.mem_cons_of_mem _ hc)⟩

end

theorem DenotesAll.length_eq {ts : List Green} : ∀ {rs : List ElemRef}, DenotesAll obj rs ts →
    rs.length = ts.length := by
  induction ts with
  | nil =>
      rintro rs rfl
      rfl
  | cons t ts ih =>
      rintro _ ⟨r, rest, rfl, -, hrest⟩
      rw [List.length_cons, List.length_cons, ih hrest]

mutual

/-- Trees within the limit are unfolded from one object. -/
theorem denotes_canonical {c : NodeCache η} (htabled : Tabled H obj c) :
    ∀ {t : Green} {r r' : ElemRef}, Small t → Denotes obj r t → Denotes obj r' t → r = r'
  | .token tok, r, r' => by
      rintro - ⟨hash, ho⟩ ⟨hash', ho'⟩
      cases r with
      | node a => 
          obtain ⟨_, _, _, heq⟩ := htabled.nodes a _ ho
          simp at heq
      | token a =>
          cases r' with
          | node b =>
              obtain ⟨_, _, _, heq⟩ := htabled.nodes b _ ho'
              simp at heq
          | token b => rw [htabled.sameToken a b tok hash hash' ho ho']
  | .node kind ts, r, r' => by
      rintro ⟨hfew, hsmall⟩ ⟨textLen, hash, cs, ho, hcs⟩ ⟨textLen', hash', cs', ho', hcs'⟩
      have hrefs := denotesAll_canonical htabled hsmall hcs hcs'
      have hlength := hcs.length_eq
      rw [List.length_map] at hlength
      cases r with
      | token a =>
          obtain ⟨_, heq⟩ := htabled.tokens a _ ho
          simp at heq
      | node a =>
          cases r' with
          | token b =>
              obtain ⟨_, heq⟩ := htabled.tokens b _ ho'
              simp at heq
          | node b => rw [htabled.sameNode a b kind _ _ _ _ _ _ ho ho' hrefs (hlength.trans_le hfew)]

theorem denotesAll_canonical {c : NodeCache η} (htabled : Tabled H obj c) :
    ∀ {ts : List Green} {rs rs' : List ElemRef}, SmallAll ts → DenotesAll obj rs ts → DenotesAll obj rs' ts → rs = rs'
  | [], rs, rs' => by
      rintro - rfl rfl
      rfl
  | t :: ts, rs, rs' => by
      rintro ⟨hsmall, hrest⟩ ⟨r, rest, rfl, h, hall⟩ ⟨r', rest', rfl, h', hall'⟩
      rw [denotes_canonical htabled hsmall h h', denotesAll_canonical htabled hrest hall hall']

end

end Ore.GreenDenotes
