import Ore.DemandTables

namespace Ore.InstanceDemands

open DemandTables

variable {Def Other Ty Ans Diag : Type*}

/-- The body queries: instances, keyed by the callee and its concrete arguments, and
the others that typing a body may demand. -/
inductive Query (Def Other Ty : Type*)
  | inferInstance (callee : Def) (args : List Ty)
  | other (q : Other)
  deriving DecidableEq

/-- A stored result with the diagnostics of its own bundle. -/
inductive Stored (Ty Ans Diag : Type*)
  | inferInstance (retType : Ty) (diags : List Diag)
  | other (answer : Ans) (diags : List Diag)
  deriving DecidableEq

/-- An argument of a call: the declared type of its parameter, unless that is a hole,
and the resolved type of the argument. -/
structure Arg (Ty : Type*) where
  declared : Option Ty
  resolved : Ty

/-- The typing of a body: it emits diagnostics, calls generic functions and reads
other queries. A call has its diagnostic for the depth limit and the generic
return type with the holes filled as far as they are. -/
inductive Typing (Def Other Ty Ans Diag R : Type*)
  | done (r : R)
  | emit (d : Diag) (rest : Typing Def Other Ty Ans Diag R)
  | call (tooDeep : Diag) (callee : Def) (args : List (Arg Ty)) (ret : Ty) (rest : Ty → Typing Def Other Ty Ans Diag R)
  | read (q : Other) (rest : Ans → Typing Def Other Ty Ans Diag R)

/-- A program as the checker sees it. `lambda` types the body of an instance, unless
no lambda is found for the callee, and `onCycle` is what the other queries answer
while they are active. -/
structure Checker (Def Other Ty Ans Diag : Type*) where
  none : Ty
  error : Ty
  isError : Ty → Bool
  isConcrete : Ty → Bool
  isFunction : Def → Bool
  lambda : Def → List Ty → Option (Typing Def Other Ty Ans Diag Ty)
  instantiating : Def → List Ty → Diag
  query : Other → Typing Def Other Ty Ans Diag Ans
  onCycle : Other → Ans

def oreMonoDepthLimit : Nat := 64

section Program

variable [DecidableEq Ty] (c : Checker Def Other Ty Ans Diag)

/-- The concrete type of an argument in the key of an instance. -/
def keyArg (arg : Arg Ty) : Option Ty :=
  match arg.declared with
  | some declared => some declared
  | .none =>
    if arg.resolved = c.none ∨ c.isError arg.resolved ∨ ¬ c.isConcrete arg.resolved then .none else some arg.resolved

/-- The type of a call from what its instance answered: an unavailable instance
leaves the generic return type. -/
def callResult (ret : Ty) : Option (Stored Ty Ans Diag) → Ty
  | some (.inferInstance retType _) => if retType = c.none then ret else retType
  | _ => ret

def readResult (q : Other) : Option (Stored Ty Ans Diag) → Ans
  | some (.other answer _) => answer
  | _ => c.onCycle q

def typeBody {R : Type*} (finish : R → List Diag → Stored Ty Ans Diag) :
    Typing Def Other Ty Ans Diag R → List Diag → Task (Query Def Other Ty) (Stored Ty Ans Diag)
  | .done r, diags => .done (finish r diags)
  | .emit d rest, diags => typeBody finish rest (diags ++ [d])
  | .call tooDeep callee args ret rest, diags => .deep fun atLimit =>
      if atLimit then typeBody finish (rest c.error) (diags ++ [tooDeep])
      else match args.mapM (keyArg c) with
        | .none => typeBody finish (rest ret) diags
        | some key =>
          if c.isFunction callee then
            .ask (.inferInstance callee key) fun answer => typeBody finish (rest (callResult c ret answer)) diags
          else typeBody finish (rest ret) diags
  | .read q rest, diags => .ask (.other q) fun answer => typeBody finish (rest (readResult c q answer)) diags

def inferInstance (callee : Def) (args : List Ty) : Task (Query Def Other Ty) (Stored Ty Ans Diag) :=
  match c.lambda callee args with
  | .none => .done (.inferInstance c.none [])
  | some body =>
    let finish := fun retType diags =>
      .inferInstance retType (if diags = [] then [] else diags ++ [c.instantiating callee args])
    typeBody c finish body []

def program : Program (Query Def Other Ty) (Stored Ty Ans Diag) where
  body
    | .inferInstance callee args => inferInstance c callee args
    | .other q => typeBody c .other (c.query q) []
  counts
    | .inferInstance _ _ => true
    | .other _ => false
  limit := oreMonoDepthLimit

end Program

section Declared

variable {R : Type*} {c : Checker Def Other Ty Ans Diag} {t : Typing Def Other Ty Ans Diag R} {callee : Def}
    {key : List Ty}
  {ret retType : Ty}

/-- The results the typing of a body may end with. -/
inductive Ends : Typing Def Other Ty Ans Diag R → R → Prop
  | done {r : R} : Ends (.done r) r
  | emit {d : Diag} {rest : Typing Def Other Ty Ans Diag R} {r : R} (h : Ends rest r) : Ends (.emit d rest) r
  | call {tooDeep : Diag} {callee : Def} {args : List (Arg Ty)} {ret ty : Ty}
      {rest : Ty → Typing Def Other Ty Ans Diag R} {r : R} (h : Ends (rest ty) r) :
      Ends (.call tooDeep callee args ret rest) r
  | read {q : Other} {answer : Ans} {rest : Ans → Typing Def Other Ty Ans Diag R} {r : R} (h : Ends (rest answer) r) :
      Ends (.read q rest) r

variable [DecidableEq Ty]

/-- The typing of a body may call an instance, with the generic return type `ret`. -/
inductive Calls (c : Checker Def Other Ty Ans Diag) (callee : Def) (key : List Ty) (ret : Ty) :
    Typing Def Other Ty Ans Diag R → Prop
  | here {tooDeep : Diag} {args : List (Arg Ty)} {rest : Ty → Typing Def Other Ty Ans Diag R}
      (h : args.mapM (keyArg c) = some key) : Calls c callee key ret (.call tooDeep callee args ret rest)
  | emit {d : Diag} {rest : Typing Def Other Ty Ans Diag R} (h : Calls c callee key ret rest) :
      Calls c callee key ret (.emit d rest)
  | call {tooDeep : Diag} {other : Def} {args : List (Arg Ty)} {generic ty : Ty}
      {rest : Ty → Typing Def Other Ty Ans Diag R} (h : Calls c callee key ret (rest ty)) :
      Calls c callee key ret (.call tooDeep other args generic rest)
  | read {q : Other} {answer : Ans} {rest : Ans → Typing Def Other Ty Ans Diag R}
      (h : Calls c callee key ret (rest answer)) : Calls c callee key ret (.read q rest)

theorem ends_of_possible {finish : R → List Diag → Stored Ty Ans Diag} {diags : List Diag} {a : Stored Ty Ans Diag}
    (h : Possible (typeBody c finish t diags) a) : ∃ r ds, Ends t r ∧ a = finish r ds := by
  induction t generalizing diags with
  | done r =>
      cases h
      exact ⟨r, diags, .done, rfl⟩
  | emit d rest ih =>
      obtain ⟨r, ds, hends, ha⟩ := ih h
      exact ⟨r, ds, .emit hends, ha⟩
  | read q rest ih =>
      cases h with
      | ask h =>
          obtain ⟨r, ds, hends, ha⟩ := ih _ h
          exact ⟨r, ds, .read hends, ha⟩
  | call tooDeep callee args ret rest ih =>
      have hrest : ∀ {ty ds}, Possible (typeBody c finish (rest ty) ds) a →
          ∃ r ds, Ends (.call tooDeep callee args ret rest) r ∧ a = finish r ds := by
        intro ty ds h
        obtain ⟨r, ds, hends, ha⟩ := ih ty h
        exact ⟨r, ds, .call hends, ha⟩
      rw [typeBody] at h
      cases h with
      | @deep _ b _ h =>
          cases b with
          | true => exact hrest h
          | false =>
              simp only [Bool.false_eq_true, if_false] at h
              split at h
              · exact hrest h
              · split at h
                · cases h with
                  | ask h => exact hrest h
                · exact hrest h

theorem calls_of_asks {finish : R → List Diag → Stored Ty Ans Diag} {diags : List Diag}
    {next : Option (Stored Ty Ans Diag) → Task (Query Def Other Ty) (Stored Ty Ans Diag)}
    (h : Asks (.inferInstance callee key) next (typeBody c finish t diags)) :
    ∃ ret, Calls c callee key ret t ∧ ∃ (rest : Ty → Typing Def Other Ty Ans Diag R) (ds : List Diag),
      next = fun answer => typeBody c finish (rest (callResult c ret answer)) ds := by
  induction t generalizing diags with
  | done r => cases h
  | emit d rest ih =>
      obtain ⟨ret, hcalls, hnext⟩ := ih h
      exact ⟨ret, .emit hcalls, hnext⟩
  | read q rest ih =>
      cases h with
      | ask h =>
          obtain ⟨ret, hcalls, hnext⟩ := ih _ h
          exact ⟨ret, .read hcalls, hnext⟩
  | call tooDeep other args generic rest ih =>
      have hrest : ∀ {ty ds}, Asks (.inferInstance callee key) next (typeBody c finish (rest ty) ds) →
          ∃ ret, Calls c callee key ret (.call tooDeep other args generic rest) ∧
            ∃ (rest : Ty → Typing Def Other Ty Ans Diag R) (ds : List Diag),
              next = fun answer => typeBody c finish (rest (callResult c ret answer)) ds := by
        intro ty ds h
        obtain ⟨ret, hcalls, hnext⟩ := ih ty h
        exact ⟨ret, .call hcalls, hnext⟩
      rw [typeBody] at h
      cases h with
      | @deep _ b h =>
          cases b with
          | true => exact hrest h
          | false =>
              simp only [Bool.false_eq_true, if_false] at h
              split at h
              · exact hrest h
              · rename_i key' hkey
                split at h
                · cases h with
                  | here => exact ⟨generic, .here hkey, rest, diags, rfl⟩
                  | ask h => exact hrest h
                · exact hrest h

/-- An instance is indifferent when every body that it may have ends in one type
and that is the generic return type wherever it is called. -/
theorem indifferent_of_declared (hne : retType ≠ c.none) (hlambda : ∃ body, c.lambda callee key = some body)
    (hends : ∀ body, c.lambda callee key = some body → ∀ r, Ends body r → r = retType)
    (hinstances : ∀ caller args body, c.lambda caller args = some body → ∀ ret, Calls c callee key ret body →
      ret = retType)
    (hqueries : ∀ q ret, Calls c callee key ret (c.query q) → ret = retType) :
    Indifferent (program c) (.inferInstance callee key) := by
  intro p next hasks a ha
  have hanswer : ∃ diags, a = .inferInstance retType diags := by
    obtain ⟨body, hbody⟩ := hlambda
    simp only [program, inferInstance, hbody] at ha
    obtain ⟨r, ds, hr, rfl⟩ := ends_of_possible ha
    rw [hends body hbody r hr]
    exact ⟨_, rfl⟩
  obtain ⟨diags, rfl⟩ := hanswer
  have hsame : ∀ ret, ret = retType → callResult c ret none = callResult c ret
    (some (.inferInstance retType diags)) := by
    rintro ret rfl
    simp [callResult]
  cases p with
  | inferInstance caller args =>
      simp only [program, inferInstance] at hasks
      split at hasks
      · cases hasks
      · rename_i body hbody
        obtain ⟨ret, hcalls, rest, ds, rfl⟩ := calls_of_asks hasks
        exact congrArg (fun ty => typeBody c _ (rest ty) ds) (hsame ret (hinstances caller args body hbody ret hcalls))
  | other q =>
      obtain ⟨ret, hcalls, rest, ds, rfl⟩ := calls_of_asks hasks
      exact congrArg (fun ty => typeBody c _ (rest ty) ds) (hsame ret (hqueries q ret hcalls))

end Declared

section Independence

variable [DecidableEq Def] [DecidableEq Other] [DecidableEq Ty] {c : Checker Def Other Ty Ans Diag}
  {s s' : Tables (Query Def Other Ty) (Stored Ty Ans Diag)}

end Independence

section Chain

/-- Generic functions with one parameter that each call the one before at the type
of their parameter: type 2 here, where 0 is no type and 1 the error type. -/
def chain : Checker Nat Empty Nat Empty String where
  none := 0
  error := 1
  isError t := t == 1
  isConcrete t := t == 2
  isFunction _ := true
  lambda
    | 0, _ => some (.done 2)
    | n + 1, _ => some (.call "monomorphization too deep" n [⟨none, 2⟩] 2 fun _ => .done 2)
  instantiating _ _ := "while instantiating"
  query := Empty.elim
  onCycle := Empty.elim

theorem session_of_first
    (ok : Nat → Tables (Query Nat Empty Nat) (Stored Nat Empty String) → Query Nat Empty Nat → Prop)
    (fuel n : Nat) {r : Stored Nat Empty String} (hok : ok fuel .empty (.inferInstance n [2]))
    (h : ((demand (program chain) fuel [] .empty (.inferInstance n [2])).map fun p =>
      p.1.stored (.inferInstance 1 [2])) = some (some r)) :
    ∃ s answer, demand (program chain) fuel [] .empty (.inferInstance n [2]) = some (s, answer) ∧
      Session (program chain) ok s ∧ s.stored (.inferInstance 1 [2]) = some r := by
  obtain ⟨⟨s, answer⟩, hs, hr⟩ := Option.map_eq_some_iff.mp h
  exact ⟨s, answer, hs, .demand fuel .start hok hs, hr⟩

end Chain

end Ore.InstanceDemands
