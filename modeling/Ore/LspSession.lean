import Ore.LspReplies

namespace Ore.LspServer

open FrameStream LspMarshal
open WorkspaceModel (Bytes)

variable {D Diag : Type}

section Runs

/-- What comes of one body. -/
def handle (b : Backend D Diag) : Option Json → Server D → Option (Server D)
  | none, s => some (sendError none errParse "parse error" s)
  | some msg, s => (dispatch b msg s).map (·.2)

/-- The loop. A fault and a loop that is cut off are absent. -/
def lspServerRun (b : Backend D Diag) (parse : Bytes → Option Json) : Nat → Bytes → Server D → Option (Nat × Server D)
  | 0, _, _ => none
  | fuel + 1, input, s => match lspReadMessage input with
    | .eof => some (if s.proto = .shutdown then 0 else 1, s)
    | .fail => some (1, s)
    | .message body rest => match parse body with
      | none => lspServerRun b parse fuel rest (sendError none errParse "parse error" s)
      | some msg => match dispatch b msg s with
        | none => none
        | some (.proceed, s) => lspServerRun b parse fuel rest s
        | some (.exit, s) => some (0, s)
        | some (.abort, s) => some (1, s)

/-- The bodies that a stream holds, and whether it ends between two of them. -/
def received (parse : Bytes → Option Json) (input : Bytes) : List (Option Json) :=
  (readAll lspReadMessage (input.length + 1) input).1.map parse

def endsClean (input : Bytes) : Bool := (readAll lspReadMessage (input.length + 1) input).2

/-- The loop over what was received. -/
inductive Serves (b : Backend D Diag) (clean : Bool) : List (Option Json) → Server D → Nat → Server D → Prop
  | nil {s : Server D} : Serves b clean [] s (if clean ∧ s.proto = .shutdown then 0 else 1) s
  | exit {m : Option Json} {ms : List (Option Json)} {s : Server D} : calls "exit" m = true →
      Serves b clean (m :: ms) s (if s.proto = .shutdown then 0 else 1) s
  | step {m : Option Json} {ms : List (Option Json)} {s s₁ s' : Server D} {rc : Nat} : calls "exit" m = false →
      handle b m s = some s₁ → Serves b clean ms s₁ rc s' → Serves b clean (m :: ms) s rc s'

variable {b : Backend D Diag} {parse : Bytes → Option Json} {clean : Bool} {m : Option Json} {ms : List (Option Json)}
  {rc fuel : Nat} {s s₁ s' : Server D} {input : Bytes}

theorem dispatch_exit {msg : Json} {next : Next} (h : dispatch b msg s = some (next, s'))
    (hexit : calls "exit" (some msg) = true) : s' = s := by
  have hmethod : methodOf msg = some "exit" := by simpa [calls] using hexit
  simp only [dispatch, hmethod, if_true, Option.some.injEq, Prod.mk.injEq] at h
  exact h.2.symm

theorem serves_of_run (hfuel : input.length < fuel) (h : lspServerRun b parse fuel input s = some (rc, s')) :
    Serves b (readAll lspReadMessage fuel input).2 ((readAll lspReadMessage fuel input).1.map parse) s rc s' := by
  induction fuel generalizing input s with
  | zero => omega
  | succ fuel ih =>
      rw [lspServerRun] at h
      rw [readAll]
      cases hread : lspReadMessage input with
      | eof =>
          simp only [hread, Option.some.injEq, Prod.mk.injEq] at h
          obtain ⟨rfl, rfl⟩ := h
          have hend : Serves b true [] s (if true = true ∧ s.proto = .shutdown then 0 else 1) s := .nil
          simpa using hend
      | fail =>
          simp only [hread, Option.some.injEq, Prod.mk.injEq] at h
          obtain ⟨rfl, rfl⟩ := h
          have hend : Serves b false [] s (if false = true ∧ s.proto = .shutdown then 0 else 1) s := .nil
          simpa using hend
      | message body rest =>
          have hshort := lspReadMessage_shorter hread
          simp only [hread] at h ⊢
          rw [List.map_cons]
          cases hparse : parse body with
          | none =>
              simp only [hparse] at h
              exact .step rfl rfl (ih (by omega) h)
          | some msg =>
              simp only [hparse] at h
              cases hdispatch : dispatch b msg s with
              | none =>
                  rw [hdispatch] at h
                  cases h
              | some r =>
                  obtain ⟨next, s₁⟩ := r
                  have hnext := (dispatch_cases hdispatch).next
                  rw [hdispatch] at h
                  cases hexit : calls "exit" (some msg) with
                  | false =>
                      rw [hexit, if_neg (by decide)] at hnext
                      subst hnext
                      have hhandle : handle b (some msg) s = some s₁ := by rw [handle, hdispatch, Option.map_some]
                      exact .step hexit hhandle (ih (by omega) h)
                  | true =>
                      obtain rfl := dispatch_exit hdispatch hexit
                      rw [hexit, if_pos rfl] at hnext
                      have hrc : rc = if s₁.proto = .shutdown then 0 else 1 := by
                        by_cases hshutdown : s₁.proto = .shutdown
                        · rw [if_pos hshutdown] at hnext ⊢
                          subst hnext
                          simp only [Option.some.injEq, Prod.mk.injEq] at h
                          exact h.1.symm
                        · rw [if_neg hshutdown] at hnext ⊢
                          subst hnext
                          simp only [Option.some.injEq, Prod.mk.injEq] at h
                          exact h.1.symm
                      have hstay : s' = s₁ := by
                        cases next with
                        | proceed => split at hnext <;> cases hnext
                        | exit | abort =>
                            simp only [Option.some.injEq, Prod.mk.injEq] at h
                            exact h.2.symm
                      rw [hrc, hstay]
                      exact .exit hexit

theorem handle_cases (h : handle b m s = some s₁) :
    Talks (due s.proto m).toList s s₁ ∧ s₁.proto = advance s.proto m := by
  cases m with
  | none =>
      obtain rfl := Option.some.inj h
      exact ⟨(emits_sendError none _ _ s).toTalks, by simp [advance, calls, sendError, Server.sendMessage]⟩
  | some msg =>
      rw [handle, Option.map_eq_some_iff] at h
      obtain ⟨r, hdispatch, rfl⟩ := h
      have hcases := dispatch_cases hdispatch
      exact ⟨hcases.talks, hcases.proto⟩

/-- The bodies before the one that ends the session. -/
def untilExit (ms : List (Option Json)) : List (Option Json) := ms.takeWhile fun m => !calls "exit" m

def dues (p : LspProtoState) : List (Option Json) → List Json
  | [] => []
  | m :: ms => (due p m).toList ++ dues (advance p m) ms

theorem untilExit_cons (h : calls "exit" m = false) : untilExit (m :: ms) = m :: untilExit ms := by
  simp [untilExit, h]

theorem untilExit_exit (h : calls "exit" m = true) : untilExit (m :: ms) = [] := by simp [untilExit, h]

theorem Serves.talks (h : Serves b clean ms s rc s') : Talks (dues s.proto (untilExit ms)) s s' := by
  induction h with
  | nil => exact .same rfl rfl
  | exit hexit =>
      rw [untilExit_exit hexit]
      exact .same rfl rfl
  | step hexit hhandle _ ih =>
      obtain ⟨htalks, hproto⟩ := handle_cases hhandle
      rw [untilExit_cons hexit, dues, ← hproto]
      exact htalks.trans ih

theorem Serves.rc_eq_zero (h : Serves b clean ms s rc s') :
    rc = 0 ↔ (untilExit ms).foldl advance s.proto = .shutdown ∧ (clean = true ∨ ∃ m ∈ ms, calls "exit" m = true) := by
  induction h with
  | @nil s =>
      by_cases hend : clean = true ∧ s.proto = .shutdown
      · simp [hend, untilExit]
      · rw [if_neg hend]
        constructor
        · exact nofun
        · rintro ⟨hproto, hclean | ⟨m, hm, -⟩⟩
          · exact absurd ⟨hclean, hproto⟩ hend
          · cases hm
  | @exit m ms s hexit =>
      rw [untilExit_exit hexit, List.foldl_nil]
      constructor
      · intro h
        by_cases hproto : s.proto = .shutdown
        · exact ⟨hproto, .inr ⟨m, List.mem_cons_self, hexit⟩⟩
        · rw [if_neg hproto] at h
          cases h
      · exact fun h => if_pos h.1
  | @step m ms s s₁ s' rc hexit hhandle _ ih =>
      rw [ih, untilExit_cons hexit, List.foldl_cons, (handle_cases hhandle).2]
      apply and_congr_right
      intro _
      apply or_congr_right
      simp [hexit]

theorem advance_shutdown (m : Option Json) : advance .shutdown m = .shutdown := by simp [advance]

theorem advance_ready (m : Option Json) : advance .ready m = if calls "shutdown" m then .shutdown else .ready := by
  simp [advance]

theorem advance_preInit (m : Option Json) : advance .preInit m = if calls "initialize" m then .ready else .preInit := by
  simp [advance]

theorem foldl_advance_shutdown (ms : List (Option Json)) : ms.foldl advance .shutdown = .shutdown := by
  induction ms with
  | nil => rfl
  | cons m ms ih => rwa [List.foldl_cons, advance_shutdown]

theorem foldl_advance_ready : ms.foldl advance .ready = .shutdown ↔ ∃ m ∈ ms, calls "shutdown" m = true := by
  induction ms with
  | nil =>
      constructor
      · exact nofun
      · rintro ⟨m, hm, -⟩
        cases hm
  | cons m ms ih =>
      rw [List.foldl_cons, advance_ready]
      by_cases hshut : calls "shutdown" m = true
      · rw [if_pos hshut, foldl_advance_shutdown]
        exact ⟨fun _ => ⟨m, List.mem_cons_self, hshut⟩, fun _ => rfl⟩
      · rw [if_neg hshut, ih]
        simp [hshut]

/-- A session is shut down by a request for it some time after the one that opens it. -/
theorem foldl_advance_preInit : ms.foldl advance .preInit = .shutdown ↔
    ∃ m₁ m₂, [m₁, m₂].Sublist ms ∧ calls "initialize" m₁ = true ∧ calls "shutdown" m₂ = true := by
  induction ms with
  | nil =>
      constructor
      · exact nofun
      · rintro ⟨m₁, m₂, hsub, -⟩
        cases hsub
  | cons m ms ih =>
      rw [List.foldl_cons, advance_preInit]
      by_cases hinit : calls "initialize" m = true
      · rw [if_pos hinit, foldl_advance_ready]
        constructor
        · rintro ⟨m₂, hm₂, hshut⟩
          exact ⟨m, m₂, List.cons_sublist_cons.mpr (List.singleton_sublist.mpr hm₂), hinit, hshut⟩
        · rintro ⟨m₁, m₂, hsub, -, hshut⟩
          cases hsub with
          | cons _ hsub => exact ⟨m₂, hsub.subset (by simp), hshut⟩
          | cons_cons _ hsub => exact ⟨m₂, hsub.subset (by simp), hshut⟩
      · rw [if_neg hinit, ih]
        constructor
        · rintro ⟨m₁, m₂, hsub, h⟩
          exact ⟨m₁, m₂, hsub.cons m, h⟩
        · rintro ⟨m₁, m₂, hsub, h₁, h₂⟩
          cases hsub with
          | cons _ hsub => exact ⟨m₁, m₂, hsub, h₁, h₂⟩
          | cons_cons _ hsub => exact absurd h₁ hinit

theorem refuse_db (id : Option Json) (code : Int) (message : String) (s : Server D) :
    (refuse id code message s).db = s.db ∧ (refuse id code message s).drafts = s.drafts := by
  rw [refuse]
  split
  · exact ⟨rfl, rfl⟩
  · exact ⟨rfl, rfl⟩

/-- Outside of a session nothing reaches the database. -/
theorem handle_outside (hout : s.proto ≠ .ready) (h : handle b m s = some s₁) :
    s₁.db = s.db ∧ s₁.drafts = s.drafts := by
  cases m with
  | none =>
      obtain rfl := Option.some.inj h
      exact ⟨rfl, rfl⟩
  | some msg =>
      rw [handle, Option.map_eq_some_iff] at h
      obtain ⟨⟨next, s₁⟩, h, rfl⟩ := h
      rw [dispatch] at h
      cases hmethod : methodOf msg with
      | none =>
          simp only [hmethod, Option.some.injEq, Prod.mk.injEq] at h
          obtain ⟨rfl, rfl⟩ := h
          split
          · exact ⟨rfl, rfl⟩
          · exact refuse_db _ _ _ s
      | some method =>
          simp only [hmethod] at h
          split at h
          · simp only [Option.some.injEq, Prod.mk.injEq] at h
            exact h.2 ▸ ⟨rfl, rfl⟩
          · split at h
            · simp only [Option.some.injEq, Prod.mk.injEq] at h
              exact h.2 ▸ refuse_db _ _ _ s
            · rename_i hearly
              split at h
              · simp only [Option.some.injEq, Prod.mk.injEq] at h
                exact h.2 ▸ refuse_db _ _ _ s
              · have hinit : method = "initialize" := by
                  cases hproto : s.proto with
                  | preInit =>
                      by_contra hne
                      exact hearly ⟨hproto, hne⟩
                  | ready => exact absurd hproto hout
                  | shutdown => contradiction
                subst method
                simp only [dispatchReady, if_true, Option.map_some, Option.some.injEq, Prod.mk.injEq] at h
                rw [← h.2, handleInitialize]
                split
                · exact ⟨rfl, rfl⟩
                · exact ⟨rfl, rfl⟩

theorem handle_shutdown (hready : s.proto = .ready) (hshut : calls "shutdown" m = true) (h : handle b m s = some s₁) :
    s₁.db = s.db ∧ s₁.drafts = s.drafts := by
  cases m with
  | none => cases hshut
  | some msg =>
      have hmethod : methodOf msg = some "shutdown" := by simpa [calls] using hshut
      simp [handle, dispatch, hmethod, hready, dispatchReady] at h
      rw [← h]
      exact ⟨rfl, rfl⟩

theorem Serves.closed (h : Serves b clean ms s rc s') (hproto : s.proto = .shutdown) :
    s'.db = s.db ∧ s'.drafts = s.drafts := by
  induction h with
  | nil | exit => exact ⟨rfl, rfl⟩
  | step hexit hhandle _ ih =>
      obtain ⟨hdb, hdrafts⟩ := handle_outside (by rw [hproto]; decide) hhandle
      obtain ⟨hdb', hdrafts'⟩ := ih (by rw [(handle_cases hhandle).2, hproto, advance_shutdown])
      exact ⟨hdb'.trans hdb, hdrafts'.trans hdrafts⟩

theorem Serves.opened (h : Serves b clean ms s rc s') (hproto : s.proto = .ready) :
    ∃ s₁, ((untilExit ms).takeWhile fun m => !calls "shutdown" m).foldlM (fun s m => handle b m s) s = some s₁ ∧
      s'.db = s₁.db ∧ s'.drafts = s₁.drafts := by
  induction h with
  | nil => exact ⟨_, rfl, rfl, rfl⟩
  | exit hexit =>
      rw [untilExit_exit hexit]
      exact ⟨_, rfl, rfl, rfl⟩
  | @step m ms s s₁ s' rc hexit hhandle hserves ih =>
      have hnext := (handle_cases hhandle).2
      rw [hproto, advance_ready] at hnext
      rw [untilExit_cons hexit]
      by_cases hshut : calls "shutdown" m = true
      · rw [if_pos hshut] at hnext
        obtain ⟨hdb, hdrafts⟩ := hserves.closed hnext
        obtain ⟨hdb', hdrafts'⟩ := handle_shutdown hproto hshut hhandle
        rw [List.takeWhile_cons_of_neg (by simp [hshut])]
        exact ⟨s, rfl, hdb.trans hdb', hdrafts.trans hdrafts'⟩
      · rw [if_neg hshut] at hnext
        obtain ⟨s₂, hfold, hsame⟩ := ih hnext
        refine ⟨s₂, ?_, hsame⟩
        rw [List.takeWhile_cons_of_pos (by simp [hshut]), List.foldlM_cons, hhandle]
        exact hfold

def session (ms : List (Option Json)) : List (Option Json) :=
  (((untilExit ms).dropWhile fun m => !calls "initialize" m).drop 1).takeWhile fun m => !calls "shutdown" m

/-- The parameters of the message that opens the session. -/
def initParams (ms : List (Option Json)) : Option Json :=
  (((untilExit ms).find? fun m => calls "initialize" m).getD none).bind (Json.getObjectItemCaseSensitive "params")

/-- A server that the parameters have opened a session with, over an untouched database. -/
structure Opened (params : Option Json) (db : D) (s : Server D) : Prop where
  proto : s.proto = .ready
  clientUsesPull : s.clientUsesPull = clientAdvertisesPull params
  clientSupportsRefresh : s.clientSupportsRefresh = clientAdvertisesRefresh params
  db : s.db = db
  drafts : s.drafts = []

theorem exists_opened (params : Option Json) (db : D) : ∃ s, Opened params db s :=
  ⟨⟨.ready, clientAdvertisesPull params, clientAdvertisesRefresh params, db, [], 1, []⟩, rfl, rfl, rfl, rfl, rfl⟩

theorem handle_initialize (hproto : s.proto = .preInit) (hdrafts : s.drafts = []) (hinit : calls "initialize" m = true)
    (h : handle b m s = some s₁) : Opened (m.bind (Json.getObjectItemCaseSensitive "params")) s.db s₁ := by
  cases m with
  | none => cases hinit
  | some msg =>
      have hmethod : methodOf msg = some "initialize" := by simpa [calls] using hinit
      simp [handle, dispatch, hmethod, hproto, dispatchReady, handleInitialize] at h
      rw [← h]
      exact ⟨rfl, rfl, rfl, rfl, hdrafts⟩

theorem Serves.session (h : Serves b clean ms s rc s') (hproto : s.proto = .preInit) (hdrafts : s.drafts = []) :
    ∃ s₀ s₁, Opened (initParams ms) s.db s₀ ∧ (session ms).foldlM (fun s m => handle b m s) s₀ = some s₁ ∧
      s'.db = s₁.db ∧ s'.drafts = s₁.drafts := by
  induction h with
  | @nil s =>
      obtain ⟨s₀, hs₀⟩ := exists_opened (initParams []) s.db
      exact ⟨s₀, s₀, hs₀, rfl, hs₀.db.symm, hdrafts.trans hs₀.drafts.symm⟩
  | @exit m ms s hexit =>
      obtain ⟨s₀, hs₀⟩ := exists_opened (initParams (m :: ms)) s.db
      refine ⟨s₀, s₀, hs₀, ?_, hs₀.db.symm, hdrafts.trans hs₀.drafts.symm⟩
      rw [LspServer.session, untilExit_exit hexit]
      rfl
  | @step m ms s s₁ s' rc hexit hhandle hserves ih =>
      have hnext := (handle_cases hhandle).2
      rw [hproto, advance_preInit] at hnext
      rw [LspServer.session, initParams, untilExit_cons hexit]
      by_cases hinit : calls "initialize" m = true
      · rw [if_pos hinit] at hnext
        obtain ⟨s₂, hfold, hsame⟩ := hserves.opened hnext
        rw [List.dropWhile_cons_of_neg (by simp [hinit]), List.find?_cons_of_pos hinit]
        exact ⟨s₁, s₂, handle_initialize hproto hdrafts hinit hhandle, hfold, hsame⟩
      · rw [if_neg hinit] at hnext
        obtain ⟨hdb, hdrafts₁⟩ := handle_outside (by rw [hproto]; decide) hhandle
        obtain ⟨s₀, s₂, hs₀, hrest⟩ := ih hnext (hdrafts₁.trans hdrafts)
        rw [hdb] at hs₀
        rw [List.dropWhile_cons_of_pos (by simp [hinit]), List.find?_cons_of_neg hinit]
        exact ⟨s₀, s₂, hs₀, hrest⟩

/-- A pull of diagnostics for a source that is known and has no draft slot. -/
def UnopenedPull (b : Backend D Diag) (m : Option Json) (s : Server D) : Prop :=
  ∃ msg uri path src, m = some msg ∧ s.proto = .ready ∧ methodOf msg = some "textDocument/diagnostic" ∧
    (msg.getObjectItemCaseSensitive "id").isSome ∧
    jsonStringOrNull "uri" (item "textDocument" (msg.getObjectItemCaseSensitive "params")) = some uri ∧
    b.uriToPath uri = some path ∧ b.lookupSourceByPath s.db path = some src ∧ s.drafts.length ≤ src

theorem pullReport_fault {id params : Option Json} {src : Nat} {file : Option Nat} {all : List Diag} :
    pullReport b id params src file all s = none ↔ s.drafts.length ≤ src := by
  rw [pullReport, ← List.getElem?_eq_none_iff]
  cases hdraft : s.drafts[src]? with
  | none => simp
  | some d =>
      dsimp only
      split
      · simp
      · simp

theorem handleTextDocumentDiagnostic_fault {id params : Option Json} :
    handleTextDocumentDiagnostic b id params s = none ↔
      ∃ uri path src, jsonStringOrNull "uri" (item "textDocument" params) = some uri ∧ b.uriToPath uri = some path ∧
        b.lookupSourceByPath s.db path = some src ∧ s.drafts.length ≤ src := by
  rw [handleTextDocumentDiagnostic]
  cases huri : jsonStringOrNull "uri" (item "textDocument" params) with
  | none => simp
  | some uri =>
      cases hpath : b.uriToPath uri with
      | none => simp [hpath]
      | some path =>
          cases hsrc : b.lookupSourceByPath s.db path with
          | none => simp [hpath, hsrc]
          | some src =>
              have hfault : pullReport b id params src (oredbTypecheck b src s).2.1 (oredbTypecheck b src s).2.2
                  (oredbTypecheck b src s).1 = none ↔ s.drafts.length ≤ src := pullReport_fault
              simpa [hpath, hsrc] using hfault

theorem answer_fault {method : String} {id params : Option Json} : answer b method id params s = none ↔
    method = "textDocument/diagnostic" ∧ handleTextDocumentDiagnostic b id params s = none := by
  rw [answer]
  by_cases hmethod : method = "textDocument/diagnostic"
  · subst method
    simp
  · simp only [hmethod, if_false, false_and, iff_false]
    split
    · simp
    · split
      · simp
      · split
        · simp
        · split
          · simp
          · simp

theorem dispatchReady_fault {method : String} {id params : Option Json} : dispatchReady b method id params s = none ↔
    method = "textDocument/diagnostic" ∧ id.isSome ∧ handleTextDocumentDiagnostic b id params s = none := by
  rw [dispatchReady]
  by_cases hmethod : method = "textDocument/diagnostic"
  · subst method
    cases id with
    | none => simp
    | some id => simp [answer_fault]
  · simp only [hmethod, false_and, iff_false]
    intro h
    repeat' split at h
    all_goals first
      | cases h
      | exact hmethod (answer_fault.mp h).1

theorem dispatch_fault {msg : Json} : dispatch b msg s = none ↔ UnopenedPull b (some msg) s := by
  rw [dispatch, UnopenedPull]
  cases hmethod : methodOf msg with
  | none => simp [hmethod]
  | some method =>
      simp only [Option.some.injEq, ↓existsAndEq, true_and]
      by_cases hdiag : method = "textDocument/diagnostic"
      · subst method
        cases hproto : s.proto with
        | preInit | shutdown => simp
        | ready => simp [hmethod, dispatchReady_fault, handleTextDocumentDiagnostic_fault]
      · have hreply : ∀ id params, dispatchReady b method id params s ≠ none := by
          intro id params h
          exact hdiag (dispatchReady_fault.mp h).1
        simp only [hmethod, Option.some.injEq, hdiag, false_and, and_false, exists_false, iff_false]
        split
        · exact Option.some_ne_none _
        · split
          · exact Option.some_ne_none _
          · split
            · exact Option.some_ne_none _
            · rw [Option.map_eq_none_iff]
              exact hreply _ _

theorem handle_fault : handle b m s = none ↔ UnopenedPull b m s := by
  cases m with
  | none =>
      constructor
      · exact nofun
      · rintro ⟨msg, uri, path, src, h, -⟩
        cases h
  | some msg => rw [handle, Option.map_eq_none_iff, dispatch_fault]

theorem foldlM_eq_none {α σ : Type*} {f : σ → α → Option σ} {xs : List α} {s : σ} : xs.foldlM f s = none ↔
    ∃ pre x post s₁, xs = pre ++ x :: post ∧ pre.foldlM f s = some s₁ ∧ f s₁ x = none := by
  induction xs generalizing s with
  | nil => simp
  | cons y xs ih =>
      rw [List.foldlM_cons]
      cases hf : f s y with
      | none =>
          constructor
          · exact fun _ => ⟨[], y, xs, s, rfl, rfl, hf⟩
          · exact fun _ => rfl
      | some s₂ =>
          rw [Option.bind_eq_bind, Option.bind_some, ih]
          constructor
          · rintro ⟨pre, x, post, s₁, rfl, hpre, hx⟩
            refine ⟨y :: pre, x, post, s₁, rfl, ?_, hx⟩
            rw [List.foldlM_cons, hf]
            exact hpre
          · rintro ⟨pre, x, post, s₁, heq, hpre, hx⟩
            cases pre with
            | nil =>
                rw [List.nil_append] at heq
                obtain ⟨rfl, rfl⟩ := List.cons.inj heq
                rw [List.foldlM_nil, Option.pure_def] at hpre
                obtain rfl := Option.some.inj hpre
                rw [hf] at hx
                cases hx
            | cons z pre =>
                obtain ⟨rfl, rfl⟩ := List.cons.inj heq
                rw [List.foldlM_cons, hf] at hpre
                exact ⟨pre, x, post, s₁, rfl, hpre, hx⟩

theorem run_eq_none (hfuel : input.length < fuel) : lspServerRun b parse fuel input s = none ↔
    (untilExit ((readAll lspReadMessage fuel input).1.map parse)).foldlM (fun s m => handle b m s) s = none := by
  induction fuel generalizing input s with
  | zero => omega
  | succ fuel ih =>
      rw [lspServerRun, readAll]
      cases hread : lspReadMessage input with
      | eof | fail => simp [untilExit]
      | message body rest =>
          have hshort := lspReadMessage_shorter hread
          have hih := fun s => ih (s := s) (by omega : rest.length < fuel)
          simp only [List.map_cons]
          cases hparse : parse body with
          | none =>
              rw [untilExit_cons rfl, List.foldlM_cons]
              exact hih _
          | some msg =>
              cases hdispatch : dispatch b msg s with
              | none =>
                  have hexit : calls "exit" (some msg) = false := by
                    obtain ⟨msg', uri, path, src, heq, -, hmethod, -⟩ := dispatch_fault.mp hdispatch
                    obtain rfl := Option.some.inj heq
                    simp [calls, hmethod]
                  rw [untilExit_cons hexit, List.foldlM_cons, handle, hdispatch]
                  simp only [hdispatch]
                  exact ⟨fun _ => rfl, fun _ => trivial⟩
              | some r =>
                  obtain ⟨next, s₁⟩ := r
                  have hnext := (dispatch_cases hdispatch).next
                  cases hexit : calls "exit" (some msg) with
                  | false =>
                      rw [hexit, if_neg (by decide)] at hnext
                      subst hnext
                      rw [untilExit_cons hexit, List.foldlM_cons, handle, hdispatch]
                      simp only [hdispatch]
                      exact hih s₁
                  | true =>
                      rw [untilExit_exit hexit]
                      rw [hexit, if_pos rfl] at hnext
                      cases next with
                      | proceed => split at hnext <;> cases hnext
                      | exit | abort => simp [hdispatch]

/-- The server fails on nothing but a pull of diagnostics for a source that is known and has
no draft slot. -/
theorem run_fault_iff (b : Backend D Diag) (parse : Bytes → Option Json) (input : Bytes) (s : Server D) :
    lspServerRun b parse (input.length + 1) input s = none ↔ ∃ pre m post s₁,
      untilExit (received parse input) = pre ++ m :: post ∧ pre.foldlM (fun s m => handle b m s) s = some s₁ ∧
        UnopenedPull b m s₁ := by
  rw [run_eq_none (Nat.lt_succ_self _), ← received, foldlM_eq_none]
  simp only [handle_fault]

/-- A message of a client that numbers requests and nothing else. -/
inductive Proper : Option Json → Prop
  | request {msg : Json} {method : String} {id : Json} : methodOf msg = some method → method ∉ "exit" :: notifications →
      msg.getObjectItemCaseSensitive "id" = some id → Proper (some msg)
  | notification {msg : Json} {method : String} : methodOf msg = some method → method ∉ ["initialize", "shutdown"] →
      msg.getObjectItemCaseSensitive "id" = none → Proper (some msg)
  | response {msg : Json} : methodOf msg = none → isResponse msg = true → Proper (some msg)

def requested (m : Option Json) : Option Json :=
  m.bind fun msg => if (methodOf msg).isSome then msg.getObjectItemCaseSensitive "id" else none

theorem due_of_proper (h : Proper m) (p : LspProtoState) (hexit : calls "exit" m = false) : due p m = requested m := by
  cases h with
  | @request msg method id hmethod hplain hid =>
      rw [List.mem_cons, not_or] at hplain
      simp only [due, requested, hmethod, hid, Option.bind_some, Option.isSome_some, if_true, if_neg hplain.1]
      cases p with
      | preInit => simp
      | ready => simp [dueReady, hplain.2]
      | shutdown => simp
  | @notification msg method hmethod hplain hid =>
      simp only [due, requested, hmethod, hid, Option.bind_some, Option.isSome_some, if_true]
      have hinit : method ≠ "initialize" := by
        rintro rfl
        exact hplain (by simp)
      cases p with
      | preInit => simp [hinit]
      | ready => simp [dueReady, hplain]
      | shutdown => simp
  | response hmethod hresponse => simp [due, requested, hmethod, hresponse]

theorem dues_of_proper {p : LspProtoState} (h : ∀ m ∈ untilExit ms, Proper m) :
    dues p (untilExit ms) = (untilExit ms).filterMap requested := by
  have hexit : ∀ m ∈ untilExit ms, calls "exit" m = false := by
    intro m hm
    simpa using List.mem_takeWhile_imp hm
  generalize untilExit ms = l at h hexit
  induction l generalizing p with
  | nil => rfl
  | cons m l ih =>
      obtain ⟨hm, hl⟩ := List.forall_mem_cons.mp h
      obtain ⟨hexitm, hexitl⟩ := List.forall_mem_cons.mp hexit
      rw [dues, due_of_proper hm p hexitm, ih hl hexitl]
      cases hrequest : requested m with
      | none => rw [List.filterMap_cons_none hrequest, Option.toList_none, List.nil_append]
      | some id => rw [List.filterMap_cons_some hrequest, Option.toList_some, List.singleton_append]

section Talk

/-- Documents by path, in the order of their opening. -/
abbrev Documents := List (String × String)

def Documents.put (db : Documents) (path text : String) : Documents × Option Nat :=
  match db.findIdx? (·.1 == path) with
  | some i => (db.set i (path, text), some i)
  | none => (db ++ [(path, text)], some db.length)

def scheme : List Char := "file://".toList

/-- A backend that keeps the texts that are opened, and has nothing to say about them. -/
def keeper : Backend Documents Unit where
  uriToPath uri := if uri.toList.take 7 = scheme then some (String.ofList (uri.toList.drop 7)) else none
  pathToUri path := some (String.ofList (scheme ++ path.toList))
  lookupSourceByPath db path := db.findIdx? (·.1 == path)
  didOpen db path text := db.put path text
  didChange db path text := (db.put path text).1
  didChangeExternal db _ := (db, false)
  didEvictSource db _ := db
  compileFile db src := (db, if src < db.length then some src else none, [])
  currentRevision db := db.length + 1
  sourcePath db src := db[src]?.map (·.1)
  fileSource _ file := some file
  anchorFile _ := 0
  isParseDiag _ := false
  hashDiagList _ := 1
  rangeForAnchor _ _ := .null
  severity _ := 1
  formatDiag _ _ := ""
  tag _ := 0
  hoverAt db _ _ _ := (db, none)
  completionsAt db _ _ _ := (db, [])
  definitionAt db _ _ _ := (db, none)

def bytes (s : String) : Bytes := s.toByteArray.data.toList

def opens (uri text : String) : String × Json :=
  ("\x7b\"method\":\"textDocument/didOpen\",\"params\":\x7b\"textDocument\":\x7b\"uri\":\"" ++
      uri ++ "\",\"text\":\"" ++ text ++ "\"\x7d\x7d\x7d",
    .object [("method", .string "textDocument/didOpen"),
      ("params", .object [("textDocument", .object [("uri", .string uri), ("text", .string text)])])])

/-- A document that comes too early, the session with a document of its own, and one that
comes too late. -/
def messages : List (String × Json) :=
  [opens "file:///early.ore" "e :: 1",
    ("\x7b\"id\":1,\"method\":\"initialize\",\"params\":\x7b\x7d\x7d",
      .object [("id", .number 1), ("method", .string "initialize"), ("params", .object [])]),
    opens "file:///x.ore" "x :: 2",
    ("\x7b\"id\":2,\"method\":\"shutdown\"\x7d", .object [("id", .number 2), ("method", .string "shutdown")]),
    opens "file:///late.ore" "l :: 3",
    ("\x7b\"method\":\"exit\"\x7d", .object [("method", .string "exit")])]

def parseTalk (body : Bytes) : Option Json := (messages.find? fun m => decide (bytes m.1 = body)).map (·.2)

def talk : Bytes := messages.flatMap fun m => lspWriteMessage (bytes m.1)

/-- What a run leaves of the database, and how many drafts. -/
def outcome (r : Nat × Server Documents) : Nat × Documents × Nat := (r.1, r.2.db, r.2.drafts.length)

def idNumber : Json → Option Int
  | .number n => some n
  | _ => none

theorem talk_run : (lspServerRun keeper parseTalk (talk.length + 1) talk (.initial [])).map outcome =
      some (0, [("/x.ore", "x :: 2")], 1) ∧
    (dues .preInit (untilExit (received parseTalk talk))).map idNumber = [some 1, some 2] ∧
      (session (received parseTalk talk)).length = 1 := by
  decide +kernel

theorem talk_ends : ∃ s', lspServerRun keeper parseTalk (talk.length + 1) talk (.initial []) = some (0, s') ∧
    s'.db = [("/x.ore", "x :: 2")] ∧ s'.drafts.length = 1 := by
  obtain ⟨⟨rc, s'⟩, h, heq⟩ := Option.map_eq_some_iff.mp talk_run.1
  simp only [outcome, Prod.mk.injEq] at heq
  obtain ⟨rfl, hdb, hdrafts⟩ := heq
  exact ⟨s', h, hdb, hdrafts⟩

end Talk

/-- Over a whole run the replies go out in order, each once, to what they are due for: to the
requests, for a client that numbers nothing else. The server's own requests are numbered
from one. -/
theorem replies_in_order {b : Backend D Diag} {parse : Bytes → Option Json} {input : Bytes} {db : D} {rc : Nat}
    {s' : Server D} (h : lspServerRun b parse (input.length + 1) input (.initial db) = some (rc, s')) :
    replyIds s'.sent = dues .preInit (untilExit (received parse input)) ∧
      ((∀ m ∈ untilExit (received parse input), Proper m) →
        replyIds s'.sent = (untilExit (received parse input)).filterMap requested) ∧
      ∃ k, requestIds s'.sent = (List.range' 1 k).map fun i => .number i := by
  have htalks := (serves_of_run (Nat.lt_succ_self _) h).talks
  obtain ⟨k, -, hrequests⟩ := htalks.requests
  have hreplies : replyIds s'.sent = dues .preInit (untilExit (received parse input)) := htalks.replies
  exact ⟨hreplies, fun hproper => hreplies.trans (dues_of_proper hproper), k, hrequests⟩

theorem replies_in_order_talk : ∃ s',
    lspServerRun keeper parseTalk (talk.length + 1) talk (.initial []) = some (0, s') ∧
      (replyIds s'.sent).map idNumber = [some 1, some 2] := by
  obtain ⟨s', h, -⟩ := talk_ends
  exact ⟨s', h, (replies_in_order h).1 ▸ talk_run.2.1⟩

/-- The exit code is zero exactly when, before any `exit`, a message that initializes is
followed by one that shuts down, and the input has an `exit` or ends between two messages. -/
theorem exit_code_iff {b : Backend D Diag} {parse : Bytes → Option Json} {input : Bytes} {db : D} {rc : Nat}
    {s' : Server D} (h : lspServerRun b parse (input.length + 1) input (.initial db) = some (rc, s')) :
    rc = 0 ↔
      (∃ m₁ m₂, [m₁, m₂].Sublist (untilExit (received parse input)) ∧ calls "initialize" m₁ = true ∧
        calls "shutdown" m₂ = true) ∧
      (endsClean input = true ∨ ∃ m ∈ received parse input, calls "exit" m = true) := by
  have hrc := (serves_of_run (Nat.lt_succ_self _) h).rc_eq_zero
  rw [← foldl_advance_preInit]
  exact hrc

theorem exit_code_iff_talk :
    (∃ m₁ m₂, [m₁, m₂].Sublist (untilExit (received parseTalk talk)) ∧ calls "initialize" m₁ = true ∧
      calls "shutdown" m₂ = true) ∧
    (endsClean talk = true ∨ ∃ m ∈ received parseTalk talk, calls "exit" m = true) := by
  obtain ⟨s', h, -⟩ := talk_ends
  exact (exit_code_iff h).mp rfl

/-- What reaches the database and the drafts is what stands between the message that
initializes and the one that shuts down. -/
theorem session_only {b : Backend D Diag} {parse : Bytes → Option Json} {input : Bytes} {db : D} {rc : Nat}
    {s' : Server D} (h : lspServerRun b parse (input.length + 1) input (.initial db) = some (rc, s')) :
    ∃ s₀ s₁, Opened (initParams (received parse input)) db s₀ ∧
      (session (received parse input)).foldlM (fun s m => handle b m s) s₀ = some s₁ ∧
      s'.db = s₁.db ∧ s'.drafts = s₁.drafts :=
  (serves_of_run (Nat.lt_succ_self _) h).session rfl rfl

theorem session_only_talk : ∃ s₀ s₁, Opened (initParams (received parseTalk talk)) [] s₀ ∧
    (session (received parseTalk talk)).length = 1 ∧
      (session (received parseTalk talk)).foldlM (fun s m => handle keeper m s) s₀ = some s₁ ∧
        s₁.db = [("/x.ore", "x :: 2")] ∧ s₁.drafts.length = 1 := by
  obtain ⟨s', h, hdb, hdrafts⟩ := talk_ends
  obtain ⟨s₀, s₁, hopened, hfold, hdb', hdrafts'⟩ := session_only h
  exact ⟨s₀, s₁, hopened, talk_run.2.2, hfold, hdb' ▸ hdb, hdrafts' ▸ hdrafts⟩

end Runs

end Ore.LspServer
