import Ore.LspServer

namespace Ore.LspServer

variable {D Diag : Type} (b : Backend D Diag)

section Conversation

def isReply (m : Json) : Bool := (m.getObjectItemCaseSensitive "method").isNone

def idOf (m : Json) : Json := (m.getObjectItemCaseSensitive "id").getD .null

def replyIds (sent : List Json) : List Json := (sent.filter isReply).map idOf

def requestIds (sent : List Json) : List Json :=
  (sent.filter fun m => !isReply m && (m.getObjectItemCaseSensitive "id").isSome).map idOf

/-- From one state to another the server replies to these ids and numbers its own requests on. -/
structure Talks (answers : List Json) (s s' : Server D) : Prop where
  replies : replyIds s'.sent = replyIds s.sent ++ answers
  requests : ∃ k, s'.requestId = s.requestId + k ∧
    requestIds s'.sent = requestIds s.sent ++ (List.range' s.requestId k).map fun i => .number i

/-- The same within one stage of the session. -/
structure Emits (answers : List Json) (s s' : Server D) : Prop extends Talks answers s s' where
  proto : s'.proto = s.proto

variable {b} {s s' s'' : Server D} {as as' : List Json} {id : Option Json}

theorem Talks.same (hsent : s'.sent = s.sent) (hid : s'.requestId = s.requestId) : Talks [] s s' := by
  refine ⟨?_, 0, hid, ?_⟩
  · rw [hsent, List.append_nil]
  · rw [hsent, List.range'_zero, List.map_nil, List.append_nil]

theorem Talks.trans (h : Talks as s s') (h' : Talks as' s' s'') : Talks (as ++ as') s s'' := by
  obtain ⟨k, hk, hreq⟩ := h.requests
  obtain ⟨k', hk', hreq'⟩ := h'.requests
  refine ⟨?_, k + k', by omega, ?_⟩
  · rw [h'.replies, h.replies, List.append_assoc]
  · rw [hreq', hreq, List.append_assoc, ← List.map_append, hk]
    congr 2
    rw [← List.range'_append, Nat.one_mul]

theorem Talks.quiet (h : Talks [] s s') (h' : Talks as s' s'') : Talks as s s'' := h.trans h'

theorem Emits.same (hproto : s'.proto = s.proto) (hsent : s'.sent = s.sent) (hid : s'.requestId = s.requestId) :
    Emits [] s s' := ⟨.same hsent hid, hproto⟩

theorem Emits.refl (s : Server D) : Emits [] s s := .same rfl rfl rfl

theorem Emits.trans (h : Emits as s s') (h' : Emits as' s' s'') : Emits (as ++ as') s s'' :=
  ⟨h.toTalks.trans h'.toTalks, h'.proto.trans h.proto⟩

theorem Emits.quiet (h : Emits [] s s') (h' : Emits as s' s'') : Emits as s s'' := h.trans h'

theorem emits_foldl {α : Type*} {f : Server D → α → Server D} (h : ∀ s x, Emits [] s (f s x)) (xs : List α)
    (s : Server D) : Emits [] s (xs.foldl f s) := by
  induction xs generalizing s with
  | nil => exact .refl s
  | cons x xs ih => exact (h s x).trans (ih (f s x))

theorem emits_response {key : String} (hkey : key ≠ "method") (id : Option Json) (value : Json) (s : Server D) :
    Emits [id.getD .null] s (s.sendMessage (makeResponse id key value)) := by
  have hmethod : isReply (makeResponse id key value) = true := by
    simp [isReply, makeResponse, Json.getObjectItemCaseSensitive, hkey]
  have hid : idOf (makeResponse id key value) = id.getD .null := rfl
  refine ⟨⟨?_, 0, rfl, ?_⟩, rfl⟩
  · simp [Server.sendMessage, replyIds, hmethod, hid]
  · simp [Server.sendMessage, requestIds, hmethod]

theorem emits_sendResult (id : Option Json) (result : Json) (s : Server D) :
    Emits [id.getD .null] s (sendResult id result s) := emits_response (by decide) id result s

theorem emits_sendError (id : Option Json) (code : Int) (message : String) (s : Server D) :
    Emits [id.getD .null] s (sendError id code message s) := emits_response (by decide) id _ s

theorem emits_sendNotification (method : String) (params : Json) (s : Server D) :
    Emits [] s (sendNotification method params s) := by
  refine ⟨⟨?_, 0, rfl, ?_⟩, rfl⟩
  · simp [sendNotification, Server.sendMessage, replyIds, isReply, Json.getObjectItemCaseSensitive]
  · simp [sendNotification, Server.sendMessage, requestIds, isReply, Json.getObjectItemCaseSensitive]

theorem emits_sendServerRequest (method : String) (s : Server D) : Emits [] s (sendServerRequest method s) := by
  refine ⟨⟨?_, 1, rfl, ?_⟩, rfl⟩
  · simp [sendServerRequest, Server.sendMessage, replyIds, isReply, Json.getObjectItemCaseSensitive]
  · simp [sendServerRequest, Server.sendMessage, requestIds, isReply, idOf, Json.getObjectItemCaseSensitive]

theorem emits_sendProgress (token : Option Json) (value : Json) (s : Server D) :
    Emits [] s (sendProgress token value s) := by
  cases token with
  | none => exact .refl s
  | some token => exact emits_sendNotification _ _ s

theorem emits_publishDiagnostics (src : Nat) (uri : String) (diags : List Diag) (s : Server D) :
    Emits [] s (publishDiagnostics b src uri diags s) := by
  rw [publishDiagnostics]
  split
  · exact .refl s
  · dsimp only
    split
    · exact .same rfl rfl rfl
    · split
      · exact .same rfl rfl rfl
      · apply Emits.quiet _ (emits_sendNotification _ _ _)
        exact .same rfl rfl rfl

theorem emits_publishGroup (primarySrc primaryFile : Nat) (diags : List Diag) (s : Server D) (file : Nat) :
    Emits [] s (publishGroup b primarySrc primaryFile diags s file) := by
  rw [publishGroup]
  split
  · exact .refl s
  · split
    · exact .refl s
    · split
      · exact .refl s
      · exact emits_publishDiagnostics _ _ _ s

theorem emits_publishGrouped (primarySrc primaryFile : Nat) (diags : List Diag) (s : Server D) :
    Emits [] s (publishGrouped b primarySrc primaryFile diags s) :=
  emits_foldl (emits_publishGroup primarySrc primaryFile diags) _ s

theorem emits_oredbTypecheck (src : Nat) (s : Server D) : Emits [] s (oredbTypecheck b src s).1 := .same rfl rfl rfl

theorem emits_republish (exceptSrc : Option Nat) (curRev : Nat) (s : Server D) (i : Nat) :
    Emits [] s (republish b exceptSrc curRev s i) := by
  rw [republish]
  split
  · exact .refl s
  · split
    · exact .refl s
    · dsimp only
      split
      · exact emits_oredbTypecheck i s
      · exact (emits_oredbTypecheck i s).trans (emits_publishGrouped _ _ _ _)

theorem emits_republishAllOpen (exceptSrc : Option Nat) (s : Server D) :
    Emits [] s (republishAllOpen b exceptSrc s) := by
  rw [republishAllOpen]
  split
  · split
    · exact emits_sendServerRequest _ s
    · exact .refl s
  · exact emits_foldl (emits_republish exceptSrc _) _ s

theorem emits_publishEdited (src : Option Nat) (s : Server D) : Emits [] s (publishEdited b src s) := by
  cases src with
  | none => exact .refl s
  | some src =>
      simp only [publishEdited]
      split
      · exact emits_oredbTypecheck _ s
      · apply Emits.quiet _ (emits_republishAllOpen _ _)
        split
        · exact emits_oredbTypecheck _ s
        · exact (emits_oredbTypecheck _ s).trans (emits_publishGrouped _ _ _ _)

theorem emits_oredbDidOpen (uri : String) (version : Int) (text : String) (s : Server D) :
    Emits [] s (oredbDidOpen b uri version text s).1 := by
  rw [oredbDidOpen]
  split
  · exact .refl s
  · dsimp only
    split
    · exact .same rfl rfl rfl
    · exact .same rfl rfl rfl

theorem emits_oredbDidChange (uri : String) (version : Int) (text : String) (s : Server D) :
    Emits [] s (oredbDidChange b uri version text s).1 := by
  rw [oredbDidChange]
  split
  · exact .refl s
  · split
    · exact .refl s
    · split
      · exact .refl s
      · exact .same rfl rfl rfl

theorem emits_oredbDidClose (uri : String) (s : Server D) : Emits [] s (oredbDidClose b uri s) := by
  rw [oredbDidClose]
  split
  · exact .refl s
  · split
    · exact .refl s
    · exact .same rfl rfl rfl

theorem emits_handleDidOpen (params : Option Json) (s : Server D) : Emits [] s (handleDidOpen b params s) := by
  rw [handleDidOpen]
  dsimp only
  split
  · exact .refl s
  · split
    · exact (emits_oredbDidOpen _ _ _ s).trans (emits_publishEdited _ _)
    · exact .refl s

theorem emits_handleDidChange (params : Option Json) (s : Server D) : Emits [] s (handleDidChange b params s) := by
  rw [handleDidChange]
  dsimp only
  split
  · exact .refl s
  · split
    · split
      · exact .refl s
      · exact (emits_oredbDidChange _ _ _ s).trans (emits_publishEdited _ _)
    · exact .refl s

theorem emits_handleDidClose (params : Option Json) (s : Server D) : Emits [] s (handleDidClose b params s) := by
  rw [handleDidClose]
  split
  · exact .refl s
  · split
    · exact .refl s
    · exact emits_oredbDidClose _ s

theorem emits_handleDidChangeWatchedFiles (params : Option Json) (s : Server D) :
    Emits [] s (handleDidChangeWatchedFiles b params s) := by
  rw [handleDidChangeWatchedFiles]
  split
  · apply Emits.quiet _ (emits_republishAllOpen _ _)
    exact .same rfl rfl rfl
  · exact .refl s

theorem emits_positionRequest (answer : D → Option Nat → Int → Int → D × Json) (id params : Option Json)
    (s : Server D) :
    Emits [id.getD .null] s (positionRequest b answer id params s) := by
  rw [positionRequest]
  dsimp only
  split
  · exact emits_sendResult id _ s
  · split
    · exact emits_sendResult id _ s
    · split
      · exact emits_sendResult id _ s
      · split
        · exact emits_sendResult id _ s
        · split
          · exact emits_sendResult id _ s
          · apply Emits.quiet _ (emits_sendResult id _ _)
            exact .same rfl rfl rfl

theorem emits_pullReport {params : Option Json} {src : Nat} {file : Option Nat} {all : List Diag}
    (h : pullReport b id params src file all s = some s') : Emits [id.getD .null] s s' := by
  rw [pullReport] at h
  dsimp only at h
  split at h
  · cases h
  · split at h
    · obtain rfl := Option.some.inj h
      apply Emits.quiet _ (emits_sendResult id _ _)
      exact .same rfl rfl rfl
    · obtain rfl := Option.some.inj h
      apply Emits.quiet _ (emits_sendResult id _ _)
      exact .same rfl rfl rfl

theorem emits_handleTextDocumentDiagnostic {params : Option Json}
    (h : handleTextDocumentDiagnostic b id params s = some s') : Emits [id.getD .null] s s' := by
  rw [handleTextDocumentDiagnostic] at h
  split at h
  · exact Option.some.inj h ▸ emits_sendError id _ _ s
  · split at h
    · exact Option.some.inj h ▸ emits_sendError id _ _ s
    · split at h
      · exact Option.some.inj h ▸ emits_sendResult id _ s
      · exact (emits_oredbTypecheck _ s).quiet (emits_pullReport h)

theorem emits_workspaceReport (prevIds token : Option Json) (curRev : Nat) (s : Server D × List Json) (i : Nat) :
    Emits [] s.1 (workspaceReport b prevIds token curRev s i).1 := by
  rw [workspaceReport]
  split
  · exact .refl s.1
  · split
    · exact .refl s.1
    · split
      · exact .refl s.1
      · dsimp only
        split
        · apply Emits.quiet _ (emits_sendProgress _ _ _)
          exact .same rfl rfl rfl
        · exact .same rfl rfl rfl

theorem emits_workspaceReports (prevIds token : Option Json) (curRev : Nat) (is : List Nat) (s : Server D × List Json) :
    Emits [] s.1 (is.foldl (workspaceReport b prevIds token curRev) s).1 := by
  induction is generalizing s with
  | nil => exact .refl s.1
  | cons i is ih => exact (emits_workspaceReport prevIds token curRev s i).trans (ih _)

theorem emits_handleWorkspaceDiagnostic (id params : Option Json) (s : Server D) :
    Emits [id.getD .null] s (handleWorkspaceDiagnostic b id params s) := by
  apply Emits.quiet _ (emits_sendResult id _ _)
  exact emits_workspaceReports _ _ _ _ (s, [])

theorem emits_answer {method : String} {params : Option Json} (h : answer b method id params s = some s') :
    Emits [id.getD .null] s s' := by
  rw [answer] at h
  split at h
  · exact Option.some.inj h ▸ emits_positionRequest _ id params s
  · split at h
    · exact Option.some.inj h ▸ emits_positionRequest _ id params s
    · split at h
      · exact Option.some.inj h ▸ emits_positionRequest _ id params s
      · split at h
        · exact emits_handleTextDocumentDiagnostic h
        · split at h
          · exact Option.some.inj h ▸ emits_handleWorkspaceDiagnostic id params s
          · exact Option.some.inj h ▸ emits_sendError id _ _ s

theorem talks_handleInitialize (params : Option Json) (s : Server D) :
    Talks [id.getD .null] s (handleInitialize id params s) := by
  rw [handleInitialize]
  split
  · exact (emits_sendError id _ _ s).toTalks
  · apply Talks.quiet _ (emits_sendResult id _ _).toTalks
    exact .same rfl rfl

theorem talks_handleShutdown (s : Server D) : Talks [id.getD .null] s (handleShutdown id s) := by
  apply Talks.quiet _ (emits_sendResult id _ _).toTalks
  exact .same rfl rfl

end Conversation

section Sessions

def calls (method : String) (m : Option Json) : Bool := m.bind methodOf == some method

/-- The methods that are answered by nothing, even with an id. -/
def notifications : List String :=
  ["initialized", "textDocument/didOpen", "textDocument/didChange", "textDocument/didClose",
    "workspace/didChangeWatchedFiles"]

def dueReady (method : String) (id : Option Json) : Option Json :=
  if method ∈ notifications then none
  else if method ∈ ["initialize", "shutdown"] then some (id.getD .null)
  else id

def due (p : LspProtoState) : Option Json → Option Json
  | none => some .null
  | some msg =>
      let id := msg.getObjectItemCaseSensitive "id"
      match methodOf msg with
      | none => if isResponse msg then none else id
      | some method =>
          if method = "exit" then none
          else if p = .preInit then if method = "initialize" then some (id.getD .null) else id
          else if p = .shutdown then id
          else dueReady method id

def advance (p : LspProtoState) (m : Option Json) : LspProtoState :=
  if p = .preInit ∧ calls "initialize" m then .ready
  else if p = .ready ∧ calls "shutdown" m then .shutdown
  else p

variable {b} {s s' : Server D} {id params : Option Json} {method : String} {msg : Json} {next : Next}

theorem dispatchReady_talks (hready : s.proto = .ready) (h : dispatchReady b method id params s = some s') :
    Talks (dueReady method id).toList s s' ∧ s'.proto = if method = "shutdown" then .shutdown else .ready := by
  rw [dispatchReady] at h
  split at h
  · obtain rfl := Option.some.inj h
    subst method
    refine ⟨talks_handleInitialize params s, ?_⟩
    rw [handleInitialize, if_pos (by rw [hready]; decide)]
    exact hready
  · split at h
    · obtain rfl := Option.some.inj h
      subst method
      exact ⟨.same rfl rfl, hready⟩
    · split at h
      · obtain rfl := Option.some.inj h
        subst method
        exact ⟨talks_handleShutdown s, rfl⟩
      · split at h
        · obtain rfl := Option.some.inj h
          subst method
          have hemits := emits_handleDidOpen (b := b) params s
          exact ⟨hemits.toTalks, hemits.proto.trans hready⟩
        · split at h
          · obtain rfl := Option.some.inj h
            subst method
            have hemits := emits_handleDidChange (b := b) params s
            exact ⟨hemits.toTalks, hemits.proto.trans hready⟩
          · split at h
            · obtain rfl := Option.some.inj h
              subst method
              have hemits := emits_handleDidClose (b := b) params s
              exact ⟨hemits.toTalks, hemits.proto.trans hready⟩
            · split at h
              · obtain rfl := Option.some.inj h
                subst method
                have hemits := emits_handleDidChangeWatchedFiles (b := b) params s
                exact ⟨hemits.toTalks, hemits.proto.trans hready⟩
              · have hnot : method ∉ notifications := by simp_all [notifications]
                have hlife : method ∉ ["initialize", "shutdown"] := by simp_all
                rw [dueReady, if_neg hnot, if_neg hlife, if_neg ‹¬ method = "shutdown"›]
                cases id with
                | none =>
                    obtain rfl := Option.some.inj h
                    exact ⟨.same rfl rfl, hready⟩
                | some id =>
                    have hemits := emits_answer h
                    exact ⟨hemits.toTalks, hemits.proto.trans hready⟩

/-- One message: the reply that is due, the next stage, and when the loop ends. -/
structure Dispatched (msg : Json) (s s' : Server D) (next : Next) : Prop where
  talks : Talks (due s.proto (some msg)).toList s s'
  proto : s'.proto = advance s.proto (some msg)
  next : next = if calls "exit" (some msg) then if s.proto = .shutdown then .exit else .abort else .proceed

theorem emits_refuse (id : Option Json) (code : Int) (message : String) (s : Server D) :
    Emits id.toList s (refuse id code message s) := by
  cases id with
  | none => exact .refl s
  | some id => exact emits_sendError (some id) code message s

theorem dispatch_cases (h : dispatch b msg s = some (next, s')) : Dispatched msg s s' next := by
  rw [dispatch] at h
  cases hmethod : methodOf msg with
  | none =>
      simp only [hmethod, Option.some.injEq, Prod.mk.injEq] at h
      obtain ⟨rfl, rfl⟩ := h
      have hadvance : advance s.proto (some msg) = s.proto := by simp [advance, calls, hmethod]
      by_cases hresponse : isResponse msg
      · rw [if_pos hresponse]
        refine ⟨?_, hadvance.symm, by simp [calls, hmethod]⟩
        simpa [due, hmethod, hresponse] using Talks.same rfl rfl
      · rw [if_neg hresponse]
        have hemits := emits_refuse (msg.getObjectItemCaseSensitive "id") errInvalidRequest "missing method" s
        refine ⟨?_, hemits.proto.trans hadvance.symm, by simp [calls, hmethod]⟩
        simpa [due, hmethod, hresponse] using hemits.toTalks
  | some method =>
      simp only [hmethod] at h
      have hcalls : ∀ m, calls m (some msg) = (method == m) := by simp [calls, hmethod]
      by_cases hexit : method = "exit"
      · rw [if_pos hexit] at h
        simp only [Option.some.injEq, Prod.mk.injEq] at h
        obtain ⟨rfl, rfl⟩ := h
        subst method
        refine ⟨?_, by simp [advance, hcalls], by simp [hcalls]⟩
        simpa [due, hmethod] using Talks.same rfl rfl
      · rw [if_neg hexit] at h
        have hproceed : calls "exit" (some msg) = false := by simp [hcalls, hexit]
        by_cases hearly : s.proto = .preInit ∧ method ≠ "initialize"
        · rw [if_pos hearly] at h
          simp only [Option.some.injEq, Prod.mk.injEq] at h
          obtain ⟨rfl, rfl⟩ := h
          have hemits := emits_refuse (msg.getObjectItemCaseSensitive "id") errServerNotInitialized
            "server has not been initialized" s
          refine ⟨?_, ?_, by simp [hproceed]⟩
          · simpa [due, hmethod, hexit, hearly] using hemits.toTalks
          · simpa [advance, hcalls, hearly] using hemits.proto
        · rw [if_neg hearly] at h
          by_cases hlate : s.proto = .shutdown
          · rw [if_pos hlate] at h
            simp only [Option.some.injEq, Prod.mk.injEq] at h
            obtain ⟨rfl, rfl⟩ := h
            have hemits := emits_refuse (msg.getObjectItemCaseSensitive "id") errInvalidRequest
              "server has been shut down" s
            refine ⟨?_, ?_, by simp [hproceed]⟩
            · simpa [due, hmethod, hexit, hlate] using hemits.toTalks
            · simpa [advance, hlate] using hemits.proto
          · rw [if_neg hlate, Option.map_eq_some_iff] at h
            obtain ⟨s₁, h, heq⟩ := h
            simp only [Prod.mk.injEq] at heq
            obtain ⟨rfl, rfl⟩ := heq
            cases hproto : s.proto with
            | shutdown => exact absurd hproto hlate
            | ready =>
                obtain ⟨htalks, hnext⟩ := dispatchReady_talks hproto h
                refine ⟨?_, ?_, by simp [hproceed]⟩
                · simpa [due, hmethod, hexit, hproto] using htalks
                · simp [advance, hcalls, hnext, hproto]
            | preInit =>
                have hinit : method = "initialize" := by
                  by_contra hne
                  exact hearly ⟨hproto, hne⟩
                subst method
                obtain rfl := Option.some.inj h
                refine ⟨?_, ?_, by simp [hproceed]⟩
                · simpa [due, hmethod, hproto] using talks_handleInitialize _ s
                · simp [advance, hcalls, hproto, handleInitialize, sendResult, Server.sendMessage]

end Sessions

end Ore.LspServer
