import Ore.LspMarshal

namespace Ore.LspServer

open FrameStream LspMarshal
open WorkspaceModel (Bytes)

/-- Numbers without a fraction. -/
inductive Json
  | null
  | bool (b : Bool)
  | number (n : Int)
  | string (s : String)
  | array (items : List Json)
  | object (members : List (String × Json))

namespace Json

def getObjectItemCaseSensitive (name : String) : Json → Option Json
  | .object members => (members.find? (·.1 == name)).map (·.2)
  | _ => none

def getObjectItem (name : String) : Json → Option Json
  | .object members => (members.find? (·.1.toLower == name.toLower)).map (·.2)
  | _ => none

def isObject : Json → Bool
  | .object _ => true
  | _ => false

def isTrue : Json → Bool
  | .bool b => b
  | _ => false

end Json

/-- A member of what may be absent itself. -/
def item (name : String) (obj : Option Json) : Option Json := obj.bind (Json.getObjectItemCaseSensitive name)

def hasObject (obj : Option Json) : Bool := (obj.map Json.isObject).getD false

def jsonStringOrNull (name : String) (obj : Option Json) : Option String :=
  match item name obj with
  | some (.string s) => some s
  | _ => none

def jsonIntOrDefault (name : String) (fallback : Int) (obj : Option Json) : Int :=
  match item name obj with
  | some (.number n) => n
  | _ => fallback

inductive LspProtoState
  | preInit
  | ready
  | shutdown
  deriving DecidableEq, Repr

structure Draft where
  lspSynced : Bool
  version : Int
  lastPublishedDiagHash : UInt64
  lastPublishedRevision : Nat

def Draft.empty : Draft := ⟨false, 0, 0, 0⟩

def errParse : Int := -32700
def errInvalidRequest : Int := -32600
def errMethodNotFound : Int := -32601
def errInvalidParams : Int := -32602
def errServerNotInitialized : Int := -32002

structure CompletionItem where
  label : String
  kind : Int
  detail : String

structure IdeLocation where
  file : Nat
  lineStart : Nat
  colStart : Nat
  lineEnd : Nat
  colEnd : Nat

/-- What the server calls. A source or a file that is not valid is absent. -/
structure Backend (D Diag : Type) where
  uriToPath : String → Option String
  pathToUri : String → Option String
  lookupSourceByPath : D → String → Option Nat
  didOpen : D → String → String → D × Option Nat
  didChange : D → String → String → D
  didChangeExternal : D → String → D × Bool
  didEvictSource : D → String → D
  compileFile : D → Nat → D × Option Nat × List Diag
  currentRevision : D → Nat
  sourcePath : D → Nat → Option String
  fileSource : D → Nat → Option Nat
  anchorFile : Diag → Nat
  isParseDiag : Diag → Bool
  hashDiagList : List Diag → UInt64
  rangeForAnchor : D → Diag → Json
  severity : Diag → Int
  formatDiag : D → Diag → String
  tag : Diag → Int
  hoverAt : D → Option Nat → Int → Int → D × Option String
  completionsAt : D → Option Nat → Int → Int → D × List CompletionItem
  definitionAt : D → Option Nat → Int → Int → D × Option IdeLocation

structure Server (D : Type) where
  proto : LspProtoState
  clientUsesPull : Bool
  clientSupportsRefresh : Bool
  db : D
  drafts : List Draft
  requestId : Nat
  sent : List Json

variable {D Diag : Type} (b : Backend D Diag)

namespace Server

def initial (db : D) : Server D := ⟨.preInit, false, false, db, [], 1, []⟩

def sendMessage (s : Server D) (m : Json) : Server D := { s with sent := s.sent ++ [m] }

def setDraft (s : Server D) (src : Nat) (d : Draft) : Server D := { s with drafts := s.drafts.set src d }

end Server

def makeResponse (id : Option Json) (key : String) (value : Json) : Json :=
  .object [("jsonrpc", .string "2.0"), ("id", id.getD .null), (key, value)]

def sendError (id : Option Json) (code : Int) (message : String) (s : Server D) : Server D :=
  s.sendMessage (makeResponse id "error" (.object [("code", .number code), ("message", .string message)]))

def sendResult (id : Option Json) (result : Json) (s : Server D) : Server D :=
  s.sendMessage (makeResponse id "result" result)

/-- Without parameters, as every such request is. -/
def sendServerRequest (method : String) (s : Server D) : Server D :=
  { s with requestId := s.requestId + 1 }.sendMessage
    (.object [("jsonrpc", .string "2.0"), ("id", .number s.requestId), ("method", .string method)])

def sendNotification (method : String) (params : Json) (s : Server D) : Server D :=
  s.sendMessage (.object [("jsonrpc", .string "2.0"), ("method", .string method), ("params", params)])

def sendProgress (token : Option Json) (value : Json) (s : Server D) : Server D :=
  match token with
  | none => s
  | some token => sendNotification "$/progress" (.object [("token", token), ("value", value)]) s

section Initialize

def buildServerCapabilities : Json :=
  .object [("textDocumentSync", .object [("openClose", .bool true), ("change", .number 1)]),
    ("hoverProvider", .bool true),
    ("completionProvider", .object [("triggerCharacters", .array [.string "."]), ("resolveProvider", .bool false)]),
    ("definitionProvider", .bool true),
    ("diagnosticProvider", .object [("identifier", .string "ore"), ("interFileDependencies", .bool true),
      ("workspaceDiagnostics", .bool true)])]

def buildServerInfo : Json := .object [("name", .string "ore-lsp"), ("version", .string "0.0.1")]

def clientAdvertisesPull (params : Option Json) : Bool :=
  hasObject params && hasObject (item "capabilities" params) &&
    hasObject (item "textDocument" (item "capabilities" params)) &&
    hasObject (item "diagnostic" (item "textDocument" (item "capabilities" params)))

def clientAdvertisesRefresh (params : Option Json) : Bool :=
  let workspace := item "workspace" (item "capabilities" params)
  hasObject params && hasObject (item "capabilities" params) && hasObject workspace &&
    hasObject (item "diagnostics" workspace) &&
    ((item "refreshSupport" (item "diagnostics" workspace)).map Json.isTrue).getD false

def handleInitialize (id params : Option Json) (s : Server D) : Server D :=
  if s.proto ≠ .preInit then sendError id errInvalidRequest "initialize requested twice" s
  else
    sendResult id (.object [("capabilities", buildServerCapabilities), ("serverInfo", buildServerInfo)])
      { s with
        clientUsesPull := clientAdvertisesPull params, clientSupportsRefresh := clientAdvertisesRefresh params
        proto := .ready }

def handleShutdown (id : Option Json) (s : Server D) : Server D := sendResult id .null { s with proto := .shutdown }

end Initialize

section Diagnostics

def buildDiagItem (db : D) (d : Diag) : Json :=
  .object ([("range", b.rangeForAnchor db d), ("severity", .number (b.severity d)), ("source", .string "ore"),
    ("message", .string (b.formatDiag db d))] ++ if b.tag d ≠ 0 then [("tags", .array [.number (b.tag d)])] else [])

def buildDiagItemsArray (db : D) (collected : List Diag) : Json := .array (collected.map (buildDiagItem b db))

def hexDigit (n : Nat) : Char := if n < 10 then Char.ofNat (48 + n) else Char.ofNat (87 + n)

def formatResultId (h : UInt64) : String :=
  String.ofList ((List.range 16).map fun i => hexDigit (h.toNat / 16 ^ (15 - i) % 16))

/-- Zero stands for a document that was never published. -/
def published (h : UInt64) : UInt64 := if h ≠ 0 then h else 1

def publishDiagnostics (src : Nat) (uri : String) (diags : List Diag) (s : Server D) : Server D :=
  match s.drafts[src]? with
  | none => s
  | some d =>
      let d := { d with lastPublishedRevision := b.currentRevision s.db }
      let s := s.setDraft src d
      if d.lastPublishedDiagHash ≠ 0 && diags.any b.isParseDiag then s
      else
        let h := b.hashDiagList diags
        if h = d.lastPublishedDiagHash && d.lastPublishedDiagHash ≠ 0 then s
        else
          sendNotification "textDocument/publishDiagnostics"
            (.object [("uri", .string uri), ("version", .number d.version),
              ("diagnostics", buildDiagItemsArray b s.db diags)])
            (s.setDraft src { d with lastPublishedDiagHash := published h })

def collectFileDiags (all : List Diag) (file : Nat) : List Diag := all.filter (b.anchorFile · == file)

def anchorFiles (primary : Nat) (diags : List Diag) : List Nat :=
  diags.foldl (fun files d => if b.anchorFile d ∈ files then files else files ++ [b.anchorFile d]) [primary]

def uriOf (db : D) (src : Nat) : Option String :=
  (b.sourcePath db src).bind fun path => if path = "" then none else b.pathToUri path

def isSynced (s : Server D) (src : Nat) : Bool := (s.drafts[src]?.map (·.lspSynced)).getD false

def publishGroup (primarySrc primaryFile : Nat) (diags : List Diag) (s : Server D) (file : Nat) : Server D :=
  match if file = primaryFile then some primarySrc else b.fileSource s.db file with
  | none => s
  | some src =>
      if !isSynced s src then s
      else
        match uriOf b s.db src with
        | none => s
        | some uri => publishDiagnostics b src uri (collectFileDiags b diags file) s

def publishGrouped (primarySrc primaryFile : Nat) (diags : List Diag) (s : Server D) : Server D :=
  (anchorFiles b primaryFile diags).foldl (publishGroup b primarySrc primaryFile diags) s

def oredbTypecheck (src : Nat) (s : Server D) : Server D × Option Nat × List Diag :=
  ({ s with db := (b.compileFile s.db src).1 }, (b.compileFile s.db src).2)

def republish (exceptSrc : Option Nat) (curRev : Nat) (s : Server D) (i : Nat) : Server D :=
  match s.drafts[i]? with
  | none => s
  | some d =>
      if !d.lspSynced || exceptSrc = some i || (d.lastPublishedRevision = curRev && curRev ≠ 0) then s
      else
        let (s, file, diags) := oredbTypecheck b i s
        match file with
        | none => s
        | some file => publishGrouped b i file diags s

def republishAllOpen (exceptSrc : Option Nat) (s : Server D) : Server D :=
  if s.clientUsesPull then
    if s.clientSupportsRefresh then sendServerRequest "workspace/diagnostic/refresh" s else s
  else (List.range s.drafts.length).foldl (republish b exceptSrc (b.currentRevision s.db)) s

end Diagnostics

section Documents

def ensureDraftSlot (src : Nat) (drafts : List Draft) : List Draft :=
  drafts ++ List.replicate (src + 1 - drafts.length) .empty

def syncDraft (src : Nat) (version : Int) (s : Server D) : Server D :=
  let drafts := ensureDraftSlot src s.drafts
  { s with drafts := drafts.modify src fun d => { d with lspSynced := true, version := version } }

def oredbDidOpen (uri : String) (version : Int) (text : String) (s : Server D) : Server D × Option Nat :=
  match b.uriToPath uri with
  | none => (s, none)
  | some path =>
      let (db, src) := b.didOpen s.db path text
      match src with
      | none => ({ s with db := db }, none)
      | some src => (syncDraft src version { s with db := db }, some src)

/-- A version below that of a document in sync is stale. -/
def oredbDidChange (uri : String) (version : Int) (text : String) (s : Server D) : Server D × Option Nat :=
  match b.uriToPath uri with
  | none => (s, none)
  | some path =>
      match b.lookupSourceByPath s.db path with
      | none => (s, none)
      | some src =>
          if (s.drafts[src]?.map fun d => d.lspSynced && decide (version < d.version)).getD false then (s, none)
          else (syncDraft src version { s with db := b.didChange s.db path text }, some src)

def oredbDidClose (uri : String) (s : Server D) : Server D :=
  match b.uriToPath uri with
  | none => s
  | some path =>
      match b.lookupSourceByPath s.db path with
      | none => s
      | some src => { s with drafts := s.drafts.modify src fun d => { d with lspSynced := false } }

/-- What follows an accepted text. -/
def publishEdited (src : Option Nat) (s : Server D) : Server D :=
  match src with
  | none => s
  | some src =>
      let (s, file, diags) := oredbTypecheck b src s
      match file with
      | none => s
      | some file =>
          republishAllOpen b (some src) (if s.clientUsesPull then s else publishGrouped b src file diags s)

def handleDidOpen (params : Option Json) (s : Server D) : Server D :=
  let td := item "textDocument" params
  if !hasObject td then s
  else
    match jsonStringOrNull "uri" td, jsonStringOrNull "text" td with
    | some uri, some text =>
        let (s, src) := oredbDidOpen b uri (jsonIntOrDefault "version" 0 td) text s
        publishEdited b src s
    | _, _ => s

def handleDidChange (params : Option Json) (s : Server D) : Server D :=
  let td := item "textDocument" params
  if !hasObject td then s
  else
    match jsonStringOrNull "uri" td, item "contentChanges" params with
    | some uri, some (.array changes) =>
        match jsonStringOrNull "text" changes.getLast? with
        | none => s
        | some text =>
            let (s, src) := oredbDidChange b uri (jsonIntOrDefault "version" 0 td) text s
            publishEdited b src s
    | _, _ => s

def handleDidClose (params : Option Json) (s : Server D) : Server D :=
  let td := item "textDocument" params
  if !hasObject td then s
  else
    match jsonStringOrNull "uri" td with
    | none => s
    | some uri => oredbDidClose b uri s

def watchedChange (db : D) (change : Json) : D :=
  match jsonStringOrNull "uri" (some change), item "type" (some change) with
  | some uri, some (.number type) =>
      match b.uriToPath uri with
      | none => db
      | some path =>
          if type = 2 then
            let (db, read) := b.didChangeExternal db path
            if read then db else b.didEvictSource db path
          else if type = 3 then b.didEvictSource db path
          else db
  | _, _ => db

def handleDidChangeWatchedFiles (params : Option Json) (s : Server D) : Server D :=
  match item "changes" params with
  | some (.array changes) => republishAllOpen b none { s with db := changes.foldl (watchedChange b) s.db }
  | _ => s

end Documents

section Requests

def positionRequest (answer : D → Option Nat → Int → Int → D × Json) (id params : Option Json) (s : Server D) :
    Server D :=
  let pos := item "position" params
  match jsonStringOrNull "uri" (item "textDocument" params) with
  | none => sendResult id .null s
  | some uri =>
      if !hasObject pos then sendResult id .null s
      else
        let line0 := jsonIntOrDefault "line" (-1) pos
        let char0 := jsonIntOrDefault "character" (-1) pos
        if line0 < 0 || char0 < 0 then sendResult id .null s
        else
          match b.uriToPath uri with
          | none => sendResult id .null s
          | some path =>
              match b.lookupSourceByPath s.db path with
              | none => sendResult id .null s
              | some src =>
                  let (s, file, _) := oredbTypecheck b src s
                  let (db, result) := answer s.db file line0 char0
                  sendResult id result { s with db := db }

def hoverJson : Option String → Json
  | none => .null
  | some value => .object [("contents", .object [("kind", .string "markdown"), ("value", .string value)])]

def handleHover : Option Json → Option Json → Server D → Server D :=
  positionRequest b fun db file line char =>
    ((b.hoverAt db file line char).1, hoverJson (b.hoverAt db file line char).2)

def completionJson (c : CompletionItem) : Json :=
  .object ([("label", .string c.label), ("kind", .number c.kind)] ++
    if c.detail ≠ "" then [("detail", .string c.detail)] else [])

def completionsJson (items : List CompletionItem) : Json :=
  if items = [] then .null else .array (items.map completionJson)

def handleCompletion : Option Json → Option Json → Server D → Server D :=
  positionRequest b fun db file line char =>
    ((b.completionsAt db file line char).1, completionsJson (b.completionsAt db file line char).2)

def positionJson0 (line col : Nat) : Json := .object [("line", .number line), ("character", .number col)]

def locationJson (db : D) (loc : IdeLocation) : Option Json :=
  (b.fileSource db loc.file).bind fun src => (b.sourcePath db src).bind fun path => (b.pathToUri path).map fun uri =>
    .object [("uri", .string uri), ("range", .object [("start", positionJson0 loc.lineStart loc.colStart),
      ("end", positionJson0 loc.lineEnd loc.colEnd)])]

def handleDefinition : Option Json → Option Json → Server D → Server D :=
  positionRequest b fun db file line char =>
    ((b.definitionAt db file line char).1,
      ((b.definitionAt db file line char).2.bind (locationJson b (b.definitionAt db file line char).1)).getD .null)

/-- A source without a draft slot faults. -/
def pullReport (id params : Option Json) (src : Nat) (file : Option Nat) (all : List Diag) (s : Server D) :
    Option (Server D) :=
  let diags := (file.map (collectFileDiags b all)).getD []
  let h := b.hashDiagList diags
  let rid := formatResultId (published h)
  match s.drafts[src]? with
  | none => none
  | some d =>
      let d := { d with lastPublishedRevision := b.currentRevision s.db }
      if jsonStringOrNull "previousResultId" params = some rid then
        some (sendResult id (.object [("kind", .string "unchanged"), ("resultId", .string rid)]) (s.setDraft src d))
      else
        some (sendResult id
          (.object [("kind", .string "full"), ("resultId", .string rid), ("items", buildDiagItemsArray b s.db diags)])
          (s.setDraft src { d with lastPublishedDiagHash := published h }))

def handleTextDocumentDiagnostic (id params : Option Json) (s : Server D) : Option (Server D) :=
  match jsonStringOrNull "uri" (item "textDocument" params) with
  | none => some (sendError id errInvalidParams "missing textDocument.uri" s)
  | some uri =>
      match b.uriToPath uri with
      | none => some (sendError id errInvalidParams "unparseable uri" s)
      | some path =>
          match b.lookupSourceByPath s.db path with
          | none =>
              some (sendResult id
                (.object [("kind", .string "full"), ("resultId", .string "0"), ("items", .array [])]) s)
          | some src =>
              let (s, file, all) := oredbTypecheck b src s
              pullReport b id params src file all s

/-- The value of the first entry with the URI. -/
def workspacePullPrevId (prevIds : Option Json) (uri : String) : Option String :=
  match prevIds with
  | some (.array entries) =>
      (entries.find? fun e => e.isObject && jsonStringOrNull "uri" (some e) == some uri).bind fun e =>
        jsonStringOrNull "value" (some e)
  | _ => none

/-- The report of one document: streamed, or added to `items`. -/
def workspaceReport (prevIds token : Option Json) (curRev : Nat) (s : Server D × List Json) (i : Nat) :
    Server D × List Json :=
  match s.1.drafts[i]? with
  | none => s
  | some d =>
      if !d.lspSynced then s
      else
        match uriOf b s.1.db i with
        | none => s
        | some uri =>
            let (srv, file, all) := oredbTypecheck b i s.1
            let diags := (file.map (collectFileDiags b all)).getD []
            let h := b.hashDiagList diags
            let rid := formatResultId (published h)
            let d := { d with lastPublishedRevision := curRev }
            let same := workspacePullPrevId prevIds uri == some rid
            let entry : Json := .object (
              [("uri", .string uri), ("version", .number d.version), ("resultId", .string rid)] ++
              if same then [("kind", .string "unchanged")]
              else [("kind", .string "full"), ("items", buildDiagItemsArray b srv.db diags)])
            let srv := srv.setDraft i (if same then d else { d with lastPublishedDiagHash := published h })
            if token.isSome then (sendProgress token (.object [("items", .array [entry])]) srv, s.2)
            else (srv, s.2 ++ [entry])

def handleWorkspaceDiagnostic (id params : Option Json) (s : Server D) : Server D :=
  let reports := (List.range s.drafts.length).foldl
    (workspaceReport b (item "previousResultIds" params) (item "partialResultToken" params)
      (b.currentRevision s.db)) (s, [])
  sendResult id (.object [("items", .array reports.2)]) reports.1

end Requests

/-- How the loop goes on. -/
inductive Next
  | proceed
  | exit
  | abort
  deriving DecidableEq, Repr

/-- What a request of a method gets when it is past the lifecycle checks. -/
def answer (method : String) (id params : Option Json) (s : Server D) : Option (Server D) :=
  if method = "textDocument/hover" then some (handleHover b id params s)
  else if method = "textDocument/completion" then some (handleCompletion b id params s)
  else if method = "textDocument/definition" then some (handleDefinition b id params s)
  else if method = "textDocument/diagnostic" then handleTextDocumentDiagnostic b id params s
  else if method = "workspace/diagnostic" then some (handleWorkspaceDiagnostic b id params s)
  else some (sendError id errMethodNotFound method s)

def dispatchReady (method : String) (id params : Option Json) (s : Server D) : Option (Server D) :=
  if method = "initialize" then some (handleInitialize id params s)
  else if method = "initialized" then some s
  else if method = "shutdown" then some (handleShutdown id s)
  else if method = "textDocument/didOpen" then some (handleDidOpen b params s)
  else if method = "textDocument/didChange" then some (handleDidChange b params s)
  else if method = "textDocument/didClose" then some (handleDidClose b params s)
  else if method = "workspace/didChangeWatchedFiles" then some (handleDidChangeWatchedFiles b params s)
  else if id.isSome then answer b method id params s
  else some s

/-- An error for a request, and nothing for a notification. -/
def refuse (id : Option Json) (code : Int) (message : String) (s : Server D) : Server D :=
  if id.isSome then sendError id code message s else s

def isResponse (msg : Json) : Bool := (msg.getObjectItem "result").isSome || (msg.getObjectItem "error").isSome

def methodOf (msg : Json) : Option String := jsonStringOrNull "method" (some msg)

/-- One message. A fault is absent. -/
def dispatch (msg : Json) (s : Server D) : Option (Next × Server D) :=
  let id := msg.getObjectItemCaseSensitive "id"
  match methodOf msg with
  | none => some (.proceed, if isResponse msg then s else refuse id errInvalidRequest "missing method" s)
  | some method =>
      if method = "exit" then some (if s.proto = .shutdown then .exit else .abort, s)
      else if s.proto = .preInit ∧ method ≠ "initialize" then
        some (.proceed, refuse id errServerNotInitialized "server has not been initialized" s)
      else if s.proto = .shutdown then some (.proceed, refuse id errInvalidRequest "server has been shut down" s)
      else (dispatchReady b method id (msg.getObjectItemCaseSensitive "params") s).map (Next.proceed, ·)

end Ore.LspServer
