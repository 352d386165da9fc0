import SemanticIndex.Config.Basic
import SemanticIndex.Files.Discovery
import SemanticIndex.Rpc.Connection
import SemanticIndex.Server.Lookup
import SemanticIndex.Server.Package
import SemanticIndex.Server.Params
import SemanticIndex.Snapshot.Store
import SemanticIndex.Sync.Disk
import SemanticIndex.Sync.Sweep

namespace SemanticIndex

structure Workspace where
  config : Config
  package : Option Package
  store : Option SnapshotStore
  deriving DecidableEq, Repr

structure Server where
  defaults : Config
  indexer : Indexer
  workspace : Option Workspace
  claimed : Bool
  stopped : Bool

structure ServerHost where
  server : Server
  disk : FileTree

namespace Server

def start (defaults : Config) : Server := ⟨defaults, .empty, none, false, false⟩

def name : String := "phpls"

def version : String := "0.1.0"

def abilities : Json :=
  .object [("textDocumentSync", .nat 1), ("documentSymbolProvider", .bool true),
    ("definitionProvider", .bool true), ("referencesProvider", .bool true),
    ("hoverProvider", .bool true),
    ("completionProvider", .object [("triggerCharacters", .list .string [">", ":", "\\"])]),
    ("experimental", .object [("xdefinitionProvider", .bool true)])]

def greeting : Json :=
  .object [("capabilities", abilities),
    ("serverInfo", .object [("name", .string name), ("version", .string version)])]

def Client.rootPath? (c : Client) : Option String :=
  (c.root.or (c.folders.bind List.head?)).bind Url.path?

def storeOf (config : Config) (root : Option String) : Option SnapshotStore :=
  if config.cache.enabled then root.map fun r => ⟨config.cachePath r⟩ else none

def restoreFrom (disk : FileTree) (store : Option SnapshotStore) (r : Repository) : Repository :=
  match store with
  | none => r
  | some store =>
      match store.load disk with
      | .ok snapshot => r.restore snapshot.toSnapshot
      | .error _ => r

def sweepRoot (grammar : Grammar) (disk : FileTree) (config : Config) (root : Option String)
    (x : Indexer) : Indexer :=
  match root.bind uriOfPath? with
  | some uri =>
      let search : Search := ⟨config.indexing.glob, config.indexing.exclude⟩
      (x.sweep (Services.ofDisk grammar disk) (search.run disk uri)).indexer
  | none => { x with repository := x.repository.markComplete }

def begin (grammar : Grammar) (disk : FileTree) (s : Server) (c : Client) : Rpc.Answer × Server :=
  if s.claimed then (.refused (.invalidRequest "Server is already initialized"), s)
  else
    let root := Client.rootPath? c
    let config := match root with
      | some r => Config.ofProject disk r
      | none => s.defaults
    let store := storeOf config root
    let x : Indexer := ⟨restoreFrom disk store s.indexer.repository, .empty⟩
    (.result greeting,
     { s with
        claimed := true
        workspace := some ⟨config, root.bind (Package.load? disk), store⟩
        indexer := sweepRoot grammar disk config root x })

def keep (now : Timestamp) (h : ServerHost) (w : Workspace) : FileTree :=
  match w.store with
  | none => h.disk
  | some store => (store.save h.disk ⟨h.server.indexer.repository.snapshot, now⟩).2

def consult (services : Services ε) (w : Workspace) (x : Indexer) : Request → Json × Indexer
  | .shutdown => (.null, x)
  | .symbols uri => symbols services x uri
  | .definition cursor => definition services x cursor
  | .references search => references services x search
  | .hover cursor => hover services x cursor
  | .completion cursor =>
      let (list, x) := completion services x w.config.query.completionLimit cursor
      (list.toJson, x)
  | .symbolDefinition cursor => symbolDefinition services x (.option Package.toJson w.package) cursor

def serve (grammar : Grammar) (now : Timestamp) (h : ServerHost) (w : Workspace) (r : Request) :
    Json × ServerHost :=
  match r with
  | .shutdown => (.null, ⟨{ h.server with stopped := true }, keep now h w⟩)
  | r =>
      let (answer, x) := consult (Services.ofDisk grammar h.disk) w h.server.indexer r
      (answer, { h with server := { h.server with indexer := x } })

def request (readers : Readers) (grammar : Grammar) (now : Timestamp) (h : ServerHost)
    (method : String) (params : Json) : Rpc.Answer × ServerHost :=
  if method = "initialize" then
    match readers.client params with
    | .error message => (.refused (.invalidParams message), h)
    | .ok c =>
        let (answer, server) := h.server.begin grammar h.disk c
        (answer, { h with server := server })
  else
    match h.server.workspace with
    | none => (.refused .notInitialized, h)
    | some w =>
        if h.server.stopped then (.refused (.invalidRequest "Server is shutting down"), h)
        else
          match Request.of readers method params with
          | .error fault => (.refused fault, h)
          | .ok r =>
              let (answer, h) := serve grammar now h w r
              (.result answer, h)

def reindex (services : Services ε) (x : Indexer) (uri : String) : Indexer :=
  (x.index services uri).2

def takeFileChange (services : Services ε) (x : Indexer) (c : FileChange) : Indexer :=
  if x.documents.isOpen c.uri then x
  else if c.isDeletion then x.remove c.uri
  else reindex services x c.uri

def isOnDisk (disk : FileTree) (uri : String) : Bool :=
  (pathOfUri? uri).any disk.isFile

def takeNotice (services : Services ε) (disk : FileTree) (x : Indexer) : Notice → Indexer
  | .opened r => reindex services { x with documents := x.documents.put r.uri r.version r.text } r.uri
  | .changed r =>
      if x.documents.accepts r.uri r.version then
        reindex services { x with documents := x.documents.update r.uri r.version r.text } r.uri
      else x
  | .closed uri =>
      let x := { x with documents := x.documents.close uri }
      if isOnDisk disk uri then reindex services x uri else x.remove uri
  | .filesChanged changes => changes.foldl (takeFileChange services) x

def notify (readers : Readers) (grammar : Grammar) (h : ServerHost) (method : String)
    (params : Json) : ServerHost :=
  if h.server.workspace.isNone then h
  else
    match Notice.of? readers method params with
    | none => h
    | some notice =>
        let x := takeNotice (Services.ofDisk grammar h.disk) h.disk h.server.indexer notice
        { h with server := { h.server with indexer := x } }

def exitCode (h : ServerHost) : Nat := if h.server.stopped then 0 else 1

def handler (grammar : Grammar) (now : Timestamp) : Rpc.Handler ServerHost where
  request := request .standard grammar now
  notify := notify .standard grammar
  exitCode := exitCode

end Server

end SemanticIndex
