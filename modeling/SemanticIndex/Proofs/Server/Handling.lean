import SemanticIndex.Server.Lifecycle

namespace SemanticIndex.Handling

open Server

inductive Call where
  | request (method : String) (params : Json)
  | notification (method : String) (params : Json)

inductive Stage where
  | received
  | refused (fault : Rpc.Fault)
  | dropped
  | claimed (client : Client)
  | configured (root : Option String) (config : Config)
  | restored (root : Option String) (config : Config)
  | installed (root : Option String)
  | serving (w : Workspace) (r : Request)
  | stopping (w : Workspace)
  | answered (answer : Rpc.Answer)
  | hearing (notice : Notice)
  | heard

def Stage.answer? : Stage → Option Rpc.Answer
  | .refused fault => some (.refused fault)
  | .answered answer => some answer
  | _ => none

def enter (readers : Readers) (v : Server) : Call → Stage
  | .request method params =>
      if method = "initialize" then
        match readers.client params with
        | .error message => .refused (.invalidParams message)
        | .ok c =>
            if v.claimed then .refused (.invalidRequest "Server is already initialized")
            else .claimed c
      else
        match v.workspace with
        | none => .refused .notInitialized
        | some w =>
            if v.stopped then .refused (.invalidRequest "Server is shutting down")
            else
              match Request.of readers method params with
              | .error fault => .refused fault
              | .ok r => .serving w r
  | .notification method params =>
      if v.workspace.isNone then .dropped
      else
        match Notice.of? readers method params with
        | none => .dropped
        | some notice => .hearing notice

def claiming (v : Server) : Stage → Server
  | .claimed _ => { v with claimed := true }
  | _ => v

def configOf (h : ServerHost) : Option String → Config
  | some root => Config.ofProject h.disk root
  | none => h.server.defaults

def withIndexer (h : ServerHost) (x : Indexer) : ServerHost :=
  { h with server := { h.server with indexer := x } }

def withRepository (h : ServerHost) (r : Repository) : ServerHost :=
  withIndexer h { h.server.indexer with repository := r }

def install (h : ServerHost) (root : Option String) (config : Config) : Stage × ServerHost :=
  if h.server.workspace.isSome then
    (.answered (.refused (.invalidRequest "Server is already initialized")), h)
  else
    let w : Workspace := ⟨config, root.bind (Package.load? h.disk), storeOf config root⟩
    let x : Indexer := ⟨h.server.indexer.repository, .empty⟩
    (.installed root, { h with server := { h.server with workspace := some w, indexer := x } })

def launched (root : Option String) (r : Repository) : Repository :=
  if (root.bind uriOfPath?).isSome then r.beginIndexing else r.markComplete

inductive Acts (readers : Readers) (call : Call) :
    Stage → ServerHost → Stage → ServerHost → Prop where
  | enter {h : ServerHost} : Acts readers call .received h (enter readers h.server call)
      { h with server := claiming h.server (enter readers h.server call) }
  | configure {h : ServerHost} {c : Client} : Acts readers call (.claimed c) h
      (.configured (Client.rootPath? c) (configOf h (Client.rootPath? c))) h
  | restore {h : ServerHost} {root : Option String} {config : Config} :
      Acts readers call (.configured root config) h (.restored root config)
        (withRepository h (restoreFrom h.disk (storeOf config root) h.server.indexer.repository))
  | install {h : ServerHost} {root : Option String} {config : Config} :
      Acts readers call (.restored root config) h (install h root config).1 (install h root config).2
  | launch {h : ServerHost} {root : Option String} :
      Acts readers call (.installed root) h (.answered (.result greeting))
        (withRepository h (launched root h.server.indexer.repository))
  | stop {h : ServerHost} {w : Workspace} : Acts readers call (.serving w .shutdown) h (.stopping w)
      { h with server := { h.server with stopped := true } }
  | save {h : ServerHost} {w : Workspace} (now : Timestamp) :
      Acts readers call (.stopping w) h (.answered (.result .null)) { h with disk := keep now h w }
  | serve {h : ServerHost} {w : Workspace} {r : Request} (hr : r ≠ .shutdown) (answer : Rpc.Answer)
      (x : Indexer) : Acts readers call (.serving w r) h (.answered answer) (withIndexer h x)
  | hear {h : ServerHost} {notice : Notice} (x : Indexer) :
      Acts readers call (.hearing notice) h .heard (withIndexer h x)

structure Task where
  call : Call
  stage : Stage

structure State where
  host : ServerHost
  tasks : List Task

def start (defaults : Config) (disk : FileTree) : State := ⟨⟨.start defaults, disk⟩, []⟩

inductive Event where
  | arrive (call : Call)
  | turn (k : Nat)
  | crash (k : Nat)
  | elsewhere
  | files

inductive Step (readers : Readers) : Event → State → State → Prop where
  | arrive {s : State} (call : Call) :
      Step readers (.arrive call) s { s with tasks := s.tasks ++ [⟨call, .received⟩] }
  | turn {s : State} {k : Nat} {t : Task} {stage : Stage} {h : ServerHost}
      (ht : s.tasks[k]? = some t) (hacts : Acts readers t.call t.stage s.host stage h) :
      Step readers (.turn k) s ⟨h, s.tasks.set k ⟨t.call, stage⟩⟩
  | crash {s : State} {k : Nat} {call : Call} {root : Option String} {config : Config}
      (ht : s.tasks[k]? = some ⟨call, .configured root config⟩)
      (hkept : (storeOf config root).isSome = true) (r : Repository) (cause : String) :
      Step readers (.crash k) s
        ⟨withRepository { s.host with server := { s.host.server with claimed := false } } r,
          s.tasks.set k
            ⟨call, .answered (.refused (.internal ("Snapshot restore failed: " ++ cause)))⟩⟩
  | elsewhere {s : State} (hworkspace : s.host.server.workspace.isSome = true) (x : Indexer) :
      Step readers .elsewhere s { s with host := withIndexer s.host x }
  | files {s : State} (disk : FileTree) :
      Step readers .files s { s with host := { s.host with disk := disk } }

inductive Runs (readers : Readers) : List Event → State → State → Prop where
  | nil {s : State} : Runs readers [] s s
  | cons {e : Event} {es : List Event} {s p q : State} (hstep : Step readers e s p)
      (hrest : Runs readers es p q) : Runs readers (e :: es) s q

def Calm (events : List Event) : Prop := ∀ k, Event.crash k ∉ events

theorem Calm.tail {e : Event} {es : List Event} (h : Calm (e :: es)) : Calm es :=
  fun k hk => h k (List.mem_cons_of_mem e hk)

theorem Calm.head {e : Event} {es : List Event} (h : Calm (e :: es)) (k : Nat) : e ≠ .crash k :=
  fun he => h k (he ▸ List.mem_cons_self)

end SemanticIndex.Handling
