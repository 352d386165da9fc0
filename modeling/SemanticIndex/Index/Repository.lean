import SemanticIndex.Index.Channel
import SemanticIndex.Index.Lookup

namespace SemanticIndex

inductive IndexStatus where
  | notStarted
  | indexing
  | complete
  deriving DecidableEq, Repr

inductive IndexEvent where
  | added (fqn : String)
  | complete
  deriving DecidableEq, Repr

def snapshotVersion : Nat := 1

structure Snapshot where
  version : Nat
  files : List File
  deriving DecidableEq, Repr

structure Repository where
  state : IndexState
  status : IndexStatus
  channel : Channel IndexEvent

namespace Repository

def empty : Repository := ⟨.empty, .notStarted, .empty⟩

def announce (r : Repository) (names : List String) : Repository :=
  { r with channel := r.channel.sendAll (names.map .added) }

def upsert (r : Repository) (f : File) : Repository :=
  { r with state := r.state.replace f }.announce (r.state.replaceChanges f)

def remove (r : Repository) (uri : String) : Repository :=
  { r with state := r.state.remove uri }.announce (r.state.removeChanges uri)

def markVerified (r : Repository) (uri : String) : Repository :=
  { r with state := r.state.markVerified uri }

def beginIndexing (r : Repository) : Repository :=
  if r.status = .notStarted then { r with status := .indexing } else r

def markComplete (r : Repository) : Repository :=
  if r.status = .complete then r
  else { r with status := .complete, channel := r.channel.send .complete }

def snapshot (r : Repository) : Snapshot :=
  ⟨snapshotVersion, r.state.files⟩

def stateOf (s : Snapshot) : IndexState :=
  if s.version = snapshotVersion then .ofFiles s.files else .empty

def restore (r : Repository) (s : Snapshot) : Repository :=
  { r with state := stateOf s }

def ofSnapshot (s : Snapshot) : Repository := empty.restore s

end Repository

end SemanticIndex
