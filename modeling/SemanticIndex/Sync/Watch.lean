import SemanticIndex.Files.Exclusion
import SemanticIndex.Sync.Indexer
import SemanticIndex.Url.File

namespace SemanticIndex

inductive Change where
  | written
  | removed
  | other
  deriving DecidableEq, Repr

structure Watch where
  root : String
  exclude : List String
  deriving DecidableEq, Repr

namespace Watch

variable {ε : Type}

def uri? (w : Watch) (accepts : String → Bool) (path : String) : Option String :=
  if isExcluded w.exclude (Path.relativeTo w.root path) then none
  else (uriOfPath? path).filter accepts

def follow (w : Watch) (services : Services ε) (change : Change) (x : Indexer) (path : String) :
    Indexer :=
  match w.uri? services.accepts path with
  | none => x
  | some uri =>
      if x.documents.isOpen uri then x
      else
        match change with
        | .written => (x.index services uri).2
        | .removed => x.remove uri
        | .other => x

def followAll (w : Watch) (services : Services ε) (change : Change) (paths : List String)
    (x : Indexer) : Indexer :=
  paths.foldl (w.follow services change) x

end Watch

end SemanticIndex
