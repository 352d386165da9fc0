import SemanticIndex.Config.Basic
import SemanticIndex.Snapshot.Store

namespace SemanticIndex

inductive Command where
  | index (rebuild : Bool)
  | stats (verbose : Bool)
  | query (kind target format : String)
  deriving DecidableEq, Repr

namespace Command

inductive Failure where
  | unknownFormat (format : String)
  | noProject (project : String)
  | noIndex (path root : String)
  | badIndex (path : String)
  | unknownQuery (kind : String)
  | notSaved (error : SaveError) (path : String)
  deriving DecidableEq, Repr

def saveMessage (path : String) : SaveError → String
  | .directories => "Failed to create " ++ Path.parentText path
  | .leftover => "Is a directory (os error 21)"
  | .remnant => "disk I/O error"
  | .journal => "unable to open database file"
  | .duplicateUri => "UNIQUE constraint failed: files.uri"
  | .move => "Failed to move snapshot into " ++ path

def Failure.message : Failure → String
  | .unknownFormat format => "Unknown format: " ++ format ++ " (expected json or text)"
  | .noProject project => "Project directory not found: " ++ project
  | .noIndex path root =>
      "No index at " ++ path ++ ". Run 'phpls index --project " ++ root ++ "' first."
  | .badIndex path => "Cannot read index " ++ path
  | .unknownQuery kind => "Unknown query type: " ++ kind ++ " (expected definition or references)"
  | .notSaved error path => saveMessage path error

structure Transcript where
  lines : List String
  failure : Option Failure
  deriving DecidableEq, Repr

def savedIndex (disk : FileTree) (config : Config) (root : String) :
    Except Failure (SnapshotStore × DatedSnapshot) :=
  let store : SnapshotStore := ⟨config.cachePath root⟩
  match store.load disk with
  | .ok snapshot => .ok (store, snapshot)
  | .error .missing => .error (.noIndex store.path root)
  | .error _ => .error (.badIndex store.path)

end Command

end SemanticIndex
