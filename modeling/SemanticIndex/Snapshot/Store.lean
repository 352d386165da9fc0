import SemanticIndex.Files.FileTree
import SemanticIndex.Snapshot.Load

namespace SemanticIndex

structure SnapshotStore where
  path : String
  deriving DecidableEq, Repr

inductive SaveError where
  | directories
  | leftover
  | remnant
  | journal
  | duplicateUri
  | move
  deriving DecidableEq, Repr

namespace SnapshotStore

def parts (s : SnapshotStore) : List String := Path.components s.path

def isPresent (s : SnapshotStore) (t : FileTree) : Bool := t.isFile s.path

def directories (s : SnapshotStore) : List (List String) := Path.passed s.path

def draft (s : SnapshotStore) : List String :=
  if (Path.literal s.path).getLast?.any Path.isUpward then s.parts
  else Path.withExtension s.parts "tmp"

def journal (s : SnapshotStore) : List String := Path.withEnding s.draft "-journal"

def writeAhead (s : SnapshotStore) : List String := Path.withEnding s.draft "-wal"

def load (s : SnapshotStore) (t : FileTree) : Except LoadError DatedSnapshot :=
  match t.content? s.path with
  | none => .error .missing
  | some (.bytes _) => .error (.corrupt .unreadable)
  | some (.database tables) => tables.load

def prepare (s : SnapshotStore) (t : FileTree) : Except SaveError Unit × FileTree :=
  match t.makeDirectories s.directories with
  | (false, t) => (.error .directories, t)
  | (true, t) =>
      match t.at? s.draft with
      | none => (.ok (), t)
      | some (.file _) => (.ok (), t.erase s.draft)
      | some .directory => (.error .leftover, t)

-- A database that is new takes what stands beside it under its companions' names for remnants. A file
-- without bytes counts as none.
def dropRemnant (t : FileTree) (place : List String) : FileTree :=
  match t.at? place with
  | some (.file content) => if content = .bytes [] then t else t.erase place
  | _ => t

def openDraft (s : SnapshotStore) (t : FileTree) : Except SaveError Unit × FileTree :=
  let t := dropRemnant (t.put s.draft (.file (.bytes []))) s.journal
  if t.isDirectoryAt s.writeAhead then (.error .remnant, t)
  else
    let t := dropRemnant t s.writeAhead
    if t.isDirectoryAt s.journal then (.error .journal, t) else (.ok (), t.erase s.journal)

def urisDistinct (files : List File) : Bool :=
  decide (files.map File.uri).Nodup

def save (s : SnapshotStore) (t : FileTree) (snapshot : DatedSnapshot) :
    Except SaveError Unit × FileTree :=
  match s.prepare t with
  | (.error e, t) => (.error e, t)
  | (.ok (), t) =>
      match s.openDraft t with
      | (.error e, t) => (.error e, t)
      | (.ok (), t) =>
          if !urisDistinct snapshot.files then
            (.error .duplicateUri, t.put s.draft (.file (.database .fresh)))
          else
            let t := t.put s.draft (.file (.database (.ofSnapshot snapshot)))
            if t.isDirectoryAt s.parts || !Path.endsInName s.path then (.error .move, t)
            else (.ok (), (t.erase s.draft).put s.parts (.file (.database (.ofSnapshot snapshot))))

end SnapshotStore

end SemanticIndex
