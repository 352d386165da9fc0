import Std.Data.ExtTreeMap
import SemanticIndex.Files.Path
import SemanticIndex.Snapshot.Tables
import SemanticIndex.Text.Utf8

namespace SemanticIndex

open Std

inductive Content where
  | bytes (data : List UInt8)
  | database (tables : Tables)
  deriving DecidableEq, Repr

inductive Entry where
  | directory
  | file (content : Content)
  deriving DecidableEq, Repr

def Entry.content? : Entry → Option Content
  | .directory => none
  | .file content => some content

structure FileTree where
  entries : ExtTreeMap String Entry

namespace FileTree

def empty : FileTree := ⟨∅⟩

def at? (t : FileTree) (parts : List String) : Option Entry :=
  if parts.isEmpty then some .directory else t.entries[Path.ofComponents parts]?

def isFileAt (t : FileTree) (parts : List String) : Bool :=
  match t.at? parts with
  | some (.file _) => true
  | _ => false

def isDirectoryAt (t : FileTree) (parts : List String) : Bool :=
  t.at? parts == some .directory

def entry? (t : FileTree) (path : String) : Option Entry :=
  if (Path.passed path).all t.isDirectoryAt then
    (t.at? (Path.components path)).filter fun e => e == .directory || Path.endsInName path
  else none

def content? (t : FileTree) (path : String) : Option Content :=
  (t.entry? path).bind Entry.content?

def read? (t : FileTree) (path : String) : Option (List UInt8) :=
  match t.content? path with
  | some (.bytes data) => some data
  | _ => none

def readText? (t : FileTree) (path : String) : Option String :=
  ((t.read? path).bind Text.decode?).map String.ofList

def isFile (t : FileTree) (path : String) : Bool := (t.content? path).isSome

def isPresent (t : FileTree) (path : String) : Bool := (t.entry? path).isSome

def put (t : FileTree) (parts : List String) (e : Entry) : FileTree :=
  ⟨t.entries.insert (Path.ofComponents parts) e⟩

def erase (t : FileTree) (parts : List String) : FileTree :=
  ⟨t.entries.erase (Path.ofComponents parts)⟩

def makeDirectories (t : FileTree) : List (List String) → Bool × FileTree
  | [] => (true, t)
  | place :: rest =>
      match t.at? place with
      | some .directory => t.makeDirectories rest
      | some (.file _) => (false, t)
      | none => (t.put place .directory).makeDirectories rest

def write (t : FileTree) (path : String) (content : Content) : FileTree :=
  (t.makeDirectories (Path.passed path)).2.put (Path.components path) (.file content)

def makeDirectory (t : FileTree) (path : String) : FileTree :=
  (t.makeDirectories (Path.passed path ++ [Path.components path])).2

def unlink (t : FileTree) (path : String) : FileTree :=
  if t.isFile path then t.erase (Path.components path) else t

def canonical? (t : FileTree) (path : String) : Option String :=
  if Path.isAbsolute path && t.isPresent path then some (Path.normal path) else none

def files (t : FileTree) : List String :=
  t.entries.toList.filterMap fun (path, e) => match e with
    | .file _ => some path
    | .directory => none

end FileTree

end SemanticIndex
