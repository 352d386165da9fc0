import SemanticIndex.Files.FileTree
import SemanticIndex.Json.Fields

namespace SemanticIndex

structure Package where
  name : String
  version : Option String
  deriving DecidableEq, Repr

namespace Package

def fileName : String := "composer.json"

def ofText? (text : List Char) : Option Package :=
  match (Json.Raw.ofText? text).bind (·.fields? ["name", "version"]) with
  | some [some (.string (some name)), version] =>
      (Json.Raw.text? version).map fun version => ⟨name, version⟩
  | _ => none

def load? (t : FileTree) (directory : String) : Option Package :=
  (t.readText? (Path.join directory fileName)).bind fun text => ofText? text.toList

def toJson (p : Package) : Json :=
  .object (("name", .string p.name) :: match p.version with
    | some v => [("version", .string v)]
    | none => [])

end Package

end SemanticIndex
