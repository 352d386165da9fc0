import SemanticIndex.Files.Exclusion
import SemanticIndex.Files.FileTree
import SemanticIndex.Glob.Match
import SemanticIndex.Url.File

namespace SemanticIndex

structure Search where
  glob : String
  exclude : List String
  deriving DecidableEq, Repr

namespace Search

def reaches (exclude : List String) (parts : List String) : Bool :=
  ((Path.above parts).all fun dir => !isExcluded exclude (Path.relativeText dir ++ "/"))
    && !isExcluded exclude (Path.relativeText parts)

def finds (exclude : List String) (glob : Glob) (parts : List String) : Bool :=
  (parts.isEmpty || reaches exclude parts)
    && glob.accepts (String.ofList (Text.replaceChar '\\' '/' (Path.relativeText parts).toList))

def opens (t : FileTree) (root : String) : Bool := t.isPresent root

def run (s : Search) (t : FileTree) (rootUri : String) : List String :=
  match pathOfUri? rootUri, Glob.ofString? s.glob with
  | some root, some glob =>
      if opens t root then
        t.files.filter (fun path =>
          match Path.below? (Path.components root) (Path.components path) with
          | some parts => finds s.exclude glob parts
          | none => false) |>.filterMap uriOfPath?
      else []
  | _, _ => []

end Search

end SemanticIndex
