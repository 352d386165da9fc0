import SemanticIndex.Files.FileTree
import SemanticIndex.Sync.Indexer
import SemanticIndex.Sync.Php
import SemanticIndex.Url.File

namespace SemanticIndex

inductive ReadError where
  | notFile (uri : String)
  | unreadable (path : String)
  deriving DecidableEq, Repr

def ReadError.message : ReadError → String
  | .notFile uri => "Not a file URI: " ++ uri
  | .unreadable path => "Failed to read " ++ path

def FileTree.text (t : FileTree) (uri : String) : Except ReadError String :=
  match pathOfUri? uri with
  | none => .error (.notFile uri)
  | some path =>
      match t.read? path with
      | none => .error (.unreadable path)
      | some bytes => .ok (String.ofList (Text.decodeLossy bytes))

def Services.ofDisk (grammar : Grammar) (t : FileTree) : Services ReadError where
  accepts := Php.accepts
  parse := Php.parse grammar
  read := t.text
  digest := id

end SemanticIndex
