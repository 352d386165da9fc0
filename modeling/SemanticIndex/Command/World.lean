import SemanticIndex.Files.FileTree
import SemanticIndex.Tree.Listing

namespace SemanticIndex

structure World where
  disk : FileTree
  known : List ParsedText

namespace World

def membersOf : Json → List (String × Json)
  | .object members => members
  | _ => []

def ofJson (j : Json) : World where
  disk := (membersOf ((j.get? "files").getD .null)).foldl
    (fun (t : FileTree) (path, content) =>
      t.write path (.bytes (Text.encode (content.string?.getD "")))) .empty
  known := (((j.get? "trees").bind Json.array?).getD []).map ParsedText.ofJson

def grammar (w : World) : String → Parse := grammarOf w.known

end World

end SemanticIndex
