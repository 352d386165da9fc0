import SemanticIndex.Text.Search

namespace SemanticIndex

open Text

inductive Exclusion where
  | directory (name : List Char)
  | ending (tail : List Char)
  | phrase (text : List Char)
  deriving DecidableEq, Repr

namespace Exclusion

def ofPattern (pattern : List Char) : Exclusion :=
  match before? ['/'] pattern with
  | some name => .directory name
  | none =>
      match (after? ['*', '*', '/'] pattern).bind (before? ['/', '*', '*']) with
      | some name => .directory name
      | none =>
          match after? ['*'] pattern with
          | some tail => .ending tail
          | none => .phrase pattern

def coversChars : Exclusion → List Char → Bool
  | .directory name, path =>
      startsWith (name ++ ['/']) path || contains ('/' :: (name ++ ['/'])) path
  | .ending tail, path => endsWith tail path
  | .phrase text, path => contains text path

def covers (e : Exclusion) (path : String) : Bool :=
  e.coversChars (replaceChar '\\' '/' path.toList)

end Exclusion

def isExcluded (patterns : List String) (path : String) : Bool :=
  patterns.any fun p => (Exclusion.ofPattern p.toList).covers path

end SemanticIndex
