import SemanticIndex.Url.Basic

namespace SemanticIndex.Url

open Text

def isDot (segment : List Char) : Bool :=
  [['.'], ['%', '2', 'e']].contains (segment.map Char.toLower)

def isDoubleDot (segment : List Char) : Bool :=
  [['.', '.'], ['.', '%', '2', 'e'], ['%', '2', 'e', '.'], ['%', '2', 'e', '%', '2', 'e']].contains
    (segment.map Char.toLower)

def isDrive : List Char → Bool
  | [c, d] => c.isAlpha && (d == ':' || d == '|')
  | _ => false

def shorten : List (List Char) → List (List Char)
  | [] => []
  | last :: before => if isDrive last then last :: before else before

def opensDrive (family : Family) (passed : List (List Char)) (segment : List Char) : Bool :=
  family == .file && passed.isEmpty && isDrive segment

def withColon (segment : List Char) : List Char := segment.take 1 ++ [':']

structure Walked where
  passed : List (List Char)
  drive : Bool

def walk (family : Family) (w : Walked) : List (List Char) → Walked
  | [] => w
  | segment :: rest =>
      let isLast := rest.isEmpty
      if isDoubleDot segment then
        let passed := shorten w.passed
        walk family ⟨if isLast then [] :: passed else passed, w.drive⟩ rest
      else if isDot segment then
        walk family ⟨if isLast then [] :: w.passed else w.passed, w.drive⟩ rest
      else if opensDrive family w.passed segment then
        walk family ⟨withColon segment :: w.passed, true⟩ rest
      else walk family ⟨segment :: w.passed, w.drive⟩ rest

def segments (family : Family) (text : List Char) : List (List Char) :=
  let text := if family.isSpecial then replaceChar '\\' '/' text else text
  let text := (after? ['/'] text).getD text
  (splitOn '/' text).map (percentEncode pathSet)

def readPath (family : Family) (text : List Char) : String × Bool :=
  let w := walk family ⟨[], false⟩ (segments family text)
  let path := '/' :: List.intercalate ['/'] w.passed.reverse
  let path := if family == .file then '/' :: path.dropWhile (· == '/') else path
  (String.ofList path, w.drive)

end SemanticIndex.Url
