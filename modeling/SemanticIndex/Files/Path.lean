import SemanticIndex.Text.Search

namespace SemanticIndex

open Text

namespace Path

def isIdle (piece : List Char) : Bool := piece.isEmpty || piece == ['.']

def isUpward (piece : List Char) : Bool := piece == ['.', '.']

def literal (path : String) : List (List Char) :=
  (splitOn '/' path.toList).filter fun piece => !isIdle piece

def step (place : List String) (piece : List Char) : List String :=
  if isUpward piece then place.dropLast else place ++ [String.ofList piece]

def components (path : String) : List String := (literal path).foldl step []

def passedFrom (place : List String) : List (List Char) → List (List String)
  | [] => []
  | piece :: rest => place :: passedFrom (step place piece) rest

def passed (path : String) : List (List String) := passedFrom [] (literal path)

def endsInName (path : String) : Bool :=
  (splitOn '/' path.toList).getLast?.any fun piece => !isIdle piece && !isUpward piece

def ofComponents (parts : List String) : String :=
  if parts.isEmpty then "/" else String.join (parts.map fun p => "/" ++ p)

def normal (path : String) : String := ofComponents (components path)

def isAbsolute (path : String) : Bool := startsWith ['/'] path.toList

def endsInSlash (path : String) : Bool := endsWith ['/'] path.toList

def join (base path : String) : String :=
  if isAbsolute path || base.isEmpty then path
  else if endsInSlash base then base ++ path
  else base ++ "/" ++ path

def above (parts : List String) : List (List String) :=
  (List.range parts.length).drop 1 |>.map parts.take

def stem (name : String) : String :=
  let cs := name.toList
  let tail := afterLast '.' cs
  let front := cs.take (cs.length - tail.length - 1)
  if tail.length = cs.length || front.isEmpty then name else String.ofList front

def withExtension (parts : List String) (extension : String) : List String :=
  match parts.getLast? with
  | none => parts
  | some name => parts.dropLast ++ [stem name ++ "." ++ extension]

def withEnding (parts : List String) (ending : String) : List String :=
  match parts.getLast? with
  | none => parts
  | some name => parts.dropLast ++ [name ++ ending]

def below? (root parts : List String) : Option (List String) :=
  match root, parts with
  | [], parts => some parts
  | _ :: _, [] => none
  | r :: root, p :: parts => if r = p then below? root parts else none

def relativeText (parts : List String) : String :=
  "/".intercalate parts

def afterRoot? (root : List (List Char)) : List (List Char) → Option (List (List Char))
  | [] => if root.isEmpty then some [] else none
  | piece :: rest =>
      if isIdle piece then afterRoot? root rest
      else
        match root with
        | [] => some (piece :: rest)
        | r :: root => if r = piece then afterRoot? root rest else none

def dropIdleEnd (pieces : List (List Char)) : List (List Char) :=
  (pieces.reverse.dropWhile isIdle).reverse

def relativeTo (root path : String) : String :=
  match afterRoot? (literal root) (splitOn '/' path.toList) with
  | some pieces =>
      if isAbsolute root == isAbsolute path then
        String.ofList (List.intercalate ['/'] (dropIdleEnd pieces))
      else path
  | none => path

def parentText (path : String) : String :=
  let pieces := dropIdleEnd (dropIdleEnd (splitOn '/' path.toList)).dropLast
  if pieces.isEmpty && isAbsolute path then "/"
  else String.ofList (List.intercalate ['/'] pieces)

end Path

end SemanticIndex
