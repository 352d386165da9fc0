import SemanticIndex.Resolve.Referenced

namespace SemanticIndex.Collect

open Text Resolve

def dropMargin (line : List Char) : List Char :=
  let line := trim line
  let line := (after? ['*'] line).getD line
  trimEnd ((after? [' '] line).getD line)

def dropEmptyEnds (lines : List (List Char)) : List (List Char) :=
  ((lines.dropWhile List.isEmpty).reverse.dropWhile List.isEmpty).reverse

def cleanComment (comment : List Char) : List Char :=
  let body := dropRepeatedEnd "*/".toList (dropRepeated "/**".toList comment)
  List.intercalate ['\n'] (dropEmptyEnds ((lines body).map dropMargin))

def documentation (t : Tree) (i : Nat) : Option String := do
  let anchor ← match t.kind i with
    | .propertyElement | .constElement => t.parent i
    | _ => some i
  let previous ← t.previousSibling anchor
  let comment := t.chars previous
  if t.kind previous == .comment && startsWith "/**".toList comment then
    let cleaned := cleanComment comment
    if cleaned.isEmpty then none else some (String.ofList cleaned)
  else none

def elementHeader (t : Tree) (i : Nat) (stop : Nat) : Option (List Char) := do
  let declaration ← t.parent i
  let first ← t.childOfKind declaration (t.kind i)
  let head ← slice? t.source (t.start declaration) (t.start first)
  let tail ← slice? t.source (t.start i) stop
  some (head ++ tail)

def header (t : Tree) (i : Nat) : Option (List Char) :=
  match t.kind i with
  | .propertyElement => elementHeader t i (t.stop (nameNode t i))
  | .constElement => elementHeader t i (t.stop i)
  | _ =>
      let stop := match t.childByField i .body with
        | some body => t.start body
        | none => t.stop i
      slice? t.source (t.start i) stop

def signature (t : Tree) (i : Nat) : Option String := do
  let raw ← header t i
  let trimmed := trim (dropWhileEnd (fun c => c == ';' || c == ',') (collapse raw))
  if trimmed.isEmpty then none else some (String.ofList trimmed)

end SemanticIndex.Collect
