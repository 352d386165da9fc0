import SemanticIndex.Toml.Scalar

namespace SemanticIndex.Toml

open Text

def nestingLimit : Nat := 79

def skipBlank (cs : List Char) : List Char := cs.dropWhile isBlank

def lineEnd? : List Char → Option (List Char)
  | [] => some []
  | '\n' :: cs => some cs
  | '\r' :: '\n' :: cs => some cs
  | _ => none

def skipComment (cs : List Char) : List Char :=
  match cs with
  | '#' :: rest => rest.dropWhile isText
  | cs => cs

def endLine? (cs : List Char) : Option (List Char) := lineEnd? (skipComment (skipBlank cs))

def skipSpace : (comment : Bool) → List Char → Option (List Char)
  | _, [] => some []
  | _, '\n' :: cs => skipSpace false cs
  | _, '\r' :: '\n' :: cs => skipSpace false cs
  | true, c :: cs => if isText c then skipSpace true cs else none
  | false, c :: cs =>
      if isBlank c then skipSpace false cs
      else if c == '#' then skipSpace true cs
      else some (c :: cs)

def isBareKeyChar (c : Char) : Bool := c.isAlphanum || c == '-' || c == '_'

def simpleKey? (cs : List Char) : Option (String × List Char) :=
  match lineString? cs with
  | some found => some found
  | none =>
      let (word, rest) := cs.span isBareKeyChar
      if word.isEmpty then none else some (String.ofList word, rest)

def keyParts? : (fuel : Nat) → List Char → Option (List String × List Char)
  | 0, _ => none
  | fuel + 1, cs =>
      match simpleKey? (skipBlank cs) with
      | none => none
      | some (part, rest) =>
          match skipBlank rest with
          | '.' :: rest => (keyParts? fuel rest).map fun (parts, rest) => (part :: parts, rest)
          | rest => some ([part], rest)

def key? (cs : List Char) : Option ((List String × String) × List Char) :=
  (keyParts? nestingLimit cs).map fun (parts, rest) => ((parts.dropLast, parts.getLastD ""), rest)

mutual

def value? : (fuel depth : Nat) → List Char → Option (Toml × List Char)
  | 0, _, _ => none
  | fuel + 1, depth, cs =>
      match cs with
      | '"' :: _ => (string? cs).map fun (s, rest) => (.string s, rest)
      | '\'' :: _ => (string? cs).map fun (s, rest) => (.string s, rest)
      | '[' :: cs =>
          match depth with
          | 0 => none
          | depth + 1 => (items? fuel depth cs).map fun (items, rest) => (.array items, rest)
      | '\x7b' :: cs =>
          match depth with
          | 0 => none
          | depth + 1 =>
              match skipBlank cs with
              | '\x7d' :: rest => some (.inline .header [], rest)
              | cs => (pairs? fuel depth [] cs).map fun (ms, rest) => (.inline .header ms, rest)
      | cs => word? cs

def items? : (fuel depth : Nat) → List Char → Option (List Toml × List Char)
  | 0, _, _ => none
  | fuel + 1, depth, cs =>
      match skipSpace false cs with
      | none => none
      | some (']' :: rest) => some ([], rest)
      | some cs =>
          match value? fuel depth cs with
          | none => none
          | some (v, rest) =>
              match skipSpace false rest with
              | some (',' :: rest) => (items? fuel depth rest).map fun (vs, rest) => (v :: vs, rest)
              | some (']' :: rest) => some ([v], rest)
              | _ => none

def pairs? : (fuel depth : Nat) → Members → List Char → Option (Members × List Char)
  | 0, _, _, _ => none
  | fuel + 1, depth, ms, cs =>
      match key? cs with
      | some ((path, key), '=' :: rest) =>
          match value? fuel depth (skipBlank rest) with
          | none => none
          | some (v, rest) =>
              match assignInline path key v ms, skipBlank rest with
              | some ms, ',' :: rest => pairs? fuel depth ms rest
              | some ms, '\x7d' :: rest => some (ms, rest)
              | _, _ => none
      | _ => none

end

structure Reading where
  root : Members
  place : List String

def header? (r : Reading) (isRow : Bool) (path : List String) (key : String) : Option Reading :=
  (descend false (if isRow then openRow key else openTable key) path .header r.root).map fun root =>
    ⟨root, path ++ [key]⟩

def statement? (r : Reading) (cs : List Char) : Option (Reading × List Char) :=
  match cs with
  | '[' :: '[' :: cs =>
      match key? cs with
      | some ((path, key), ']' :: ']' :: rest) =>
          (header? r true path key).bind fun r => (endLine? rest).map fun rest => (r, rest)
      | _ => none
  | '[' :: cs =>
      match key? cs with
      | some ((path, key), ']' :: rest) =>
          (header? r false path key).bind fun r => (endLine? rest).map fun rest => (r, rest)
      | _ => none
  | cs =>
      match key? cs with
      | some ((path, key), '=' :: rest) =>
          match value? (2 * rest.length + 2) nestingLimit (skipBlank rest) with
          | none => none
          | some (v, rest) =>
              (descend false (assign path key v) r.place .header r.root).bind fun root =>
                (endLine? rest).map fun rest => (⟨root, r.place⟩, rest)
      | _ => none

def lines? : (fuel : Nat) → Reading → List Char → Option Members
  | 0, _, _ => none
  | fuel + 1, r, cs =>
      match skipBlank cs with
      | [] => some r.root
      | cs =>
          match endLine? cs with
          | some rest => lines? fuel r rest
          | none =>
              match statement? r cs with
              | none => none
              | some (r, rest) => lines? fuel r rest

def ofText? (text : String) : Option Members :=
  let cs := text.toList
  let cs := (after? ['\uFEFF'] cs).getD cs
  lines? (cs.length + 1) ⟨[], []⟩ cs

end SemanticIndex.Toml
