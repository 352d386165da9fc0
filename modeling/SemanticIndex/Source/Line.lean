import SemanticIndex.Source.Position
import SemanticIndex.Text.Bytes

namespace SemanticIndex

open Text

structure Line where
  start : Nat
  rest : List Char
  deriving DecidableEq, Repr

namespace Line

def following (offset : Nat) : List Char → List Line
  | [] => []
  | c :: cs =>
      if c = '\n' then ⟨offset + c.utf8Size, cs⟩ :: following (offset + c.utf8Size) cs
      else following (offset + c.utf8Size) cs

def split (text : List Char) : List Line :=
  ⟨0, text⟩ :: following 0 text

def bytesTo (target : Nat) : (column : Nat) → List Char → Nat
  | _, [] => 0
  | column, c :: cs =>
      if target ≤ column ∨ c = '\n' then 0
      else c.utf8Size + bytesTo target (column + units c) cs

def column (l : Line) (n : Nat) : Nat :=
  match takeBytes? n l.rest with
  | some front => unitLength front
  | none => n

end Line

structure LineIndex where
  lines : List Line
  size : Nat

namespace LineIndex

def ofText (text : List Char) : LineIndex :=
  ⟨Line.split text, byteLength text⟩

def lineAt (offset : Nat) : (number : Nat) → Line → List Line → Nat × Line
  | number, l, [] => (number, l)
  | number, l, next :: rest =>
      if next.start ≤ offset then lineAt offset (number + 1) next rest else (number, l)

def position (index : LineIndex) (offset : Nat) : Position :=
  let offset := min offset index.size
  match index.lines with
  | [] => ⟨0, 0⟩
  | first :: rest =>
      let (number, l) := lineAt offset 0 first rest
      ⟨number.toUInt32, (l.column (offset - l.start)).toUInt32⟩

def offset? (index : LineIndex) (p : Position) : Option Nat :=
  (index.lines[p.line.toNat]?).map fun l => l.start + Line.bytesTo p.character.toNat 0 l.rest

end LineIndex

end SemanticIndex
