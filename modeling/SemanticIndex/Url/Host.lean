import SemanticIndex.Text.Lowercase
import SemanticIndex.Text.Search
import SemanticIndex.Url.Percent
import SemanticIndex.Url.Punycode

namespace SemanticIndex.Url

open Text

inductive Host where
  | domain (name : String)
  | ipv4 (address : Nat)
  | ipv6 (pieces : List Nat)
  deriving DecidableEq, Repr

def number? (base : Nat) (digits : List Char) : Option Nat :=
  digits.foldlM (fun n c =>
    match hexValue? (UInt8.ofNat (min c.toNat 255)) with
    | some d => if d < base then some (n * base + d) else none
    | none => none) 0

def ipv4Number? (part : List Char) : Option Nat :=
  match part with
  | [] => none
  | '0' :: 'x' :: digits => number? 16 digits
  | '0' :: 'X' :: digits => number? 16 digits
  | '0' :: c :: digits => number? 8 (c :: digits)
  | part => number? 10 part

def dotted (name : List Char) : List (List Char) :=
  let parts := splitOn '.' name
  if parts.length > 1 && parts.getLastD [] == [] then parts.dropLast else parts

def endsInNumber (name : List Char) : Bool :=
  let last := (dotted name).getLastD []
  (!last.isEmpty && last.all Char.isDigit) || (ipv4Number? last).isSome

def ipv4? (name : List Char) : Option Nat :=
  let parts := dotted name
  if parts.length > 4 then none
  else
    match parts.mapM ipv4Number? with
    | none => none
    | some numbers =>
        let front := numbers.dropLast
        let last := numbers.getLastD 0
        if front.any (255 < ·) || Nat.pow 256 (4 - front.length) ≤ last then none
        else some (front.zipIdx.foldl (fun n (part, i) => n + part * Nat.pow 256 (3 - i)) last)

def ipv4Text (address : Nat) : String :=
  ".".intercalate ([3, 2, 1, 0].map fun i => toString (address / Nat.pow 256 i % 256))

def strictByte? (part : List Char) : Option Nat :=
  match part with
  | [] => none
  | '0' :: _ :: _ => none
  | part => (number? 10 part).filter (· ≤ 255)

def ipv6Piece? (last : Bool) (piece : List Char) : Option (List Nat) :=
  if last && piece.contains '.' then
    match (splitOn '.' piece).mapM strictByte? with
    | some [a, b, c, d] => some [a * 256 + b, c * 256 + d]
    | _ => none
  else if piece.isEmpty || piece.length > 4 then none
  else (number? 16 piece).map fun n => [n]

def ipv6Pieces? (isEnd : Bool) (text : List Char) : Option (List Nat) :=
  if text.isEmpty then some []
  else
    let pieces := splitOn ':' text
    (pieces.zipIdx.mapM fun (p, i) => ipv6Piece? (isEnd && i + 1 == pieces.length) p).map List.flatten

def ipv6? (text : List Char) : Option (List Nat) :=
  match find? [':', ':'] text with
  | some (front, rest) =>
      (ipv6Pieces? false front).bind fun a =>
        (ipv6Pieces? true (rest.drop 2)).bind fun b =>
          if a.length + b.length ≤ 7 then some (a ++ List.replicate (8 - a.length - b.length) 0 ++ b)
          else none
  | none =>
      if text.isEmpty then none else (ipv6Pieces? true text).filter (·.length == 8)

def longestZeros : (place : Nat) → List Nat → Nat × Nat
  | _, [] => (0, 0)
  | place, n :: rest =>
      let here := ((n :: rest).takeWhile (· == 0)).length
      let best := longestZeros (place + 1) rest
      if here ≥ best.2 then (place, here) else best

def hexText (n : Nat) : String := String.ofList (Nat.toDigits 16 n)

def ipv6Text (pieces : List Nat) : String :=
  let (place, count) := longestZeros 0 pieces
  let spell (ns : List Nat) := ":".intercalate (ns.map hexText)
  if count < 2 then spell pieces
  else spell (pieces.take place) ++ "::" ++ spell (pieces.drop (place + count))

def Host.text : Host → String
  | .domain name => name
  | .ipv4 address => ipv4Text address
  | .ipv6 pieces => "[" ++ ipv6Text pieces ++ "]"

def isForbidden (c : Char) : Bool :=
  c.toNat ≤ 32 || c.toNat == 127
    || ['%', '#', '/', ':', '<', '>', '?', '@', '[', '\\', ']', '^', '|'].contains c

def domain? (text : List Char) : Option (List Char) :=
  (decode? (percentDecode text)).bind fun name =>
    let name := (lower (String.ofList name)).toList
    if name.isEmpty || name.any isForbidden then none
    else some (List.intercalate ['.'] ((splitOn '.' name).map Punycode.label))

def bracketed? (text : List Char) : Option Host :=
  (before? [']'] (text.drop 1)).bind fun inner => (ipv6? inner).map Host.ipv6

def Host.ofText? (text : List Char) : Option Host :=
  if startsWith ['['] text then bracketed? text
  else
    (domain? text).bind fun name =>
      if endsInNumber name then (ipv4? name).map .ipv4 else some (.domain (String.ofList name))

def Host.ofUnknownText? (text : List Char) : Option Host :=
  if startsWith ['['] text then bracketed? text
  else if text.any fun c =>
      c.toNat == 0 || [' ', '#', '/', ':', '<', '>', '?', '@', '[', '\\', ']', '^', '|'].contains c
    then none
  else some (.domain (String.ofList (percentEncode controlSet text)))

end SemanticIndex.Url
