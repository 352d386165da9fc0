import SemanticIndex.Text.Utf8

namespace SemanticIndex.Url

abbrev EncodeSet := UInt8 → Bool

def isAmong (marks : List Char) (b : UInt8) : Bool := marks.any fun c => c.toNat == b.toNat

def controlSet : EncodeSet := fun b => b < 32 || 127 ≤ b

def fragmentSet : EncodeSet := fun b => controlSet b || isAmong [' ', '"', '<', '>', '\x60'] b

def querySet : EncodeSet := fun b => controlSet b || isAmong [' ', '"', '#', '<', '>'] b

def specialQuerySet : EncodeSet := fun b => querySet b || b == 39

def pathSet : EncodeSet := fun b => fragmentSet b || isAmong ['#', '?', '\x7b', '\x7d'] b

def componentSet : EncodeSet := fun b => pathSet b || isAmong ['/', '%', '\\'] b

def userSet : EncodeSet := fun b =>
  pathSet b || isAmong ['/', ':', ';', '=', '@', '[', '\\', ']', '^', '|'] b

def hexDigit (n : Nat) : Char :=
  if n < 10 then Char.ofNat (48 + n) else Char.ofNat (55 + n)

def encodeByte (set : EncodeSet) (b : UInt8) : List Char :=
  if set b then ['%', hexDigit (b.toNat / 16), hexDigit (b.toNat % 16)] else [Char.ofNat b.toNat]

def percentEncode (set : EncodeSet) (text : List Char) : List Char :=
  (Text.encode (String.ofList text)).flatMap (encodeByte set)

def hexValue? (b : UInt8) : Option Nat :=
  let n := b.toNat
  if 48 ≤ n ∧ n ≤ 57 then some (n - 48)
  else if 65 ≤ n ∧ n ≤ 70 then some (n - 55)
  else if 97 ≤ n ∧ n ≤ 102 then some (n - 87)
  else none

def escaped? (b x y : UInt8) : Option UInt8 :=
  if b == 37 then
    (hexValue? x).bind fun high => (hexValue? y).map fun low => UInt8.ofNat (high * 16 + low)
  else none

def decodeBytes : List UInt8 → List UInt8
  | b :: x :: y :: rest =>
      match escaped? b x y with
      | some e => e :: decodeBytes rest
      | none => b :: decodeBytes (x :: y :: rest)
  | bytes => bytes

def percentDecode (text : List Char) : List UInt8 :=
  decodeBytes (Text.encode (String.ofList text))

end SemanticIndex.Url
