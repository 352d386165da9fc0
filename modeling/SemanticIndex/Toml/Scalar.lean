import SemanticIndex.Json.Double
import SemanticIndex.Text.Search
import SemanticIndex.Toml.Quoted
import SemanticIndex.Toml.Value

namespace SemanticIndex.Toml

open Text

def ungroup? (isDigit : Char → Bool) (cs : List Char) : Option (List Char) :=
  let groups := splitOn '_' cs
  if groups.all fun g => !g.isEmpty && g.all isDigit then some groups.flatten else none

def valueIn (base : Nat) (digits : List Char) : Nat :=
  digits.foldl (fun n c => n * base + (hexValue? c).getD 0) 0

def cutSign : List Char → Bool × List Char
  | '-' :: cs => (true, cs)
  | '+' :: cs => (false, cs)
  | cs => (false, cs)

def decimal? (cs : List Char) : Option (List Char) :=
  (ungroup? Char.isDigit cs).filter fun ds => ds.length == 1 || ds.head? != some '0'

def fitsWord (n : Int) : Bool := -0x8000000000000000 ≤ n && n < 0x8000000000000000

def inBase? (base : Nat) (cs : List Char) : Option Int :=
  let isDigit (c : Char) := (hexValue? c).any (· < base)
  (ungroup? isDigit cs).map fun ds => (valueIn base ds : Int)

def integer? (word : List Char) : Option Int :=
  let read :=
    match word with
    | '0' :: 'x' :: cs => inBase? 16 cs
    | '0' :: 'o' :: cs => inBase? 8 cs
    | '0' :: 'b' :: cs => inBase? 2 cs
    | word =>
        let (negative, cs) := cutSign word
        (decimal? cs).map fun ds => if negative then -(valueIn 10 ds : Int) else valueIn 10 ds
  read.filter fitsWord

def cutExponent (cs : List Char) : List Char × Option (List Char) :=
  let (front, rest) := cs.span fun c => c != 'e' && c != 'E'
  (front, match rest with
    | [] => none
    | _ :: exponent => some exponent)

def overflows (digits : List Char) (power : Int) : Bool :=
  let n := valueIn 10 digits
  n != 0 && (Double.ofRatio? false (Ratio.scale ⟨n, 1⟩ 10 (max (-(2000 + digits.length)) (min power 2000)))).isNone

def fractionDigits? : Option (List Char) → Option (List Char)
  | none => some []
  | some cs => ungroup? Char.isDigit cs

def exponent? : Option (List Char) → Option Int
  | none => some 0
  | some cs =>
      let (negative, cs) := cutSign cs
      (ungroup? Char.isDigit cs).map fun ds =>
        let n : Nat := ds.foldl (fun n c => min (n * 10 + (c.toNat - 48)) 1000000) 0
        if negative then -(n : Int) else n

def isDecimalFloat (word : List Char) : Bool :=
  let (negative, cs) := cutSign word
  let (front, exponent) := cutExponent cs
  let (whole, fraction) := match splitOnce? '.' front with
    | some (whole, fraction) => (whole, some fraction)
    | none => (front, none)
  match decimal? whole, fractionDigits? fraction, exponent? exponent with
  | some w, some f, some e =>
      (fraction.isSome || exponent.isSome) && (negative || !overflows (w ++ f) (e - f.length))
  | _, _, _ => false

def isFloat (word : List Char) : Bool :=
  let (_, cs) := cutSign word
  cs == ['i', 'n', 'f'] || cs == ['n', 'a', 'n'] || isDecimalFloat word

def field? (size : Nat) (cs : List Char) : Option Nat :=
  if cs.length == size && cs.all Char.isDigit then some (valueIn 10 cs) else none

def daysIn (year month : Nat) : Nat :=
  if month == 2 then
    if year % 4 == 0 && (year % 100 != 0 || year % 400 == 0) then 29 else 28
  else if [4, 6, 9, 11].contains month then 30 else 31

def isDate (word : List Char) : Bool :=
  match splitOn '-' word with
  | [y, m, d] =>
      match field? 4 y, field? 2 m, field? 2 d with
      | some y, some m, some d => 1 ≤ m && m ≤ 12 && 1 ≤ d && d ≤ daysIn y m
      | _, _, _ => false
  | _ => false

def isSeconds (cs : List Char) : Bool :=
  match splitOn '.' cs with
  | [s] => (field? 2 s).any (· ≤ 60)
  | [s, fraction] => (field? 2 s).any (· ≤ 60) && !fraction.isEmpty && fraction.all Char.isDigit
  | _ => false

def isTime (word : List Char) : Bool :=
  match splitOn ':' word with
  | [h, m, s] => (field? 2 h).any (· ≤ 23) && (field? 2 m).any (· ≤ 59) && isSeconds s
  | _ => false

def isOffset (word : List Char) : Bool :=
  match splitOn ':' word with
  | [h, m] => (field? 2 h).any (· ≤ 23) && (field? 2 m).any (· ≤ 59)
  | _ => false

def isZonedTime (word : List Char) : Bool :=
  match word.getLast? with
  | some 'Z' => isTime word.dropLast
  | some 'z' => isTime word.dropLast
  | _ =>
      let (time, rest) := word.span fun c => c != '+' && c != '-'
      isTime time && (rest.isEmpty || isOffset (rest.drop 1))

def isMoment (word : List Char) : Bool :=
  isTime word || isDate word ||
    (isDate (word.take 10) &&
      match word.drop 10 with
      | 'T' :: time => isZonedTime time
      | 't' :: time => isZonedTime time
      | _ => false)

def isWordChar (c : Char) : Bool :=
  c != ' ' && c != '\t' && c != '\n' && c != '\r' && c != ',' && c != ']' && c != '\x7d' && c != '#'

def word? (cs : List Char) : Option (Toml × List Char) :=
  let (word, rest) := cs.span isWordChar
  if word == ['t', 'r', 'u', 'e'] then some (.bool true, rest)
  else if word == ['f', 'a', 'l', 's', 'e'] then some (.bool false, rest)
  else if isMoment word then
    let (time, after) := (rest.drop 1).span isWordChar
    if isDate word && rest.head? == some ' ' && isZonedTime time then some (.moment, after)
    else some (.moment, rest)
  else if isFloat word then some (.float, rest)
  else (integer? word).map fun n => (.integer n, rest)

end SemanticIndex.Toml
