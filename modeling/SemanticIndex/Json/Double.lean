namespace SemanticIndex

structure Double where
  negative : Bool
  mantissa : Nat
  exponent : Int
  deriving DecidableEq, Repr, Inhabited

structure Ratio where
  num : Nat
  den : Nat
  deriving DecidableEq, Repr

namespace Ratio

def scale (r : Ratio) (base : Nat) (power : Int) : Ratio :=
  if 0 ≤ power then ⟨r.num * Nat.pow base power.toNat, r.den⟩
  else ⟨r.num, r.den * Nat.pow base (-power).toNat⟩

def le (a b : Ratio) : Bool := a.num * b.den ≤ b.num * a.den

def lt (a b : Ratio) : Bool := a.num * b.den < b.num * a.den

def round (r : Ratio) : Nat :=
  let floor := r.num / r.den
  let rest := 2 * (r.num % r.den)
  if rest < r.den then floor
  else if r.den < rest then floor + 1
  else if floor % 2 = 0 then floor else floor + 1

end Ratio

namespace Double

def leastExponent : Int := -1074

def greatestExponent : Int := 971

def leastMantissa : Nat := 0x10000000000000

def exponentOf (r : Ratio) : Int :=
  let low : Int := (Nat.log2 r.num : Int) - Nat.log2 r.den - 53
  let scaled := r.scale 2 (-low)
  let power := if scaled.num / scaled.den < 2 * leastMantissa then low else low + 1
  max power leastExponent

def ofRatio? (negative : Bool) (r : Ratio) : Option Double :=
  if r.num = 0 then some ⟨negative, 0, 0⟩
  else
    let power := exponentOf r
    let mantissa := (r.scale 2 (-power)).round
    let (mantissa, power) :=
      if mantissa = 2 * leastMantissa then (leastMantissa, power + 1) else (mantissa, power)
    if greatestExponent < power then none else some ⟨negative, mantissa, power⟩

def ratio (d : Double) : Ratio :=
  Ratio.scale ⟨d.mantissa, 1⟩ 2 d.exponent

def interval (d : Double) : Ratio × Ratio :=
  let narrow := d.mantissa = leastMantissa ∧ leastExponent < d.exponent
  (Ratio.scale ⟨4 * d.mantissa - if narrow then 1 else 2, 4⟩ 2 d.exponent,
   Ratio.scale ⟨4 * d.mantissa + 2, 4⟩ 2 d.exponent)

def roundsTo (d : Double) (r : Ratio) : Bool :=
  let (low, high) := d.interval
  if d.mantissa % 2 = 0 then low.le r && r.le high else low.lt r && r.lt high

def decimalPoint (r : Ratio) : Int :=
  let steps := (List.range 660).find? fun (n : Nat) =>
    r.lt (Ratio.scale ⟨1, 1⟩ 10 ((n : Int) - 330))
  (steps.getD 660 : Int) - 330

def withDigits? (d : Double) (point : Int) (count : Nat) : Option (Nat × Int) :=
  let power := point - count
  let scaled := d.ratio.scale 10 (-power)
  let below := scaled.num / scaled.den
  let fits (n : Nat) : Bool := d.roundsTo (Ratio.scale ⟨n, 1⟩ 10 power)
  let nearest := scaled.round
  let farther := if nearest = below then below + 1 else below
  if fits nearest then some (nearest, power)
  else if fits farther then some (farther, power)
  else none

def dropZeros : (fuel digits : Nat) → (power : Int) → Nat × Int
  | 0, digits, power => (digits, power)
  | fuel + 1, digits, power =>
      if digits % 10 = 0 ∧ digits ≠ 0 then dropZeros fuel (digits / 10) (power + 1)
      else (digits, power)

def shortest (d : Double) : Nat × Int :=
  let point := decimalPoint d.ratio
  let (digits, power) :=
    ((List.range 17).findSome? fun n => d.withDigits? point (n + 1)).getD (0, 0)
  dropZeros 20 digits power

def zeros (n : Nat) : String := String.ofList (List.replicate n '0')

def render (d : Double) : String :=
  let sign := if d.negative then "-" else ""
  if d.mantissa = 0 then sign ++ "0.0"
  else
    let (digits, power) := d.shortest
    let text := (toString digits).toList
    let point : Int := text.length + power
    let body :=
      if 0 ≤ power ∧ point ≤ 16 then String.ofList text ++ zeros power.toNat ++ ".0"
      else if 0 < point ∧ point ≤ 16 then
        String.ofList (text.take point.toNat) ++ "." ++ String.ofList (text.drop point.toNat)
      else if -5 < point ∧ point ≤ 0 then "0." ++ zeros (-point).toNat ++ String.ofList text
      else
        let tail := if text.length = 1 then "" else "." ++ String.ofList (text.drop 1)
        String.ofList (text.take 1) ++ tail ++ "e" ++ toString (point - 1)
    sign ++ body

end Double

end SemanticIndex
