import SemanticIndex.Json.Double

namespace SemanticIndex

structure NumberLiteral where
  negative : Bool
  whole : List Nat
  fraction : Option (List Nat)
  exponent : Option (Bool × List Nat)
  deriving DecidableEq, Repr

inductive Number where
  | int (value : Int)
  | double (value : Double)
  deriving DecidableEq, Repr

namespace Number

def wordLimit : Nat := 0x10000000000000000

def exponentLimit : Nat := 0x80000000

def fill (word : Nat) : List Nat → Nat × List Nat
  | [] => (word, [])
  | d :: ds => if word * 10 + d < wordLimit then fill (word * 10 + d) ds else (word, d :: ds)

def significand (n : NumberLiteral) : Nat × Int :=
  let (word, left) := fill 0 n.whole
  match n.fraction with
  | none => (word, left.length)
  | some fraction =>
      let (word, unread) := fill word fraction
      (word, (left.length : Int) - (fraction.length - unread.length : Nat))

def compose (negative : Bool) : (fuel : Nat) → Double → (power : Int) → Option Double
  | 0, d, _ => some { d with negative := negative }
  | fuel + 1, d, power =>
      if power.natAbs ≤ 308 then
        match Double.ofRatio? false ⟨Nat.pow 10 power.natAbs, 1⟩ with
        | none => none
        | some ten =>
            if 0 ≤ power then
              Double.ofRatio? negative ⟨d.ratio.num * ten.ratio.num, d.ratio.den * ten.ratio.den⟩
            else
              Double.ofRatio? negative ⟨d.ratio.num * ten.ratio.den, d.ratio.den * ten.ratio.num⟩
      else if d.mantissa = 0 then some { d with negative := negative }
      else if 0 ≤ power then none
      else
        match Double.ofRatio? false ⟨Nat.pow 10 308, 1⟩ with
        | none => none
        | some ten =>
            match Double.ofRatio? false ⟨d.ratio.num * ten.ratio.den, d.ratio.den * ten.ratio.num⟩ with
            | none => none
            | some quotient => compose negative fuel quotient (power + 308)

def toDouble? (negative : Bool) (word : Nat) (power : Int) : Option Number :=
  (Double.ofRatio? false ⟨word, 1⟩).bind fun d =>
    (compose negative 8 d (max power (-2400))).map Number.double

def exponent? (digits : List Nat) : Option Nat :=
  let value := digits.foldl (fun n d => min (n * 10 + d) exponentLimit) 0
  if value < exponentLimit then some value else none

def ofLiteral? (n : NumberLiteral) : Option Number :=
  let (word, power) := significand n
  match n.exponent with
  | some (negativeExponent, digits) =>
      match exponent? digits with
      | some e => toDouble? n.negative word (if negativeExponent then power - e else power + e)
      | none =>
          if word ≠ 0 ∧ !negativeExponent then none else some (.double ⟨n.negative, 0, 0⟩)
  | none =>
      if n.fraction.isSome || power != 0 then toDouble? n.negative word power
      else if !n.negative then some (.int word)
      else if 0 < word ∧ word ≤ 0x8000000000000000 then some (.int (-(word : Int)))
      else toDouble? true word 0

def render : Number → String
  | .int value => toString value
  | .double value => value.render

end Number

end SemanticIndex
