namespace SemanticIndex.Glob

structure CharSet where
  negated : Bool
  ranges : List (Char × Char)
  deriving DecidableEq, Repr

inductive Lexeme where
  | plain (c : Char)
  | escaped (c : Char)
  | set (s : CharSet)
  | star
  | question
  | opening
  | comma
  | closing
  deriving DecidableEq, Repr

inductive Mode where
  | outside
  | escape
  | setStart
  | inSet (s : CharSet) (pending : Bool)

namespace CharSet

def empty (negated : Bool) : CharSet := ⟨negated, []⟩

def extend? (s : CharSet) (pending : Bool) (c : Char) : Option (CharSet × Bool) :=
  match s.ranges with
  | [] => some (⟨s.negated, [(c, c)]⟩, false)
  | (low, high) :: rest =>
      if pending then
        if c < low then none else some (⟨s.negated, (low, c) :: rest⟩, false)
      else if c = '-' then some (s, true)
      else some (⟨s.negated, (c, c) :: (low, high) :: rest⟩, false)

def close (s : CharSet) (pending : Bool) : CharSet :=
  if pending then ⟨s.negated, ('-', '-') :: s.ranges⟩ else s

def endsAt (s : CharSet) (c : Char) : Bool := c == ']' && !s.ranges.isEmpty

end CharSet

def Lexeme.ofChar (c : Char) : Lexeme :=
  match c with
  | '*' => .star
  | '?' => .question
  | '\x7b' => .opening
  | ',' => .comma
  | '\x7d' => .closing
  | c => .plain c

def lex? : Mode → List Char → Option (List Lexeme)
  | .outside, [] => some []
  | _, [] => none
  | .outside, c :: cs =>
      if c = '\\' then lex? .escape cs
      else if c = '[' then lex? .setStart cs
      else (lex? .outside cs).map (Lexeme.ofChar c :: ·)
  | .escape, c :: cs => (lex? .outside cs).map (.escaped c :: ·)
  | .setStart, c :: cs =>
      if c = '!' ∨ c = '^' then lex? (.inSet (.empty true) false) cs
      else
        match (CharSet.empty false).extend? false c with
        | none => none
        | some (s, pending) => lex? (.inSet s pending) cs
  | .inSet s pending, c :: cs =>
      if s.endsAt c then (lex? .outside cs).map (.set (s.close pending) :: ·)
      else
        match s.extend? pending c with
        | none => none
        | some (s, pending) => lex? (.inSet s pending) cs

end SemanticIndex.Glob
