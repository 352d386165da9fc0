import SemanticIndex.Text.Blank

namespace SemanticIndex.Text

def after? : (head cs : List Char) → Option (List Char)
  | [], cs => some cs
  | _ :: _, [] => none
  | h :: head, c :: cs => if h = c then after? head cs else none

def before? (tail cs : List Char) : Option (List Char) :=
  (after? tail.reverse cs.reverse).map List.reverse

theorem after?_eq_some_iff {head cs rest : List Char} :
    after? head cs = some rest ↔ cs = head ++ rest := by
  induction head generalizing cs with
  | nil => simp [after?, eq_comm]
  | cons h head ih =>
      cases cs with
      | nil => simp [after?]
      | cons c cs =>
          by_cases hc : h = c
          · simp [after?, hc, ih]
          · simp [after?, hc, eq_comm]

theorem before?_eq_some_iff {tail cs rest : List Char} :
    before? tail cs = some rest ↔ cs = rest ++ tail := by
  simp only [before?, Option.map_eq_some_iff, after?_eq_some_iff]
  constructor
  · rintro ⟨r, h, rfl⟩
    have := congrArg List.reverse h
    simpa using this
  · intro h
    exact ⟨rest.reverse, by simp [h], by simp⟩

def startsWith (head cs : List Char) : Bool := (after? head cs).isSome

def endsWith (tail cs : List Char) : Bool := (before? tail cs).isSome

def find? (phrase : List Char) : List Char → Option (List Char × List Char)
  | [] => if phrase.isEmpty then some ([], []) else none
  | c :: cs =>
      if startsWith phrase (c :: cs) then some ([], c :: cs)
      else (find? phrase cs).map fun (front, rest) => (c :: front, rest)

def contains (phrase cs : List Char) : Bool := (find? phrase cs).isSome

def splitOn (d : Char) : List Char → List (List Char)
  | [] => [[]]
  | c :: cs =>
      if c = d then [] :: splitOn d cs
      else
        match splitOn d cs with
        | [] => [[c]]
        | piece :: rest => (c :: piece) :: rest

theorem splitOn_ne_nil (d : Char) (cs : List Char) : splitOn d cs ≠ [] := by
  cases cs with
  | nil => simp [splitOn]
  | cons c cs =>
      by_cases h : c = d
      · simp [splitOn, h]
      · simp only [splitOn, h, if_false]
        split <;> simp

def afterLast (d : Char) (cs : List Char) : List Char :=
  (cs.reverse.takeWhile (· != d)).reverse

def splitOnce? (d : Char) : List Char → Option (List Char × List Char)
  | [] => none
  | c :: cs =>
      if c = d then some ([], cs) else (splitOnce? d cs).map fun (front, rest) => (c :: front, rest)

def dropRepeated (phrase : List Char) (cs : List Char) : List Char :=
  match _h : after? phrase cs with
  | none => cs
  | some rest => if _hp : phrase = [] then cs else dropRepeated phrase rest
termination_by cs.length
decreasing_by
  have := after?_eq_some_iff.1 _h
  have : 0 < phrase.length := List.length_pos_iff.2 _hp
  simp_all

def dropRepeatedEnd (phrase : List Char) (cs : List Char) : List Char :=
  (dropRepeated phrase.reverse cs.reverse).reverse

def dropReturn (line : List Char) : List Char :=
  (before? ['\r'] line).getD line

def linesOf : List (List Char) → List (List Char)
  | [] => []
  | [last] => if last.isEmpty then [] else [last]
  | line :: rest => dropReturn line :: linesOf rest

def lines (cs : List Char) : List (List Char) :=
  linesOf (splitOn '\n' cs)

def replaceChar (d e : Char) (cs : List Char) : List Char :=
  cs.map fun c => if c = d then e else c

def equalsIgnoringCase (a b : List Char) : Bool :=
  a.map Char.toLower == b.map Char.toLower

end SemanticIndex.Text
