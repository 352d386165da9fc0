namespace SemanticIndex.Toml

structure Quoting where
  mark : Char
  escapes : Bool
  lines : Bool
  deriving DecidableEq, Repr

inductive Mode where
  | plain
  | escape
  | hex (left value : Nat)
  | fold (crossed : Bool)
  | lineEnd (folding : Bool)
  | marks (count : Nat)

inductive Step where
  | fail
  | go (text : List Char) (mode : Mode)
  | close (text : List Char) (consumed : Bool)

def isText (c : Char) : Bool := c == '\t' || (32 ≤ c.toNat && c.toNat != 127)

def isBlank (c : Char) : Bool := c == ' ' || c == '\t'

def hexValue? (c : Char) : Option Nat :=
  if c.isDigit then some (c.toNat - 48)
  else if 'a' ≤ c ∧ c ≤ 'f' then some (c.toNat - 87)
  else if 'A' ≤ c ∧ c ≤ 'F' then some (c.toNat - 55)
  else none

def plainStep (q : Quoting) (c : Char) : Step :=
  if c == q.mark then if q.lines then .go [] (.marks 1) else .close [] true
  else if c == '\\' && q.escapes then .go [] .escape
  else if c == '\n' then if q.lines then .go ['\n'] .plain else .fail
  else if c == '\r' then if q.lines then .go [] (.lineEnd false) else .fail
  else if isText c then .go [c] .plain
  else .fail

def escapeStep (q : Quoting) (c : Char) : Step :=
  match c with
  | 'b' => .go ['\x08'] .plain
  | 't' => .go ['\t'] .plain
  | 'n' => .go ['\n'] .plain
  | 'f' => .go ['\x0c'] .plain
  | 'r' => .go ['\r'] .plain
  | '"' => .go ['"'] .plain
  | '\\' => .go ['\\'] .plain
  | 'u' => .go [] (.hex 4 0)
  | 'U' => .go [] (.hex 8 0)
  | '\n' => if q.lines then .go [] (.fold true) else .fail
  | '\r' => if q.lines then .go [] (.lineEnd true) else .fail
  | c => if q.lines && isBlank c then .go [] (.fold false) else .fail

def hexStep (left value : Nat) (c : Char) : Step :=
  match hexValue? c with
  | none => .fail
  | some d =>
      let value := value * 16 + d
      if left ≤ 1 then
        if value.isValidChar then .go [Char.ofNat value] .plain else .fail
      else .go [] (.hex (left - 1) value)

def foldStep (q : Quoting) (crossed : Bool) (c : Char) : Step :=
  if isBlank c then .go [] (.fold crossed)
  else if c == '\n' then .go [] (.fold true)
  else if c == '\r' then .go [] (.lineEnd true)
  else if crossed then plainStep q c
  else .fail

def marksStep (q : Quoting) (count : Nat) (c : Char) : Step :=
  if c == q.mark then
    if count ≥ 5 then .close [q.mark, q.mark] false else .go [] (.marks (count + 1))
  else if 3 ≤ count then .close (List.replicate (count - 3) q.mark) false
  else
    match plainStep q c with
    | .go text mode => .go (List.replicate count q.mark ++ text) mode
    | other => other

def step (q : Quoting) : Mode → Char → Step
  | .plain, c => plainStep q c
  | .escape, c => escapeStep q c
  | .hex left value, c => hexStep left value c
  | .fold crossed, c => foldStep q crossed c
  | .lineEnd folding, c =>
      if c == '\n' then if folding then .go [] (.fold true) else .go ['\n'] .plain else .fail
  | .marks count, c => marksStep q count c

def scan (q : Quoting) : Mode → List Char → Option (List Char × List Char)
  | .marks count, [] => if 3 ≤ count then some (List.replicate (count - 3) q.mark, []) else none
  | _, [] => none
  | mode, c :: cs =>
      match step q mode c with
      | .fail => none
      | .close text consumed => some (text, if consumed then cs else c :: cs)
      | .go text mode => (scan q mode cs).map fun (more, rest) => (text ++ more, rest)

def dropFirstLineEnd : List Char → List Char
  | '\n' :: cs => cs
  | '\r' :: '\n' :: cs => cs
  | cs => cs

def lineString? : List Char → Option (String × List Char)
  | '"' :: cs => (scan ⟨'"', true, false⟩ .plain cs).map fun (t, r) => (String.ofList t, r)
  | '\'' :: cs => (scan ⟨'\'', false, false⟩ .plain cs).map fun (t, r) => (String.ofList t, r)
  | _ => none

def string? : List Char → Option (String × List Char)
  | '"' :: '"' :: '"' :: cs =>
      (scan ⟨'"', true, true⟩ .plain (dropFirstLineEnd cs)).map fun (t, r) => (String.ofList t, r)
  | '\'' :: '\'' :: '\'' :: cs =>
      (scan ⟨'\'', false, true⟩ .plain (dropFirstLineEnd cs)).map fun (t, r) => (String.ofList t, r)
  | cs => lineString? cs

end SemanticIndex.Toml
