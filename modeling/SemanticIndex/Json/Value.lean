import SemanticIndex.Json.Number

namespace SemanticIndex

inductive Json where
  | null
  | bool (value : Bool)
  | number (value : Number)
  | string (value : String)
  | array (items : List Json)
  | object (members : List (String × Json))
  deriving Repr, Inhabited

namespace Json

def int (value : Int) : Json := .number (.int value)

def nat (value : Nat) : Json := .number (.int value)

def option (encode : α → Json) : Option α → Json
  | none => .null
  | some a => encode a

def list (encode : α → Json) (items : List α) : Json := .array (items.map encode)

def get? (key : String) : Json → Option Json
  | .object members => (members.reverse.find? (·.1 == key)).map Prod.snd
  | _ => none

def string? : Json → Option String
  | .string s => some s
  | _ => none

def bool? : Json → Option Bool
  | .bool b => some b
  | _ => none

def int? : Json → Option Int
  | .number (.int n) => some n
  | _ => none

def array? : Json → Option (List Json)
  | .array items => some items
  | _ => none

def between? (low high : Int) (j : Json) : Option Int :=
  j.int?.filter fun n => low ≤ n && n ≤ high

end Json

end SemanticIndex
