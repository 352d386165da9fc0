import SemanticIndex.Json.Value
import SemanticIndex.Toml.Value

namespace SemanticIndex

inductive Setting where
  | text (value : String)
  | flag (value : Bool)
  | count (value : Nat)
  | list (exact : Bool) (items : List Setting)
  | table (members : List (String × Setting))
  | other
  deriving Repr, Inhabited

namespace Setting

def ofInt (n : Int) : Setting :=
  if 0 ≤ n && n < 0x10000000000000000 then .count n.toNat else .other

mutual

def ofJson : Json → Setting
  | .null => .other
  | .bool b => .flag b
  | .number (.int n) => ofInt n
  | .number (.double _) => .other
  | .string s => .text s
  | .array items => .list true (ofJsonItems items)
  | .object members => .table (ofJsonMembers members)

def ofJsonItems : List Json → List Setting
  | [] => []
  | j :: rest => ofJson j :: ofJsonItems rest

def ofJsonMembers : List (String × Json) → List (String × Setting)
  | [] => []
  | (key, j) :: rest => (key, ofJson j) :: ofJsonMembers rest

end

mutual

def ofToml : Toml → Setting
  | .string s => .text s
  | .integer n => ofInt n
  | .float => .other
  | .bool b => .flag b
  | .moment => .table []
  | .array items => .list false (ofTomlItems items)
  | .inline _ members => .table (ofTomlMembers members)
  | .table _ members => .table (ofTomlMembers members)
  | .tables rows => .list false (ofTomlRows rows)

def ofTomlItems : List Toml → List Setting
  | [] => []
  | t :: rest => ofToml t :: ofTomlItems rest

def ofTomlMembers : List (String × Toml) → List (String × Setting)
  | [] => []
  | (key, t) :: rest => (key, ofToml t) :: ofTomlMembers rest

def ofTomlRows : List (List (String × Toml)) → List Setting
  | [] => []
  | row :: rest => .table (ofTomlMembers row) :: ofTomlRows rest

end

def text? : Setting → Option String
  | .text s => some s
  | _ => none

def flag? : Setting → Option Bool
  | .flag b => some b
  | _ => none

def count? : Setting → Option Nat
  | .count n => some n
  | _ => none

def texts? : Setting → Option (List String)
  | .list _ items => items.mapM text?
  | _ => none

def members? (names : List String) : Setting → Option (List (Option Setting))
  | .table members =>
      some (names.map fun name => (members.reverse.find? (·.1 == name)).map Prod.snd)
  | .list exact items =>
      if exact && items.length > names.length then none
      else some ((List.range names.length).map fun i => items[i]?)
  | _ => none

def read (reader : Setting → Option α) (default : α) : Option Setting → Option α
  | none => some default
  | some s => reader s

end Setting

end SemanticIndex
