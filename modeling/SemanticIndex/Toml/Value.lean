namespace SemanticIndex

inductive Toml.Origin where
  | header
  | implied
  | dotted
  deriving DecidableEq, Repr

inductive Toml where
  | string (value : String)
  | integer (value : Int)
  | float
  | bool (value : Bool)
  | moment
  | array (items : List Toml)
  | inline (origin : Toml.Origin) (members : List (String × Toml))
  | table (origin : Toml.Origin) (members : List (String × Toml))
  | tables (rows : List (List (String × Toml)))
  deriving Repr, Inhabited

namespace Toml

abbrev Members := List (String × Toml)

def replace (key : String) (value : Toml) (ms : Members) : Members :=
  ms.map fun m => if m.1 == key then (key, value) else m

def descend (dotted : Bool) (change : Origin → Members → Option Members) :
    (path : List String) → Origin → Members → Option Members
  | [], origin, ms => change origin ms
  | key :: path, _, ms =>
      match ms.lookup key with
      | none =>
          let origin := if dotted then .dotted else .implied
          (descend dotted change path origin []).map fun inner => ms ++ [(key, .table origin inner)]
      | some (.table origin inner) =>
          if dotted && origin == .header then none
          else
            (descend dotted change path origin inner).map fun inner =>
              replace key (.table origin inner) ms
      | some (.tables rows) =>
          (descend dotted change path .header (rows.getLastD [])).map fun last =>
            replace key (.tables (rows.dropLast ++ [last])) ms
      | some _ => none

def enter (isDotted : Bool) (key : String) (value : Toml) (origin : Origin) (ms : Members) :
    Option Members :=
  if (origin == .dotted) != isDotted || (ms.lookup key).isSome then none else some (ms ++ [(key, value)])

def assign (path : List String) (key : String) (value : Toml) : Origin → Members → Option Members :=
  descend true (enter (!path.isEmpty) key value) path

def openTable (key : String) (_ : Origin) (ms : Members) : Option Members :=
  match ms.lookup key with
  | none => some (ms ++ [(key, .table .header [])])
  | some (.table .implied inner) => some (replace key (.table .header inner) ms)
  | some _ => none

def openRow (key : String) (_ : Origin) (ms : Members) : Option Members :=
  match ms.lookup key with
  | none => some (ms ++ [(key, .tables [[]])])
  | some (.tables rows) => some (replace key (.tables (rows ++ [[]])) ms)
  | some _ => none

def descendInline (change : Origin → Members → Option Members) :
    (path : List String) → Origin → Members → Option Members
  | [], origin, ms => change origin ms
  | key :: path, _, ms =>
      match ms.lookup key with
      | none =>
          (descendInline change path .dotted []).map fun inner => ms ++ [(key, .inline .dotted inner)]
      | some (.inline origin inner) =>
          (descendInline change path origin inner).map fun inner =>
            replace key (.inline origin inner) ms
      | some _ => none

def assignInline (path : List String) (key : String) (value : Toml) (ms : Members) : Option Members :=
  descendInline (enter (!path.isEmpty) key value) path .header ms

end Toml

end SemanticIndex
