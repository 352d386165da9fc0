import SemanticIndex.Json.Raw

namespace SemanticIndex.Json

def named? (names : List String) : Json → Option (List (Option Json))
  | .object members => some (names.map fun name => (Json.object members).get? name)
  | _ => none

def fields? (names : List String) : Json → Option (List (Option Json))
  | .array items => if items.length = names.length then some (items.map some) else none
  | j => j.named? names

def required (read : Json → Option α) : Option Json → Option α
  | some j => read j
  | none => none

def optional (read : Json → Option α) : Option Json → Option (Option α)
  | none => some none
  | some .null => some none
  | some j => (read j).map some

def word32? (j : Json) : Option UInt32 :=
  (j.between? 0 0xffffffff).map fun n => UInt32.ofNat n.toNat

def int32? (j : Json) : Option Int := j.between? (-0x80000000) 0x7fffffff

namespace Raw

def single? (name : String) (members : List (Option String × Raw)) : Option (Option Raw) :=
  match members.filter fun m => m.1 == some name with
  | [] => some none
  | [m] => some (some m.2)
  | _ => none

def fields? (names : List String) : Raw → Option (List (Option Raw))
  | .object members =>
      if members.all fun m => m.1.isSome then names.mapM fun name => single? name members else none
  | .array items =>
      if items.length ≤ names.length then
        some ((List.range names.length).map fun i => items[i]?)
      else none
  | _ => none

def text? : Option Raw → Option (Option String)
  | none => some none
  | some .null => some none
  | some (.string (some s)) => some (some s)
  | some _ => none

def present? (depth : Nat) : Option Raw → Option (Option Json)
  | none => some none
  | some r => (r.value? depth).map some

def nonNull? (depth : Nat) : Option Raw → Option (Option Json)
  | none => some none
  | some .null => some none
  | some r => (r.value? depth).map some

end Raw

end SemanticIndex.Json
