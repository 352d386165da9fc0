import SemanticIndex.Json.Token
import SemanticIndex.Json.Value

namespace SemanticIndex.Json

inductive Raw where
  | null
  | bool (value : Bool)
  | number (literal : NumberLiteral)
  | string (value : Option String)
  | array (items : List Raw)
  | object (members : List (Option String × Raw))
  deriving Repr

namespace Raw

inductive Frame where
  | array (items : List Raw)
  | object (members : List (Option String × Raw)) (key : Option String)
  deriving Repr

inductive Expect where
  | value
  | valueOrClose
  | keyOrClose (members : List (Option String × Raw))
  | key (members : List (Option String × Raw))
  | colon (members : List (Option String × Raw)) (key : Option String)
  | separator
  | nothing (result : Raw)
  deriving Repr

structure Reading where
  frames : List Frame
  expect : Expect
  deriving Repr

def complete (frames : List Frame) (v : Raw) : Reading :=
  match frames with
  | [] => ⟨[], .nothing v⟩
  | .array items :: outer => ⟨.array (v :: items) :: outer, .separator⟩
  | .object members key :: outer => ⟨.object ((key, v) :: members) none :: outer, .separator⟩

def begin? (frames : List Frame) : Token → Option Reading
  | .null => some (complete frames .null)
  | .bool b => some (complete frames (.bool b))
  | .number n => some (complete frames (.number n))
  | .string s => some (complete frames (.string s))
  | .openArray => some ⟨.array [] :: frames, .valueOrClose⟩
  | .openObject => some ⟨frames, .keyOrClose []⟩
  | _ => none

def step? (r : Reading) (token : Token) : Option Reading :=
  match r.expect, token with
  | .value, _ => begin? r.frames token
  | .valueOrClose, .closeArray => some (complete (r.frames.drop 1) (.array []))
  | .valueOrClose, _ => begin? r.frames token
  | .keyOrClose _, .closeObject => some (complete r.frames (.object []))
  | .keyOrClose members, .string key => some ⟨r.frames, .colon members key⟩
  | .key members, .string key => some ⟨r.frames, .colon members key⟩
  | .colon members key, .colon => some ⟨.object members key :: r.frames, .value⟩
  | .separator, .comma =>
      match r.frames with
      | .array items :: outer => some ⟨.array items :: outer, .value⟩
      | .object members _ :: outer => some ⟨outer, .key members⟩
      | [] => none
  | .separator, .closeArray =>
      match r.frames with
      | .array items :: outer => some (complete outer (.array items.reverse))
      | _ => none
  | .separator, .closeObject =>
      match r.frames with
      | .object members _ :: outer => some (complete outer (.object members.reverse))
      | _ => none
  | _, _ => none

def ofTokens? (tokens : List Token) : Option Raw :=
  match tokens.foldlM step? ⟨[], .value⟩ with
  | some ⟨_, .nothing v⟩ => some v
  | _ => none

def ofText? (cs : List Char) : Option Raw :=
  (Token.ofText? cs).bind ofTokens?

mutual

def value? (depth : Nat) : Raw → Option Json
  | .null => some .null
  | .bool b => some (.bool b)
  | .number n => (Number.ofLiteral? n).map .number
  | .string s => s.map .string
  | .array items =>
      match depth with
      | 0 => none
      | depth + 1 => (values? depth items).map .array
  | .object members =>
      match depth with
      | 0 => none
      | depth + 1 => (members? depth members).map .object

def values? (depth : Nat) : List Raw → Option (List Json)
  | [] => some []
  | r :: rest => do
      let v ← value? depth r
      let vs ← values? depth rest
      some (v :: vs)

def members? (depth : Nat) : List (Option String × Raw) → Option (List (String × Json))
  | [] => some []
  | (key, r) :: rest => do
      let key ← key
      let v ← value? depth r
      let vs ← members? depth rest
      some ((key, v) :: vs)

end

def depthLimit : Nat := 127

end Raw

def parse? (text : String) : Option Json :=
  (Raw.ofText? text.toList).bind (Raw.value? Raw.depthLimit)

end SemanticIndex.Json
