import SemanticIndex.Json.Fields

namespace SemanticIndex.Rpc

structure Message where
  version : Option String
  id : Option Json
  method : Option String
  params : Option Json
  result : Option Json
  error : Option Json

inductive Incoming where
  | request (id : Json) (method : String) (params : Json)
  | notification (method : String) (params : Json)
  | response
  | invalid (id : Json)

namespace Message

def depthLimit : Nat := Json.Raw.depthLimit - 1

def ofRaw? (r : Json.Raw) : Option Message :=
  match r.fields? ["jsonrpc", "id", "method", "params", "result", "error"] with
  | some [version, id, method, params, result, error] => do
      some ⟨← Json.Raw.text? version, ← Json.Raw.present? depthLimit id, ← Json.Raw.text? method,
        ← Json.Raw.nonNull? depthLimit params, ← Json.Raw.present? depthLimit result,
        ← Json.Raw.nonNull? depthLimit error⟩
  | _ => none

def ofText? (text : List Char) : Option Message :=
  (Json.Raw.ofText? text).bind ofRaw?

def incoming (m : Message) : Incoming :=
  match m.method, m.id with
  | some method, some id => .request id method (m.params.getD .null)
  | some method, none => .notification method (m.params.getD .null)
  | none, id => if m.result.isSome || m.error.isSome then .response else .invalid (id.getD .null)

end Message

end SemanticIndex.Rpc
