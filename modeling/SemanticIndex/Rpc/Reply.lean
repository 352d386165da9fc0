import SemanticIndex.Json.Value

namespace SemanticIndex.Rpc

structure Fault where
  code : Int
  message : String
  deriving DecidableEq, Repr

namespace Fault

def unreadable (message : String) : Fault := ⟨-32700, message⟩

def invalidRequest (message : String) : Fault := ⟨-32600, message⟩

def unknownMethod (method : String) : Fault := ⟨-32601, "Method not found: " ++ method⟩

def invalidParams (message : String) : Fault := ⟨-32602, message⟩

def internal (message : String) : Fault := ⟨-32603, message⟩

def notInitialized : Fault := ⟨-32002, "Server not initialized"⟩

def ofCauses (causes : List String) : Fault := internal (": ".intercalate causes)

def text (f : Fault) : String := f.message ++ " (" ++ toString f.code ++ ")"

def toJson (f : Fault) : Json :=
  .object [("code", .int f.code), ("message", .string f.message)]

end Fault

inductive Reply where
  | success (id result : Json)
  | failure (id : Json) (fault : Fault)

namespace Reply

def id : Reply → Json
  | .success id _ => id
  | .failure id _ => id

def toJson : Reply → Json
  | .success id result => .object [("jsonrpc", .string "2.0"), ("id", id), ("result", result)]
  | .failure id fault => .object [("jsonrpc", .string "2.0"), ("id", id), ("error", fault.toJson)]

end Reply

end SemanticIndex.Rpc
