import SemanticIndex.Rpc.Message
import SemanticIndex.Rpc.Reply
import SemanticIndex.Text.Blank
import SemanticIndex.Text.Utf8

namespace SemanticIndex.Rpc

inductive Answer where
  | result (value : Json)
  | refused (fault : Fault)
  | crashed

structure Handler (σ : Type) where
  request : σ → (method : String) → (params : Json) → Answer × σ
  notify : σ → (method : String) → (params : Json) → σ
  exitCode : σ → Nat
  complaint : List Char → String := fun _ => "Malformed message"

inductive Ending where
  | exit (code : Nat)
  | unreadable
  deriving DecidableEq, Repr

def Ending.message? : Ending → Option String
  | .exit _ => none
  | .unreadable => some "Failed to read message"

structure Connection (σ : Type) where
  state : σ
  ending : Option Ending

namespace Connection

variable {σ : Type}

def start (state : σ) : Connection σ := ⟨state, none⟩

def replyTo (id : Json) (method : String) : Answer → Reply
  | .result value => .success id value
  | .refused fault => .failure id fault
  | .crashed => .failure id (.internal ("Internal error in " ++ method))

def serve (h : Handler σ) (c : Connection σ) : Incoming → List Reply × Connection σ
  | .request id method params =>
      let (answer, state) := h.request c.state method params
      ([replyTo id method answer], { c with state := state })
  | .notification method params =>
      if method = "exit" then ([], { c with ending := some (.exit (h.exitCode c.state)) })
      else ([], { c with state := h.notify c.state method params })
  | .response => ([], c)
  | .invalid id => ([.failure id (.invalidRequest "Message has no method")], c)

def line (h : Handler σ) (c : Connection σ) (text : List Char) : List Reply × Connection σ :=
  if c.ending.isSome || (Text.trim text).isEmpty then ([], c)
  else
    match Message.ofText? (Text.trim text) with
    | none => ([.failure .null (.unreadable (h.complaint (Text.trim text)))], c)
    | some m => c.serve h m.incoming

def lineOfBytes (h : Handler σ) (c : Connection σ) (bytes : List UInt8) :
    List Reply × Connection σ :=
  if c.ending.isSome then ([], c)
  else
    match Text.decode? bytes with
    | none => ([], { c with ending := some .unreadable })
    | some text => c.line h text

def bytesOfLines : List UInt8 → List (List UInt8)
  | [] => [[]]
  | b :: bs =>
      if b == 10 then [] :: bytesOfLines bs
      else
        match bytesOfLines bs with
        | [] => [[b]]
        | l :: ls => (b :: l) :: ls

def lines (h : Handler σ) (c : Connection σ) : List (List UInt8) → List Reply × Connection σ
  | [] => ([], c)
  | l :: rest =>
      let (replies, c) := c.lineOfBytes h l
      let (more, c) := c.lines h rest
      (replies ++ more, c)

def receive (h : Handler σ) (c : Connection σ) (bytes : List UInt8) : List Reply × Connection σ :=
  c.lines h (bytesOfLines bytes)

def close (c : Connection σ) : Ending := c.ending.getD (.exit 1)

end Connection

end SemanticIndex.Rpc
