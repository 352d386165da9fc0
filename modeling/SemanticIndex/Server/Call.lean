import SemanticIndex.Rpc.Reply
import SemanticIndex.Source.Position
import SemanticIndex.Url.Parse

namespace SemanticIndex.Server

structure Cursor where
  uri : String
  position : Position
  deriving DecidableEq, Repr

structure ReferenceSearch where
  cursor : Cursor
  includeDeclaration : Bool
  deriving DecidableEq, Repr

structure Revision where
  uri : String
  version : Int
  text : String
  deriving DecidableEq, Repr

structure Changes where
  uri : String
  version : Int
  texts : List String
  deriving DecidableEq, Repr

def Changes.last? (c : Changes) : Option Revision :=
  c.texts.getLast?.map fun text => ⟨c.uri, c.version, text⟩

structure FileChange where
  uri : String
  kind : Int
  deriving DecidableEq, Repr

def FileChange.isDeletion (c : FileChange) : Bool := c.kind == 3

structure Client where
  root : Option Url
  folders : Option (List Url)
  deriving DecidableEq, Repr

inductive Request where
  | shutdown
  | symbols (uri : String)
  | definition (cursor : Cursor)
  | references (search : ReferenceSearch)
  | hover (cursor : Cursor)
  | completion (cursor : Cursor)
  | symbolDefinition (cursor : Cursor)
  deriving DecidableEq, Repr

inductive Notice where
  | opened (revision : Revision)
  | changed (revision : Revision)
  | closed (uri : String)
  | filesChanged (changes : List FileChange)
  deriving DecidableEq, Repr

structure Readers where
  client : Json → Except String Client
  symbols : Json → Except String String
  definition : Json → Except String Cursor
  references : Json → Except String ReferenceSearch
  hover : Json → Except String Cursor
  completion : Json → Except String Cursor
  symbolDefinition : Json → Except String Cursor
  opened : Json → Except String Revision
  changed : Json → Except String Changes
  closed : Json → Except String String
  fileChanges : Json → Except String (List FileChange)

def Request.read (reader : Json → Except String α) (params : Json) (build : α → Request) :
    Except Rpc.Fault Request :=
  match reader params with
  | .ok a => .ok (build a)
  | .error message => .error (.invalidParams message)

def Request.of (readers : Readers) (method : String) (params : Json) :
    Except Rpc.Fault Request :=
  match method with
  | "shutdown" => .ok .shutdown
  | "textDocument/documentSymbol" => read readers.symbols params .symbols
  | "textDocument/definition" => read readers.definition params .definition
  | "textDocument/references" => read readers.references params .references
  | "textDocument/hover" => read readers.hover params .hover
  | "textDocument/completion" => read readers.completion params .completion
  | "textDocument/xdefinition" => read readers.symbolDefinition params .symbolDefinition
  | method => .error (.unknownMethod method)

def Notice.of? (readers : Readers) (method : String) (params : Json) : Option Notice :=
  match method with
  | "textDocument/didOpen" => (readers.opened params).toOption.map .opened
  | "textDocument/didChange" =>
      (readers.changed params).toOption.bind fun changes => changes.last?.map .changed
  | "textDocument/didClose" => (readers.closed params).toOption.map .closed
  | "workspace/didChangeWatchedFiles" => (readers.fileChanges params).toOption.map .filesChanged
  | _ => none

end SemanticIndex.Server
