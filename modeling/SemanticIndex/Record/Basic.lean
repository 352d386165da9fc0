import SemanticIndex.Source.Position

namespace SemanticIndex

inductive SymbolKind where
  | classType
  | interface
  | trait
  | enum
  | enumCase
  | function
  | method
  | property
  | classConstant
  | constant
  deriving DecidableEq, Repr

namespace SymbolKind

def all : List SymbolKind :=
  [.classType, .interface, .trait, .enum, .enumCase, .function, .method, .property, .classConstant,
   .constant]

def name : SymbolKind → String
  | .classType => "class"
  | .interface => "interface"
  | .trait => "trait"
  | .enum => "enum"
  | .enumCase => "enum_case"
  | .function => "function"
  | .method => "method"
  | .property => "property"
  | .classConstant => "class_constant"
  | .constant => "constant"

def ofName? (name : String) : Option SymbolKind :=
  all.find? (·.name == name)

theorem ofName?_name (k : SymbolKind) : ofName? k.name = some k := by
  cases k <;> decide

def unknownName (name : String) : String :=
  "Unknown symbol kind: " ++ name

def isClassLike : SymbolKind → Bool
  | .classType | .interface | .trait | .enum => true
  | _ => false

def isMember : SymbolKind → Bool
  | .method | .property | .classConstant | .enumCase => true
  | _ => false

def protocolNumber : SymbolKind → Nat
  | .classType | .trait => 5
  | .interface => 11
  | .enum => 10
  | .enumCase => 22
  | .function => 12
  | .method => 6
  | .property => 7
  | .classConstant | .constant => 14

def completionNumber : SymbolKind → Nat
  | .classType | .trait => 7
  | .interface => 8
  | .enum => 13
  | .enumCase => 20
  | .function => 3
  | .method => 2
  | .property => 10
  | .classConstant | .constant => 21

end SymbolKind

structure Symbol where
  name : String
  kind : SymbolKind
  fqn : String
  range : Range
  space : String
  container : Option String
  deriving DecidableEq, Repr

structure Namespace where
  name : String
  symbols : List Symbol
  deriving DecidableEq, Repr

structure Definition where
  fqn : String
  name : String
  kind : SymbolKind
  uri : String
  range : Range
  container : Option String
  signature : Option String
  documentation : Option String
  parents : List String
  deriving DecidableEq, Repr

structure Reference where
  fqn : String
  uri : String
  range : Range
  fallback : Option String
  deriving DecidableEq, Repr

def Reference.names (r : Reference) : List String :=
  r.fqn :: r.fallback.toList

structure File where
  uri : String
  contentHash : String
  parseMillis : UInt64
  hasErrors : Bool
  namespaces : List Namespace
  definitions : List Definition
  references : List Reference
  deriving DecidableEq, Repr

def File.symbols (f : File) : List Symbol :=
  f.namespaces.flatMap Namespace.symbols

def File.body (f : File) : File :=
  { f with contentHash := "", parseMillis := 0 }

end SemanticIndex
