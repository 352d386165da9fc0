import SemanticIndex.Index.Repository
import SemanticIndex.Json.Raw
import SemanticIndex.Json.Text
import SemanticIndex.Snapshot.Timestamp

namespace SemanticIndex

structure SpanColumns where
  startLine : Int
  startCharacter : Int
  endLine : Int
  endCharacter : Int
  deriving DecidableEq, Repr

structure FileRow where
  seq : Int
  uri : String
  contentHash : String
  parseMillis : Int
  hasErrors : Bool
  deriving DecidableEq, Repr

structure NamespaceRow where
  fileSeq : Int
  ordinal : Int
  name : String
  deriving DecidableEq, Repr

structure SymbolRow where
  fileSeq : Int
  namespaceOrdinal : Int
  ordinal : Int
  fqn : String
  name : String
  kind : String
  space : String
  container : Option String
  span : SpanColumns
  deriving DecidableEq, Repr

structure DefinitionRow where
  fileSeq : Int
  ordinal : Int
  fqn : String
  name : String
  kind : String
  container : Option String
  span : SpanColumns
  signature : Option String
  documentation : Option String
  parents : String
  deriving DecidableEq, Repr

structure ReferenceRow where
  fileSeq : Int
  ordinal : Int
  fqn : String
  span : SpanColumns
  fallback : Option String
  deriving DecidableEq, Repr

structure Tables where
  schema : Option (List Int)
  settings : Option (List (String × String))
  files : Option (List FileRow)
  namespaces : Option (List NamespaceRow)
  symbols : Option (List SymbolRow)
  definitions : Option (List DefinitionRow)
  references : Option (List ReferenceRow)
  deriving DecidableEq, Repr

def schemaVersion : Int := 1

structure DatedSnapshot extends Snapshot where
  createdAt : Timestamp
  deriving DecidableEq, Repr

namespace Tables

def fresh : Tables :=
  ⟨some [schemaVersion], some [], some [], some [], some [], some [], some []⟩

def spanOf (r : Range) : SpanColumns :=
  ⟨r.start.line.toNat, r.start.character.toNat, r.stop.line.toNat, r.stop.character.toNat⟩

def signed (n : UInt64) : Int :=
  if n.toNat < 0x8000000000000000 then n.toNat else (n.toNat : Int) - 0x10000000000000000

def fileRow (seq : Nat) (f : File) : FileRow :=
  ⟨seq, f.uri, f.contentHash, signed f.parseMillis, f.hasErrors⟩

def namespaceRows (seq : Nat) (f : File) : List NamespaceRow :=
  f.namespaces.zipIdx.map fun (n, i) => ⟨seq, i, n.name⟩

def symbolRows (seq : Nat) (f : File) : List SymbolRow :=
  f.namespaces.zipIdx.flatMap fun (n, i) =>
    n.symbols.zipIdx.map fun (s, k) =>
      ⟨seq, i, k, s.fqn, s.name, s.kind.name, s.space, s.container, spanOf s.range⟩

def namesText (names : List String) : String :=
  (Json.list .string names).render

def definitionRows (seq : Nat) (f : File) : List DefinitionRow :=
  f.definitions.zipIdx.map fun (d, i) =>
    ⟨seq, i, d.fqn, d.name, d.kind.name, d.container, spanOf d.range, d.signature, d.documentation,
     namesText d.parents⟩

def referenceRows (seq : Nat) (f : File) : List ReferenceRow :=
  f.references.zipIdx.map fun (r, i) => ⟨seq, i, r.fqn, spanOf r.range, r.fallback⟩

def ofSnapshot (s : DatedSnapshot) : Tables where
  schema := some [schemaVersion]
  settings := some [("format_version", toString s.version), ("created_at", s.createdAt.render)]
  files := some (s.files.zipIdx.map fun (f, seq) => fileRow seq f)
  namespaces := some (s.files.zipIdx.flatMap fun (f, seq) => namespaceRows seq f)
  symbols := some (s.files.zipIdx.flatMap fun (f, seq) => symbolRows seq f)
  definitions := some (s.files.zipIdx.flatMap fun (f, seq) => definitionRows seq f)
  references := some (s.files.zipIdx.flatMap fun (f, seq) => referenceRows seq f)

end Tables

end SemanticIndex
