import SemanticIndex.Snapshot.Tables

namespace SemanticIndex

inductive Corruption where
  | unreadable
  | badVersion
  | noNamespace (fqn : String)
  | noFile (seq : Int)
  deriving DecidableEq, Repr

inductive LoadError where
  | missing
  | incompatible (found : Nat)
  | corrupt (cause : Corruption)
  deriving DecidableEq, Repr

def Corruption.message? : Corruption → Option String
  | .unreadable => none
  | .badVersion => some "bad format_version"
  | .noNamespace fqn => some ("symbol " ++ fqn ++ " has no namespace")
  | .noFile seq => some ("row refers to missing file " ++ toString seq)

def incompatibleMessage (found : Nat) : String :=
  "snapshot format " ++ toString found ++ " is not supported (expected " ++
    toString snapshotVersion ++ ")"

namespace Tables

abbrev Loading := Except LoadError

def unreadable {α : Type} : Loading α := .error (.corrupt .unreadable)

def need {α : Type} : Option α → Loading α
  | some a => .ok a
  | none => unreadable

def appliedSchema (versions : List Int) : Int :=
  match versions with
  | [] => 0
  | v :: vs => vs.foldl max v

def setting? (t : Tables) (key : String) : Option String :=
  t.settings.bind fun rows => rows.lookup key

def word32? (text : String) : Option Nat :=
  let cs := match text.toList with
    | '+' :: rest => rest
    | cs => cs
  if cs.isEmpty then none
  else
    (cs.foldlM (fun (n : Nat) c => (Timestamp.digit? c).map fun d => n * 10 + d) 0).filter
      (· < 0x100000000)

def word? (n : Int) : Option UInt32 :=
  if 0 ≤ n ∧ n < 0x100000000 then some n.toNat.toUInt32 else none

def range? (s : SpanColumns) : Option Range := do
  let startLine ← word? s.startLine
  let startCharacter ← word? s.startCharacter
  let endLine ← word? s.endLine
  let endCharacter ← word? s.endCharacter
  some ⟨⟨startLine, startCharacter⟩, ⟨endLine, endCharacter⟩⟩

def names? (text : String) : Option (List String) :=
  match Json.Raw.ofText? text.toList with
  | some (.array items) =>
      items.mapM fun item => match item with
        | .string s => s
        | _ => none
  | _ => none

abbrev Drafts := List (Int × File)

def draftOf (row : FileRow) : File where
  uri := row.uri
  contentHash := row.contentHash
  parseMillis := (max row.parseMillis 0).toNat.toUInt64
  hasErrors := row.hasErrors
  namespaces := []
  definitions := []
  references := []

def drafts (rows : List FileRow) : Drafts :=
  (rows.mergeSort fun a b => a.seq ≤ b.seq).map fun row => (row.seq, draftOf row)

def draft? (files : Drafts) (seq : Int) : Option File := files.lookup seq

def amend (files : Drafts) (seq : Int) (f : File) : Drafts :=
  files.map fun (s, old) => if s = seq then (s, f) else (s, old)

def owning (files : Drafts) (seq : Int) : Loading File :=
  match draft? files seq with
  | some f => .ok f
  | none => .error (.corrupt (.noFile seq))

def enterNamespace (files : Drafts) (row : NamespaceRow) : Loading Drafts := do
  let f ← owning files row.fileSeq
  .ok (amend files row.fileSeq { f with namespaces := f.namespaces ++ [⟨row.name, []⟩] })

def symbol? (row : SymbolRow) : Option Symbol := do
  let kind ← SymbolKind.ofName? row.kind
  let range ← range? row.span
  some ⟨row.name, kind, row.fqn, range, row.space, row.container⟩

def enterSymbol (files : Drafts) (row : SymbolRow) : Loading Drafts := do
  let s ← need (symbol? row)
  let f ← owning files row.fileSeq
  let place := (max row.namespaceOrdinal 0).toNat
  match f.namespaces[place]? with
  | none => .error (.corrupt (.noNamespace s.fqn))
  | some n =>
      let namespaces := f.namespaces.set place { n with symbols := n.symbols ++ [s] }
      .ok (amend files row.fileSeq { f with namespaces := namespaces })

def definition? (uri : String) (row : DefinitionRow) : Option Definition := do
  let kind ← SymbolKind.ofName? row.kind
  let range ← range? row.span
  let parents ← names? row.parents
  some ⟨row.fqn, row.name, kind, uri, range, row.container, row.signature, row.documentation, parents⟩

def enterDefinition (files : Drafts) (row : DefinitionRow) : Loading Drafts := do
  let d ← need (definition? "" row)
  let f ← owning files row.fileSeq
  let d := { d with uri := f.uri }
  .ok (amend files row.fileSeq { f with definitions := f.definitions ++ [d] })

def enterReference (files : Drafts) (row : ReferenceRow) : Loading Drafts := do
  let range ← need (range? row.span)
  let f ← owning files row.fileSeq
  let r : Reference := ⟨row.fqn, f.uri, range, row.fallback⟩
  .ok (amend files row.fileSeq { f with references := f.references ++ [r] })

def inOrder (a b : Int × Int) : Bool :=
  a.1 < b.1 || (a.1 == b.1 && a.2 ≤ b.2)

def namespacesInOrder (rows : List NamespaceRow) : List NamespaceRow :=
  rows.mergeSort fun a b => inOrder (a.fileSeq, a.ordinal) (b.fileSeq, b.ordinal)

def symbolsInOrder (rows : List SymbolRow) : List SymbolRow :=
  rows.mergeSort fun a b =>
    a.fileSeq < b.fileSeq ||
      (a.fileSeq == b.fileSeq &&
        inOrder (a.namespaceOrdinal, a.ordinal) (b.namespaceOrdinal, b.ordinal))

def definitionsInOrder (rows : List DefinitionRow) : List DefinitionRow :=
  rows.mergeSort fun a b => inOrder (a.fileSeq, a.ordinal) (b.fileSeq, b.ordinal)

def referencesInOrder (rows : List ReferenceRow) : List ReferenceRow :=
  rows.mergeSort fun a b => inOrder (a.fileSeq, a.ordinal) (b.fileSeq, b.ordinal)

def readFiles (t : Tables) : Loading (List File) := do
  let files := drafts (← need t.files)
  let files ← (namespacesInOrder (← need t.namespaces)).foldlM enterNamespace files
  let files ← (symbolsInOrder (← need t.symbols)).foldlM enterSymbol files
  let files ← (definitionsInOrder (← need t.definitions)).foldlM enterDefinition files
  let files ← (referencesInOrder (← need t.references)).foldlM enterReference files
  .ok (files.map Prod.snd)

def checkSchema (t : Tables) : Loading Unit := do
  let found := appliedSchema (← need t.schema)
  if found < -0x80000000 ∨ 0x80000000 ≤ found then unreadable
  else if found ≠ schemaVersion then .error (.incompatible (max found 0).toNat)
  else .ok ()

def readVersion (t : Tables) : Loading Nat := do
  let text ← need (t.setting? "format_version")
  match word32? text with
  | none => .error (.corrupt .badVersion)
  | some version => if version = snapshotVersion then .ok version else .error (.incompatible version)

def load (t : Tables) : Loading DatedSnapshot := do
  t.checkSchema
  let version ← t.readVersion
  let createdAt ← need ((t.setting? "created_at").bind Timestamp.parse?)
  let files ← t.readFiles
  .ok ⟨⟨version, files⟩, createdAt⟩

end Tables

end SemanticIndex
