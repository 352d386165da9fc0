import SemanticIndex.Resolve.Target
import SemanticIndex.Server.Completion
import SemanticIndex.Server.Call
import SemanticIndex.Server.Place
import SemanticIndex.Sync.Indexer

namespace SemanticIndex.Server

variable {ε : Type}

def targetAt? (services : Services ε) (x : Indexer) (c : Cursor) : Option (Tree × Nat) × Indexer :=
  let x := x.ensureFresh services c.uri
  match x.tree services c.uri with
  | (.error _, x) => (none, x)
  | (.ok tree, x) =>
      ((tree.nodeAt? c.position).map fun leaf => (tree, Resolve.target tree leaf), x)

def definitionAt? (x : Indexer) (tree : Tree) (target : Nat) : Option Definition :=
  x.repository.state.lookup? (Resolve.candidates tree target)

def resolve (services : Services ε) (x : Indexer) (tree : Tree) (target : Nat) :
    Option Definition × Indexer :=
  match definitionAt? x tree target with
  | none => (none, x)
  | some d =>
      if x.repository.state.isVerified d.uri then (some d, x)
      else
        let x := x.ensureFresh services d.uri
        (definitionAt? x tree target, x)

def resolveAt? (services : Services ε) (x : Indexer) (c : Cursor) :
    Option (Tree × Nat × Definition) × Indexer :=
  match targetAt? services x c with
  | (none, x) => (none, x)
  | (some (tree, target), x) =>
      let (found, x) := resolve services x tree target
      (found.map fun d => (tree, target, d), x)

def symbolJson (uri : String) (s : Symbol) : Json :=
  let container := s.container.or (if s.space.isEmpty then none else some s.space)
  .object ([("name", .string s.name), ("kind", .nat s.kind.protocolNumber),
    ("location", placeJson uri s.range)] ++ match container with
    | some c => [("containerName", .string c)]
    | none => [])

def symbols (services : Services ε) (x : Indexer) (uri : String) : Json × Indexer :=
  let x := x.ensureFresh services uri
  let x := if x.repository.state.contains uri then x else (x.index services uri).2
  (.list (symbolJson uri) (x.repository.state.symbolRows fun f => f.uri == uri), x)

def definition (services : Services ε) (x : Indexer) (c : Cursor) : Json × Indexer :=
  let (found, x) := resolveAt? services x c
  (.array ((found.bind fun (_, _, d) => place? d.uri d.range).toList), x)

def ensureAllFresh (services : Services ε) (x : Indexer) (uris : List String) : Indexer :=
  uris.foldl (fun x uri => x.ensureFresh services uri) x

def arrangePlaces (places : List (String × Range)) : List (String × Range) :=
  let before (a b : String × Range) : Bool :=
    decide (a.1 < b.1) || (a.1 == b.1 && decide (a.2.start ≤ b.2.start))
  dropRepeats (fun a b => a.1 == b.1 && a.2.start == b.2.start) (places.mergeSort before)

def referencePlaces (services : Services ε) (x : Indexer) (candidates : List String)
    (includeDeclaration : Bool) : List (String × Range) × Indexer :=
  let found := x.repository.state.lookup? candidates
  let fqn := (found.map Definition.fqn).getD (candidates.headD "")
  let x := ensureAllFresh services x (x.repository.state.referenceUris fqn)
  let places := (x.repository.state.referencesTo fqn).map fun r => (r.uri, r.range)
  let declared := if includeDeclaration then found.toList.map fun d => (d.uri, d.range) else []
  (arrangePlaces (places ++ declared), x)

def references (services : Services ε) (x : Indexer) (search : ReferenceSearch) : Json × Indexer :=
  match targetAt? services x search.cursor with
  | (none, x) => (.array [], x)
  | (some (tree, target), x) =>
      let candidates := Resolve.candidates tree target
      if candidates.isEmpty then (.array [], x)
      else
        let (places, x) := referencePlaces services x candidates search.includeDeclaration
        (.array (places.filterMap fun (uri, range) => place? uri range), x)

def hoverText (d : Definition) : String :=
  let head := "\x60\x60\x60php\n" ++ d.signature.getD d.fqn ++ "\n\x60\x60\x60"
  match d.documentation with
  | some doc => if doc.isEmpty then head else head ++ "\n\n" ++ doc
  | none => head

def hover (services : Services ε) (x : Indexer) (c : Cursor) : Json × Indexer :=
  let (found, x) := resolveAt? services x c
  match found with
  | none => (.null, x)
  | some (tree, target, d) =>
      (.object [("contents", .object [("kind", .string "markdown"), ("value", .string (hoverText d))]),
        ("range", rangeJson (tree.range (Resolve.nameNode tree target)))], x)

def completionsAt (r : Repository) (most : Nat) (t : Tree) (p : Position) (offset : Nat) :
    CompletionList :=
  let (scope, word) := Completion.contextOf (Completion.lineBefore t offset)
  let items := Completion.items r.state (Completion.classAt? t p) scope word
  Completion.limit most (r.status == .complete) (Completion.arrange items)

def completion (services : Services ε) (x : Indexer) (most : Nat) (c : Cursor) :
    CompletionList × Indexer :=
  match x.tree services c.uri with
  | (.error _, x) => (⟨false, []⟩, x)
  | (.ok tree, x) =>
      match tree.lines.offset? c.position with
      | none => (⟨false, []⟩, x)
      | some offset => (completionsAt x.repository most tree c.position offset, x)

def describedJson (package : Json) (d : Definition) : Option Json :=
  (place? d.uri d.range).map fun place =>
    .object [("symbol", .object [("fqsen", .string d.fqn), ("name", .string d.name),
        ("kind", .nat d.kind.protocolNumber), ("containerName", .option .string d.container),
        ("package", package)]),
      ("location", place)]

def symbolDefinition (services : Services ε) (x : Indexer) (package : Json) (c : Cursor) :
    Json × Indexer :=
  let (found, x) := resolveAt? services x c
  (.array ((found.bind fun (_, _, d) => describedJson package d).toList), x)

end SemanticIndex.Server
