import SemanticIndex.Index.State
import SemanticIndex.Index.Walk
import SemanticIndex.Name.Fqn

namespace SemanticIndex

open Std

structure IndexStats where
  files : Nat
  namespaces : Nat
  symbols : Nat
  definitions : Nat
  references : Nat
  conflicts : Nat
  deriving DecidableEq, Repr

namespace Index

def total {α : Type} (measure : α → Nat) (xs : List α) : Nat :=
  xs.foldr (fun x n => measure x + n) 0

end Index

namespace IndexState

def parents (s : IndexState) (name : String) : List String :=
  match s.definition? name with
  | some d => d.parents
  | none => []

def linkCount (s : IndexState) : Nat :=
  Index.total (fun d => d.parents.length) (s.stored.flatMap fun slot => slot.file.definitions)

def ancestry (s : IndexState) (start : List String) : List String :=
  Index.walk s.parents (start.length + s.linkCount) [] start

def inherited? (s : IndexState) (fqn : String) : Option Definition := do
  let (owner, member) ← Fqn.splitMember? fqn
  ((s.ancestry [owner]).filter (· != owner)).findSome? fun name => s.definition? (name ++ member)

def lookup? (s : IndexState) (candidates : List String) : Option Definition :=
  (candidates.findSome? s.definition?).or (candidates.findSome? s.inherited?)

def refersTo (s : IndexState) (fqn : String) (f : File) : Bool :=
  f.references.any fun r => s.bound r == fqn

def referenceUris (s : IndexState) (fqn : String) : List String :=
  match s.referrers[fqn]? with
  | none => []
  | some uris =>
      uris.toList.filter fun uri =>
        match s.file? uri with
        | some f => s.refersTo fqn f
        | none => false

def referencesTo (s : IndexState) (fqn : String) : List Reference :=
  match s.referrers[fqn]? with
  | none => []
  | some uris =>
      let slots := (uris.toList.filterMap fun uri => s.slots[uri]?).mergeSort fun a b =>
        a.sequence ≤ b.sequence
      (slots.flatMap fun slot => slot.file.references).filter fun r => s.bound r == fqn

def conflicts (s : IndexState) (uri : String) : List String :=
  match s.file? uri with
  | none => []
  | some f => (f.definitions.filter fun d => !s.isLive d).map Definition.fqn

def stats (s : IndexState) : IndexStats :=
  let files := s.stored.map Slot.file
  { files := s.slots.size
    namespaces := Index.total (fun f => f.namespaces.length) files
    symbols := Index.total (fun f => f.symbols.length) files
    definitions := s.declarers.size
    references := Index.total (fun f => f.references.length) files
    conflicts := Index.total
      (fun f => (f.definitions.filter fun d => !s.isLive d).length) files }

end IndexState

end SemanticIndex
