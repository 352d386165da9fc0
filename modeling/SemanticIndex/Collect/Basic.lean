import SemanticIndex.Collect.Documentation
import SemanticIndex.Record.Basic

namespace SemanticIndex

open Resolve

structure Scope where
  region : Region
  context : NameContext

def Scope.ofRegion (t : Tree) (region : Region) : Scope :=
  ⟨region, NameContext.ofRegion t region⟩

namespace Collect

def enter (t : Tree) (scope : Scope) (i : Nat) : Scope :=
  if t.kind i = .namespaceDefinition then Scope.ofRegion t (some i) else scope

def visitsFrom (t : Tree) (scope : Scope) (i : Nat) : List (Nat × Scope) :=
  let inner := enter t scope i
  (i, scope) :: (t.children i).attach.flatMap fun c => visitsFrom t inner c.val
termination_by t.size - i
decreasing_by
  have := Tree.lt_of_mem_children c.property
  omega

def visitsOver (t : Tree) (scope : Scope) : List Nat → List (Nat × Scope)
  | [] => []
  | i :: rest =>
      let here := enter t scope i
      visitsFrom t here i ++ visitsOver t here rest

def visits (t : Tree) : List (Nat × Scope) :=
  visitsOver t (Scope.ofRegion t none) (t.children Tree.root)

def symbolKind (kind : NodeKind) (fqn : String) : SymbolKind :=
  match kind with
  | .interfaceDeclaration => .interface
  | .traitDeclaration => .trait
  | .enumDeclaration => .enum
  | .enumCase => .enumCase
  | .functionDefinition => .function
  | .methodDeclaration => .method
  | .propertyElement | .promotedProperty => .property
  | .constElement =>
      if Text.contains [':', ':'] fqn.toList then .classConstant else .constant
  | _ => .classType

def symbol? (t : Tree) (i : Nat) (context : NameContext) : Option Symbol := do
  let fqn ← declaredFqnIn t i context
  let name ← declaredName t i
  some
    { name := name
      kind := symbolKind (t.kind i) fqn
      fqn := fqn
      range := t.range i
      space := context.space
      container := (Fqn.splitMember? fqn).map Prod.fst }

def definition (t : Tree) (i : Nat) (context : NameContext) (s : Symbol) : Definition where
  fqn := s.fqn
  name := s.name
  kind := s.kind
  uri := t.uri
  range := s.range
  container := s.container
  signature := signature t i
  documentation := documentation t i
  parents := if s.kind.isClassLike then classParents t i context ++ traitUses t i context else []

def reference? (t : Tree) (i : Nat) (context : NameContext) : Option Reference :=
  match referencedIn t i context with
  | [] => none
  | fqn :: others =>
      some
        { fqn := fqn
          uri := t.uri
          range := t.range (nameNode t i)
          fallback := others.head? }

def withNamespace (name : String) (namespaces : List Namespace) : List Namespace :=
  if namespaces.any (·.name == name) then namespaces else namespaces ++ [⟨name, []⟩]

def withSymbol (s : Symbol) (namespaces : List Namespace) : List Namespace :=
  (withNamespace s.space namespaces).map fun n =>
    if n.name == s.space then { n with symbols := n.symbols ++ [s] } else n

structure Findings where
  namespaces : List Namespace
  definitions : List Definition
  references : List Reference
  deriving DecidableEq, Repr

namespace Findings

def empty : Findings := ⟨[], [], []⟩

def declare (found : Findings) (t : Tree) (i : Nat) (context : NameContext) : Findings :=
  match symbol? t i context with
  | none => found
  | some s =>
      { found with
        namespaces := withSymbol s found.namespaces
        definitions :=
          if found.definitions.any (·.fqn == s.fqn) then found.definitions
          else found.definitions ++ [definition t i context s] }

def refer (found : Findings) (t : Tree) (i : Nat) (context : NameContext) : Findings :=
  { found with references := found.references ++ (reference? t i context).toList }

def visit (t : Tree) (found : Findings) (v : Nat × Scope) : Findings :=
  let (i, scope) := v
  let kind := t.kind i
  if kind = .namespaceDefinition then
    { found with namespaces := withNamespace scope.context.space found.namespaces }
  else if kind.isDeclaration then found.declare t i scope.context
  else if kind.isUsage then found.refer t i scope.context
  else found

end Findings

def findings (t : Tree) : Findings :=
  (visits t).foldl (Findings.visit t) Findings.empty

end Collect

def collect (t : Tree) (contentHash : String) (parseMillis : UInt64) : File :=
  let found := Collect.findings t
  { uri := t.uri
    contentHash := contentHash
    parseMillis := parseMillis
    hasErrors := t.flawed
    namespaces := found.namespaces
    definitions := found.definitions
    references := found.references }

end SemanticIndex
