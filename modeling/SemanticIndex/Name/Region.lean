import SemanticIndex.Tree.Basic

namespace SemanticIndex

abbrev Region := Option Nat

namespace Region

def topStatement (t : Tree) (i : Nat) : Nat :=
  ((i :: t.ancestors i).dropLast.getLast?).getD i

def preceding (t : Tree) (top : Nat) : Option Nat :=
  (((t.children Tree.root).takeWhile (· != top)).filter
    (t.kind · == .namespaceDefinition)).getLast?

def of (t : Tree) (i : Nat) : Region :=
  match (i :: t.ancestors i).find? (t.kind · == .namespaceDefinition) with
  | some definition => some definition
  | none =>
      if topStatement t i = Tree.root then none else preceding t (topStatement t i)

end Region

end SemanticIndex
