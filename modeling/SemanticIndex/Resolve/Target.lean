import SemanticIndex.Resolve.Referenced

namespace SemanticIndex.Resolve

def isSegmentOf (t : Tree) (parent : Nat) : Bool :=
  match t.kind parent with
  | .qualifiedName | .namespaceName | .variableName => true
  | .other =>
      match t.parent parent with
      | some outer => t.kind outer == .qualifiedName
      | none => false
  | _ => false

def wholeName (t : Tree) (i : Nat) : Nat :=
  match t.kind i with
  | .name | .namespaceName | .other =>
      match _h : t.parent i with
      | some parent => if isSegmentOf t parent then wholeName t parent else i
      | none => i
  | _ => i
termination_by i
decreasing_by exact Tree.parent_lt _h

def widen (t : Tree) (i parent : Nat) : Nat :=
  let field := t.field i
  match t.kind parent with
  | .functionCall => if field == some .function then parent else i
  | .memberCall | .memberAccess | .scopedCall | .scopedPropertyAccess =>
      if field == some .name then parent else i
  | .classConstantAccess =>
      if (t.children parent).length > 1 && (t.children parent).getLast? == some i then parent else i
  | .useClause _ => parent
  | .useAlias => (t.parent parent).getD parent
  | .propertyElement | .promotedProperty | .constElement | .enumCase => parent
  | kind => if kind.isDeclaration && field == some .name then parent else i

def target (t : Tree) (leaf : Nat) : Nat :=
  let i := wholeName t leaf
  let kind := t.kind i
  if kind.isDeclaration || kind.isAccess || !kind.isName then i
  else
    match t.parent i with
    | some parent => widen t i parent
    | none => i

end SemanticIndex.Resolve
