import SemanticIndex.Resolve.Enclosing

namespace SemanticIndex.Resolve

def propertyVariable (t : Tree) (i : Nat) : Option Nat :=
  ((t.childByField i .name).filter (t.kind · == .variableName)).or (t.childOfKind i .variableName)

def propertyName (t : Tree) (i : Nat) : Option String :=
  (propertyVariable t i).map fun v => Fqn.dropSigil (t.text v)

def declaredNameNode (t : Tree) (i : Nat) : Option Nat :=
  (t.childByField i .name).or (t.nameChild i)

def isStatic (t : Tree) (property : Nat) : Bool :=
  ((t.parent property).bind fun declaration => t.childOfKind declaration .staticModifier).isSome

def isClassConstant (t : Tree) (constant : Nat) : Bool :=
  match (t.parent constant).bind t.parent with
  | some owner => t.kind owner == .declarationList
  | none => false

def declaredFqnIn (t : Tree) (i : Nat) (context : NameContext) : Option String :=
  match t.kind i with
  | .functionDefinition => do
      let name ← t.childByField i .name
      some (Fqn.ofFunction (context.qualify (t.text name)))
  | .methodDeclaration => do
      let owner ← ownerFqn t i context
      let name ← t.childByField i .name
      some (Fqn.ofMethod owner (t.text name))
  | .propertyElement => do
      let owner ← ownerFqn t i context
      let name ← propertyName t i
      some (if isStatic t i then Fqn.ofStaticProperty owner name else Fqn.ofProperty owner name)
  | .promotedProperty => do
      let owner ← ownerFqn t i context
      let name ← propertyName t i
      some (Fqn.ofProperty owner name)
  | .constElement => do
      let name ← t.nameChild i
      if isClassConstant t i then
        let owner ← ownerFqn t i context
        some (Fqn.ofConstant owner (t.text name))
      else some (context.qualify (t.text name))
  | .enumCase => do
      let owner ← ownerFqn t i context
      let name ← declaredNameNode t i
      some (Fqn.ofConstant owner (t.text name))
  | kind => if kind.isClassLike then classFqn t i context else none

def declaredFqn (t : Tree) (i : Nat) : Option String :=
  declaredFqnIn t i (NameContext.ofNode t i)

def declaredName (t : Tree) (i : Nat) : Option String :=
  match t.kind i with
  | .propertyElement | .promotedProperty => propertyName t i
  | _ => (declaredNameNode t i).map t.text

end SemanticIndex.Resolve
