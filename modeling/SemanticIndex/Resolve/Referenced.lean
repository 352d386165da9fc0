import SemanticIndex.Resolve.Declared

namespace SemanticIndex.Resolve

def scopeClass (t : Tree) (scope : Nat) (context : NameContext) : Option String :=
  match t.kind scope with
  | .relativeScope => relativeScope t scope (t.text scope) context
  | .name | .qualifiedName =>
      if Fqn.isRelativeScope (t.text scope) then relativeScope t scope (t.text scope) context
      else context.resolveClass (t.text scope)
  | _ => none

def nameUsage (t : Tree) (i : Nat) (context : NameContext) : List String :=
  match t.parent i with
  | none => []
  | some parent =>
      let field := t.field i
      if field == some .name || field == some .aliased then []
      else
        let asClass := (context.resolveClass (t.text i)).toList
        let asConstant := context.resolveConstant (t.text i)
        let isFirst := (t.children parent).head? == some i
        let other :=
          if field == some .value || field == some .defaultValue then asConstant else []
        match t.kind parent with
        | .objectCreation | .baseClause | .interfaceClause | .namedType | .attribute
        | .traitUse => asClass
        | .scopedCall | .scopedPropertyAccess => if field == some .scope then asClass else other
        | .classConstantAccess => if isFirst then asClass else other
        | .instanceOf => if field == some .right then asClass else asConstant
        | .expression => asConstant
        | .constElement => if isFirst then other else asConstant
        | _ => other

def scopedMember (t : Tree) (i : Nat) (context : NameContext) (kind : NodeKind)
    (member : String → String → String) : List String :=
  let owner := (t.childByField i .scope).bind fun scope => scopeClass t scope context
  let name := (t.childByField i .name).filter (t.kind · == kind)
  match owner, name with
  | some owner, some name => [member owner (t.text name)]
  | _, _ => []

def ownMember (t : Tree) (i : Nat) (context : NameContext)
    (member : String → String → String) : List String :=
  let onThis : Bool := match t.childByField i .object with
    | some object => t.kind object == .variableName && t.text object == "$this"
    | none => false
  let owner := if onThis then ownerFqn t i context else none
  let name := (t.childByField i .name).filter (t.kind · == .name)
  match owner, name with
  | some owner, some name => [member owner (t.text name)]
  | _, _ => []

def classConstant (t : Tree) (i : Nat) (context : NameContext) : List String :=
  match (t.children i).head?, (t.children i).getLast? with
  | some scope, some name =>
      if (t.children i).length < 2 || t.kind name != .name ||
          Text.equalsIgnoringCase (t.chars name) "class".toList then []
      else
        match scopeClass t scope context with
        | some owner => [Fqn.ofConstant owner (t.text name)]
        | none => []
  | _, _ => []

def referencedIn (t : Tree) (i : Nat) (context : NameContext) : List String :=
  match t.kind i with
  | .name | .qualifiedName => nameUsage t i context
  | .functionCall =>
      match (t.childByField i .function).filter fun f => (t.kind f).isPlainName with
      | some function => context.resolveFunction (t.text function)
      | none => []
  | .scopedCall => scopedMember t i context .name Fqn.ofMethod
  | .classConstantAccess => classConstant t i context
  | .scopedPropertyAccess =>
      scopedMember t i context .variableName fun owner name =>
        Fqn.ofStaticProperty owner (Fqn.dropSigil name)
  | .memberCall => ownMember t i context Fqn.ofMethod
  | .memberAccess => ownMember t i context Fqn.ofProperty
  | .useClause _ =>
      match Import.at? t i with
      | some ⟨.functions, target⟩ => [Fqn.ofFunction target]
      | some ⟨_, target⟩ => [target]
      | none => []
  | _ => []

def referenced (t : Tree) (i : Nat) : List String :=
  referencedIn t i (NameContext.ofNode t i)

def nameNode (t : Tree) (i : Nat) : Nat :=
  let named := match t.kind i with
    | .functionCall => t.childByField i .function
    | .scopedCall | .scopedPropertyAccess | .memberCall | .memberAccess => t.childByField i .name
    | .classConstantAccess => (t.children i).getLast?
    | .useClause _ => t.nameChild i
    | .propertyElement | .promotedProperty =>
        (t.childByField i .name).or (t.childOfKind i .variableName)
    | kind => if kind.isDeclaration then declaredNameNode t i else none
  named.getD i

def candidates (t : Tree) (i : Nat) : List String :=
  let context := NameContext.ofNode t i
  match declaredFqnIn t i context with
  | some fqn => [fqn]
  | none => referencedIn t i context

end SemanticIndex.Resolve
