namespace SemanticIndex

inductive ImportKind where
  | classes
  | functions
  | constants
  deriving DecidableEq, Repr

inductive NodeKind where
  | program
  | namespaceDefinition
  | namespaceName
  | useDeclaration (imports : ImportKind)
  | useClause (imports : ImportKind)
  | useGroup
  | useAlias
  | classDeclaration
  | interfaceDeclaration
  | traitDeclaration
  | enumDeclaration
  | anonymousClass
  | enumCase
  | functionDefinition
  | methodDeclaration
  | propertyDeclaration
  | propertyElement
  | promotedProperty
  | constDeclaration
  | constElement
  | declarationList
  | compoundStatement
  | baseClause
  | interfaceClause
  | staticModifier
  | traitUse
  | attribute
  | name
  | qualifiedName
  | relativeScope
  | variableName
  | namedType
  | functionCall
  | objectCreation
  | scopedCall
  | classConstantAccess
  | scopedPropertyAccess
  | memberCall
  | memberAccess
  | instanceOf
  | expression
  | comment
  | error
  | other
  deriving DecidableEq, Repr

namespace NodeKind

def isClassLike : NodeKind → Bool
  | classDeclaration | interfaceDeclaration | traitDeclaration | enumDeclaration => true
  | _ => false

def isDeclaration : NodeKind → Bool
  | functionDefinition | methodDeclaration | propertyElement | promotedProperty | constElement
  | enumCase => true
  | k => k.isClassLike

def isName : NodeKind → Bool
  | name | qualifiedName | namespaceName | variableName | relativeScope => true
  | _ => false

def isPlainName : NodeKind → Bool
  | name | qualifiedName => true
  | _ => false

def isUseClause : NodeKind → Bool
  | useClause _ => true
  | _ => false

def isAccess : NodeKind → Bool
  | functionCall | scopedCall | classConstantAccess | scopedPropertyAccess | memberCall
  | memberAccess | useClause _ => true
  | _ => false

def isUsage (k : NodeKind) : Bool :=
  k.isPlainName || k.isAccess

theorem isDeclaration_of_isClassLike {k : NodeKind} (h : k.isClassLike) : k.isDeclaration := by
  cases k <;> simp_all [isClassLike, isDeclaration]

theorem not_isUsage_of_isDeclaration {k : NodeKind} (h : k.isDeclaration) : k.isUsage = false := by
  cases k <;> simp_all [isClassLike, isDeclaration, isUsage, isPlainName, isAccess]

end NodeKind

inductive Field where
  | name
  | body
  | aliased
  | scope
  | object
  | function
  | typing
  | parameters
  | arguments
  | value
  | defaultValue
  | left
  | right
  | other
  deriving DecidableEq, Repr

end SemanticIndex
