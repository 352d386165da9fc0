import SemanticIndex.Tree.Kind

namespace SemanticIndex

def ImportKind.label : ImportKind → String
  | .classes => "Class"
  | .functions => "Function"
  | .constants => "Constant"

def ImportKind.all : List ImportKind := [.classes, .functions, .constants]

def NodeKind.label : NodeKind → String
  | .program => "Program"
  | .namespaceDefinition => "NamespaceDefinition"
  | .namespaceName => "NamespaceName"
  | .useDeclaration imports => "UseDeclaration(" ++ imports.label ++ ")"
  | .useClause imports => "UseClause(" ++ imports.label ++ ")"
  | .useGroup => "UseGroup"
  | .useAlias => "UseAlias"
  | .classDeclaration => "ClassDeclaration"
  | .interfaceDeclaration => "InterfaceDeclaration"
  | .traitDeclaration => "TraitDeclaration"
  | .enumDeclaration => "EnumDeclaration"
  | .anonymousClass => "AnonymousClass"
  | .enumCase => "EnumCase"
  | .functionDefinition => "FunctionDefinition"
  | .methodDeclaration => "MethodDeclaration"
  | .propertyDeclaration => "PropertyDeclaration"
  | .propertyElement => "PropertyElement"
  | .promotedProperty => "PromotedProperty"
  | .constDeclaration => "ConstDeclaration"
  | .constElement => "ConstElement"
  | .declarationList => "DeclarationList"
  | .compoundStatement => "CompoundStatement"
  | .baseClause => "BaseClause"
  | .interfaceClause => "InterfaceClause"
  | .staticModifier => "StaticModifier"
  | .traitUse => "TraitUse"
  | .attribute => "Attribute"
  | .name => "Name"
  | .qualifiedName => "QualifiedName"
  | .relativeScope => "RelativeScope"
  | .variableName => "VariableName"
  | .namedType => "NamedType"
  | .functionCall => "FunctionCall"
  | .objectCreation => "ObjectCreation"
  | .scopedCall => "ScopedCall"
  | .classConstantAccess => "ClassConstantAccess"
  | .scopedPropertyAccess => "ScopedPropertyAccess"
  | .memberCall => "MemberCall"
  | .memberAccess => "MemberAccess"
  | .instanceOf => "Instanceof"
  | .expression => "Expression"
  | .comment => "Comment"
  | .error => "Error"
  | .other => "Other"

def NodeKind.all : List NodeKind :=
  [.program, .namespaceDefinition, .namespaceName, .useGroup, .useAlias, .classDeclaration,
   .interfaceDeclaration, .traitDeclaration, .enumDeclaration, .anonymousClass, .enumCase,
   .functionDefinition, .methodDeclaration, .propertyDeclaration, .propertyElement,
   .promotedProperty, .constDeclaration, .constElement, .declarationList, .compoundStatement,
   .baseClause, .interfaceClause, .staticModifier, .traitUse, .attribute, .name, .qualifiedName,
   .relativeScope, .variableName, .namedType, .functionCall, .objectCreation, .scopedCall,
   .classConstantAccess, .scopedPropertyAccess, .memberCall, .memberAccess, .instanceOf,
   .expression, .comment, .error, .other] ++
  ImportKind.all.map .useDeclaration ++ ImportKind.all.map .useClause

def NodeKind.ofLabel? (label : String) : Option NodeKind :=
  NodeKind.all.find? (·.label == label)

def Field.label : Field → String
  | .name => "Name"
  | .body => "Body"
  | .aliased => "Alias"
  | .scope => "Scope"
  | .object => "Object"
  | .function => "Function"
  | .typing => "Type"
  | .parameters => "Parameters"
  | .arguments => "Arguments"
  | .value => "Value"
  | .defaultValue => "DefaultValue"
  | .left => "Left"
  | .right => "Right"
  | .other => "Other"

def Field.all : List Field :=
  [.name, .body, .aliased, .scope, .object, .function, .typing, .parameters, .arguments, .value,
   .defaultValue, .left, .right, .other]

def Field.ofLabel? (label : String) : Option Field :=
  Field.all.find? (·.label == label)

end SemanticIndex
