import SemanticIndex.Tree.Basic
import SemanticIndex.Tree.Concrete
import SemanticIndex.Text.Search

namespace SemanticIndex

namespace Concrete

def hasToken (children : List Concrete) (token : String) : Bool :=
  children.any fun c =>
    !c.shape.named && Text.equalsIgnoringCase c.shape.kind.toList token.toList

def importKind (children : List Concrete) : ImportKind :=
  if hasToken children "function" then .functions
  else if hasToken children "const" then .constants
  else .classes

def useDeclarationKind (children : List Concrete) : ImportKind :=
  match importKind children with
  | .classes =>
      match children.find? (·.shape.named) with
      | some first =>
          if first.shape.kind == "namespace_use_clause" then importKind first.children else .classes
      | none => .classes
  | kind => kind

def expressionHolders : List String :=
  ["argument", "array_element_initializer", "arrow_function", "case_statement", "echo_statement",
   "exit_statement", "expression_statement", "for_statement", "match_condition_list",
   "print_intrinsic", "return_statement", "static_variable_declaration"]

def classify (kind : String) (children : List Concrete) : NodeKind :=
  match kind with
  | "program" => .program
  | "namespace_definition" => .namespaceDefinition
  | "namespace_name" => .namespaceName
  | "namespace_use_declaration" => .useDeclaration (useDeclarationKind children)
  | "namespace_use_clause" => .useClause (importKind children)
  | "namespace_use_group_clause" => .useClause (importKind children)
  | "namespace_use_group" => .useGroup
  | "namespace_aliasing_clause" => .useAlias
  | "class_declaration" => .classDeclaration
  | "interface_declaration" => .interfaceDeclaration
  | "trait_declaration" => .traitDeclaration
  | "enum_declaration" => .enumDeclaration
  | "anonymous_class" => .anonymousClass
  | "enum_case" => .enumCase
  | "function_definition" => .functionDefinition
  | "method_declaration" => .methodDeclaration
  | "property_declaration" => .propertyDeclaration
  | "property_element" => .propertyElement
  | "property_promotion_parameter" => .promotedProperty
  | "const_declaration" => .constDeclaration
  | "const_element" => .constElement
  | "declaration_list" => .declarationList
  | "enum_declaration_list" => .declarationList
  | "compound_statement" => .compoundStatement
  | "base_clause" => .baseClause
  | "class_interface_clause" => .interfaceClause
  | "static_modifier" => .staticModifier
  | "use_declaration" => .traitUse
  | "attribute" => .attribute
  | "name" => .name
  | "qualified_name" => .qualifiedName
  | "relative_name" => .qualifiedName
  | "relative_scope" => .relativeScope
  | "variable_name" => .variableName
  | "named_type" => .namedType
  | "function_call_expression" => .functionCall
  | "object_creation_expression" => .objectCreation
  | "scoped_call_expression" => .scopedCall
  | "class_constant_access_expression" => .classConstantAccess
  | "scoped_property_access_expression" => .scopedPropertyAccess
  | "member_call_expression" => .memberCall
  | "nullsafe_member_call_expression" => .memberCall
  | "member_access_expression" => .memberAccess
  | "nullsafe_member_access_expression" => .memberAccess
  | "comment" => .comment
  | "ERROR" => .error
  | _ =>
      if kind == "binary_expression" && hasToken children "instanceof" then .instanceOf
      else if Text.endsWith "_expression".toList kind.toList || expressionHolders.contains kind then
        .expression
      else .other

def role (name : String) : Field :=
  match name with
  | "name" => .name
  | "body" => .body
  | "alias" => .aliased
  | "scope" => .scope
  | "object" => .object
  | "function" => .function
  | "type" => .typing
  | "parameters" => .parameters
  | "arguments" => .arguments
  | "value" => .value
  | "default_value" => .defaultValue
  | "left" => .left
  | "right" => .right
  | _ => .other

mutual

def addTo (t : Tree) (parent : Nat) : Concrete → Tree
  | .node s cs =>
      if s.missing then addAllTo t.markFlawed parent cs
      else if s.named then
        addAllTo (t.push (classify s.kind cs) (s.field.map role) s.start s.stop (some parent)) t.size cs
      else addAllTo t parent cs

def addAllTo (t : Tree) (parent : Nat) : List Concrete → Tree
  | [] => t
  | c :: cs => addAllTo (addTo t parent c) parent cs

end

end Concrete

def Parse.toTree (p : Parse) (uri text : String) : Tree :=
  let s := p.root.shape
  let t := (Tree.empty uri text).push .program none s.start s.stop none
  Concrete.addAllTo (if p.hasError then t.markFlawed else t) Tree.root p.root.children

end SemanticIndex
