import SemanticIndex.Name.Fqn
import SemanticIndex.Name.Region

namespace SemanticIndex

open Text

structure NameContext where
  space : String
  classes : List (String × String)
  functions : List (String × String)
  constants : List (String × String)
  deriving DecidableEq, Repr, Inhabited

structure Import where
  kind : ImportKind
  target : String
  deriving DecidableEq, Repr

namespace Import

def ofClause? (t : Tree) (clause : Nat) (declared : ImportKind) (lead : Option String) :
    Option Import :=
  match t.kind clause with
  | .useClause own => do
      let name ← t.nameChild clause
      let imported := Fqn.dropLeadingSlashes (t.text name)
      if imported.isEmpty then none
      else
        some ⟨if own = .classes then declared else own, Fqn.qualify (lead.getD "") imported⟩
  | _ => none

def groupLead (t : Tree) (declaration : Nat) : Option String :=
  (t.nameChild declaration).map fun name => Fqn.dropOuterSlashes (t.text name)

def at? (t : Tree) (clause : Nat) : Option Import := do
  let above ← t.parent clause
  let inGroup := t.kind above == .useGroup
  let declaration ← if inGroup then t.parent above else some above
  match t.kind declaration with
  | .useDeclaration declared =>
      ofClause? t clause declared (if inGroup then groupLead t declaration else none)
  | _ => none

end Import

namespace NameContext

def alias? (t : Tree) (clause : Nat) : Option String :=
  ((t.childByField clause .aliased).or
    ((t.childOfKind clause .useAlias).bind t.nameChild)).map t.text

def insert (context : NameContext) (i : Import) (byName : String) : NameContext :=
  match i.kind with
  | .classes => { context with classes := (lower byName, i.target) :: context.classes }
  | .functions => { context with functions := (lower byName, i.target) :: context.functions }
  | .constants => { context with constants := (byName, i.target) :: context.constants }

def addClause (t : Tree) (declared : ImportKind) (lead : Option String) (context : NameContext)
    (clause : Nat) : NameContext :=
  match Import.ofClause? t clause declared lead with
  | none => context
  | some i => context.insert i ((alias? t clause).getD (Fqn.lastSegment i.target))

def clauses (t : Tree) (declaration : Nat) : List Nat :=
  let inGroup := match t.childOfKind declaration .useGroup with
    | some group => t.children group
    | none => []
  (t.children declaration ++ inGroup).filter fun c => (t.kind c).isUseClause

def addDeclaration (t : Tree) (context : NameContext) (declaration : Nat) : NameContext :=
  match t.kind declaration with
  | .useDeclaration declared =>
      let lead := (t.childOfKind declaration .useGroup).bind fun _ => Import.groupLead t declaration
      (clauses t declaration).foldl (addClause t declared lead) context
  | _ => context

def spaceOf (t : Tree) (definition : Nat) : String :=
  match t.childByField definition .name with
  | some name => Fqn.dropLeadingSlashes (t.text name)
  | none => ""

def statements (t : Tree) : Region → List Nat
  | some definition =>
      match t.childByField definition .body with
      | some body => t.children body
      | none =>
          (((t.children Tree.root).dropWhile (· != definition)).drop 1).takeWhile
            (t.kind · != .namespaceDefinition)
  | none => (t.children Tree.root).takeWhile (t.kind · != .namespaceDefinition)

def ofRegion (t : Tree) (region : Region) : NameContext :=
  let space := match region with
    | some definition => spaceOf t definition
    | none => ""
  (statements t region).foldl (addDeclaration t) ⟨space, [], [], []⟩

def ofNode (t : Tree) (i : Nat) : NameContext :=
  ofRegion t (Region.of t i)

def qualify (context : NameContext) (name : String) : String :=
  Fqn.qualify context.space name

def importedClass (context : NameContext) (raw : List Char) : String :=
  let (first, rest) := match splitOnce? '\\' raw with
    | some (first, rest) => (first, some rest)
    | none => (raw, none)
  match context.classes.lookup (lower (String.ofList first)) with
  | some target =>
      match rest with
      | some rest => target ++ "\\" ++ String.ofList rest
      | none => target
  | none => context.qualify (String.ofList raw)

def resolveClass (context : NameContext) (raw : String) : Option String :=
  let raw := trim raw.toList
  if raw.isEmpty || Fqn.isRelativeScope (String.ofList raw) then none
  else
    match raw with
    | '\\' :: absolute => some (String.ofList absolute)
    | _ =>
        match Fqn.afterNamespaceKeyword? raw with
        | some relative => some (context.qualify (String.ofList relative))
        | none => some (context.importedClass raw)

def resolvePlain (context : NameContext) (raw : String) (imports : List (String × String))
    (fold : String → String) : List String :=
  let raw := trim raw.toList
  if raw.isEmpty then []
  else
    match raw with
    | '\\' :: absolute => [String.ofList absolute]
    | _ =>
        match Fqn.afterNamespaceKeyword? raw with
        | some relative => [context.qualify (String.ofList relative)]
        | none =>
            let name := String.ofList raw
            if raw.contains '\\' then (context.resolveClass name).toList
            else
              match imports.lookup (fold name) with
              | some target => [target]
              | none =>
                  if context.space.isEmpty then [context.qualify name]
                  else [context.qualify name, name]

def resolveFunction (context : NameContext) (raw : String) : List String :=
  (context.resolvePlain raw context.functions lower).map Fqn.ofFunction

def resolveConstant (context : NameContext) (raw : String) : List String :=
  if ["true", "false", "null"].contains (lower raw) then []
  else context.resolvePlain raw context.constants id

end NameContext

end SemanticIndex
