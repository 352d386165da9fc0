import SemanticIndex.Name.Context

namespace SemanticIndex

namespace Resolve

def firstClass (t : Tree) : List Nat → Option Nat
  | [] => none
  | i :: rest =>
      if (t.kind i).isClassLike then some i
      else
        match t.kind i with
        | .anonymousClass => none
        | .objectCreation =>
            if (t.childOfKind i .declarationList).isSome then none else firstClass t rest
        | _ => firstClass t rest

def enclosingClass (t : Tree) (i : Nat) : Option Nat :=
  firstClass t (i :: t.ancestors i)

def classFqn (t : Tree) (cls : Nat) (context : NameContext) : Option String :=
  (t.childByField cls .name).map fun name => context.qualify (t.text name)

def namedClasses (t : Tree) (context : NameContext) (clauses : List Nat) : List String :=
  ((clauses.flatMap t.children).filter fun c => (t.kind c).isPlainName).filterMap fun name =>
    context.resolveClass (t.text name)

def classParents (t : Tree) (cls : Nat) (context : NameContext) : List String :=
  namedClasses t context <|
    (t.children cls).filter fun c => t.kind c == .baseClause || t.kind c == .interfaceClause

def traitUses (t : Tree) (cls : Nat) (context : NameContext) : List String :=
  match t.childByField cls .body with
  | none => []
  | some body => namedClasses t context ((t.children body).filter (t.kind · == .traitUse))

def relativeScope (t : Tree) (i : Nat) (keyword : String) (context : NameContext) :
    Option String := do
  let cls ← enclosingClass t i
  let word := Text.lower keyword
  if word == "self" || word == "static" then classFqn t cls context
  else if word == "parent" then
    let base ← t.childOfKind cls .baseClause
    let name ← t.nameChild base
    context.resolveClass (t.text name)
  else none

def ownerFqn (t : Tree) (i : Nat) (context : NameContext) : Option String :=
  (enclosingClass t i).bind fun cls => classFqn t cls context

end Resolve

end SemanticIndex
