import SemanticIndex.Index.Query
import SemanticIndex.Json.Value
import SemanticIndex.Resolve.Enclosing
import SemanticIndex.Server.Listing
import SemanticIndex.Text.Lowercase

namespace SemanticIndex.Server

open Text

inductive Scope where
  | anywhere
  | instanceMembers
  | staticMembers
  | parentMembers
  | unknown
  deriving DecidableEq, Repr

structure CompletionItem where
  label : String
  kind : SymbolKind
  detail : String
  deriving DecidableEq, Repr

structure CompletionList where
  isIncomplete : Bool
  items : List CompletionItem
  deriving DecidableEq, Repr

namespace Completion

def isIdentifierChar (c : Char) : Bool := c.isAlphanum || c == '_' || 128 ≤ c.toNat

def cutWord (text : List Char) : List Char × List Char :=
  let word := (text.reverse.takeWhile isIdentifierChar).reverse
  (text.take (text.length - word.length), word)

def scopeOfKeyword (keyword : List Char) : Scope :=
  match String.ofList (keyword.map Char.toLower) with
  | "self" => .staticMembers
  | "static" => .staticMembers
  | "parent" => .parentMembers
  | _ => .unknown

def scopeOf (head : List Char) : Scope :=
  match before? ['-', '>'] head with
  | some receiver =>
      if endsWith ['$', 't', 'h', 'i', 's'] receiver then .instanceMembers else .unknown
  | none =>
      match before? [':', ':'] ((before? ['$'] head).getD head) with
      | some owner => scopeOfKeyword (cutWord owner).2
      | none => .anywhere

def contextOf (line : List Char) : Scope × List Char :=
  let (head, word) := cutWord line
  (scopeOf head, word)

def itemOf (label : String) (d : Definition) : CompletionItem :=
  ⟨label, d.kind, d.signature.getD d.fqn⟩

def anywhere (s : IndexState) (word : List Char) : List CompletionItem :=
  let word := (lower (String.ofList word)).toList
  (s.liveDefinitions.filter fun d =>
    !d.kind.isMember && startsWith word (lower d.name).toList).map fun d => itemOf d.name d

def isStaticProperty (d : Definition) : Bool := contains [':', ':', '$'] d.fqn.toList

def label? (scope : Scope) (d : Definition) : Option String :=
  let ofInstance := scope == .instanceMembers
  match d.kind with
  | .method => some d.name
  | .property =>
      if ofInstance then if isStaticProperty d then none else some d.name
      else if isStaticProperty d then some ("$" ++ d.name) else none
  | .classConstant => if ofInstance then none else some d.name
  | .enumCase => if ofInstance then none else some d.name
  | _ => none

def labelFits (word : List Char) (label : String) : Bool :=
  startsWith word (dropRepeated ['$'] label.toList) || startsWith word label.toList

def owners (s : IndexState) (scope : Scope) (cls : String) : List String :=
  s.ancestry (if scope == .parentMembers then s.parents cls else [cls])

def membersOf (s : IndexState) (scope : Scope) (word : List Char) (owner : String) :
    List CompletionItem :=
  (s.liveDefinitions.filter fun d => d.container == some owner).filterMap fun d =>
    ((label? scope d).filter (labelFits word)).map fun label => itemOf label d

def arrange (items : List CompletionItem) : List CompletionItem :=
  dropRepeats (fun a b => a.label == b.label) (sortByText CompletionItem.label items)

def members (s : IndexState) (scope : Scope) (word : List Char) (cls : String) :
    List CompletionItem :=
  arrange ((owners s scope cls).flatMap (membersOf s scope word))

def items (s : IndexState) (cls : Option String) : Scope → (word : List Char) → List CompletionItem
  | .anywhere, word => if word.isEmpty then [] else anywhere s word
  | .unknown, _ => []
  | scope, word =>
      match cls with
      | some cls => members s scope word cls
      | none => []

def classAt? (t : Tree) (p : Position) : Option String := do
  let node ← t.nodeAt? p
  let cls ← Resolve.enclosingClass t node
  Resolve.classFqn t cls (NameContext.ofNode t cls)

def lineBefore (t : Tree) (offset : Nat) : List Char :=
  Text.afterLast '\n' ((Text.slice? t.source 0 offset).getD [])

def limit (most : Nat) (isComplete : Bool) (items : List CompletionItem) : CompletionList :=
  ⟨decide (most < items.length) || !isComplete, items.take most⟩

end Completion

def CompletionItem.toJson (i : CompletionItem) : Json :=
  .object [("label", .string i.label), ("kind", .nat i.kind.completionNumber),
    ("detail", .string i.detail)]

def CompletionList.toJson (l : CompletionList) : Json :=
  .object [("isIncomplete", .bool l.isIncomplete), ("items", .list CompletionItem.toJson l.items)]

end SemanticIndex.Server
