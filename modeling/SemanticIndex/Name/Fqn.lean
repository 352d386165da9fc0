import SemanticIndex.Text.Search
import SemanticIndex.Text.Lowercase

namespace SemanticIndex

open Text

namespace Fqn

def qualify (space name : String) : String :=
  if space.isEmpty then name else space ++ "\\" ++ name

def ofFunction (name : String) : String := name ++ "()"

def ofMethod (owner name : String) : String := owner ++ "::" ++ name ++ "()"

def ofConstant (owner name : String) : String := owner ++ "::" ++ name

def ofStaticProperty (owner name : String) : String := owner ++ "::$" ++ name

def ofProperty (owner name : String) : String := owner ++ "->" ++ name

def splitChars? : List Char → Option (List Char × List Char)
  | [] => none
  | c :: cs =>
      if startsWith [':', ':'] (c :: cs) || startsWith ['-', '>'] (c :: cs) then some ([], c :: cs)
      else (splitChars? cs).map fun (front, rest) => (c :: front, rest)

def splitMember? (fqn : String) : Option (String × String) :=
  (splitChars? fqn.toList).map fun (owner, member) => (String.ofList owner, String.ofList member)

theorem splitChars?_append {cs front rest : List Char} (h : splitChars? cs = some (front, rest)) :
    cs = front ++ rest := by
  induction cs generalizing front with
  | nil => simp [splitChars?] at h
  | cons c cs ih =>
      rw [splitChars?] at h
      split at h
      · simp only [Option.some.injEq, Prod.mk.injEq] at h
        simp [← h.1, ← h.2]
      · simp only [Option.map_eq_some_iff, Prod.mk.injEq] at h
        obtain ⟨⟨f, r⟩, hf, rfl, rfl⟩ := h
        simp [ih hf]

def lastSegment (name : String) : String :=
  String.ofList (afterLast '\\' name.toList)

def dropLeadingSlashes (name : String) : String :=
  String.ofList (name.toList.dropWhile (· == '\\'))

def dropOuterSlashes (name : String) : String :=
  String.ofList (dropWhileEnd (· == '\\') (name.toList.dropWhile (· == '\\')))

def dropSigil (name : String) : String :=
  String.ofList (name.toList.dropWhile (· == '$'))

def isRelativeScope (name : String) : Bool :=
  ["self", "static", "parent"].contains (lower name)

def afterNamespaceKeyword? (raw : List Char) : Option (List Char) :=
  if equalsIgnoringCase (raw.take 10) "namespace\\".toList then some (raw.drop 10) else none

end Fqn

end SemanticIndex
