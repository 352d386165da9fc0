import SemanticIndex.Proofs.Text.Folding
import SemanticIndex.Proofs.Text.Occurrence
import SemanticIndex.Server.Completion

namespace SemanticIndex.Server.Completion

open Text

variable {scope : Scope} {head front keyword sigil word : List Char}

inductive Opens : Scope → (head : List Char) → Prop where
  | this (front : List Char) : Opens .instanceMembers (front ++ "$this->".toList)
  | own {front keyword sigil : List Char}
      (hfront : ∀ c ∈ front.getLast?, isIdentifierChar c = false)
      (hkeyword : keyword.map Char.toLower = "self".toList ∨
        keyword.map Char.toLower = "static".toList)
      (hsigil : sigil = [] ∨ sigil = ['$']) :
      Opens .staticMembers (front ++ keyword ++ "::".toList ++ sigil)
  | parent {front keyword sigil : List Char}
      (hfront : ∀ c ∈ front.getLast?, isIdentifierChar c = false)
      (hkeyword : keyword.map Char.toLower = "parent".toList)
      (hsigil : sigil = [] ∨ sigil = ['$']) :
      Opens .parentMembers (front ++ keyword ++ "::".toList ++ sigil)

theorem isIdentifierChar_of_toLower {c : Char} (h : isIdentifierChar c.toLower = true) :
    isIdentifierChar c = true := by
  by_cases hc : c.toNat < 128
  · exact ofNat_of_ascii
      (P := fun c => isIdentifierChar c.toLower = true → isIdentifierChar c = true) (by decide) hc h
  · simp [isIdentifierChar, Nat.le_of_not_lt hc]

theorem isIdentifierChar_of_map_toLower {lowered : List Char}
    (hlowered : ∀ c ∈ lowered, isIdentifierChar c = true)
    (h : keyword.map Char.toLower = lowered) : ∀ c ∈ keyword, isIdentifierChar c = true := by
  intro c hc
  refine isIdentifierChar_of_toLower (hlowered _ ?_)
  rw [← h]
  exact List.mem_map_of_mem hc

theorem cutWord_append (hhead : ∀ c ∈ head.getLast?, isIdentifierChar c = false)
    (hword : ∀ c ∈ word, isIdentifierChar c = true) : cutWord (head ++ word) = (head, word) := by
  have hstop : head.reverse.takeWhile isIdentifierChar = [] := by
    cases hr : head.reverse with
    | nil => rfl
    | cons c rest =>
      rw [List.takeWhile_cons_of_neg]
      simpa using hhead c (by rw [← List.head?_reverse, hr]; rfl)
  have hlast : ((head ++ word).reverse.takeWhile isIdentifierChar).reverse = word := by
    rw [List.reverse_append, List.takeWhile_append_of_pos (by simpa using hword), hstop,
      List.append_nil, List.reverse_reverse]
  simp only [cutWord, hlast, List.length_append, Nat.add_sub_cancel, List.take_left]

theorem before?_append (text tail : List Char) : before? tail (text ++ tail) = some text :=
  before?_eq_some_iff.mpr rfl

theorem before?_eq_none {tail text : List Char} {c : Char} (hlast : tail.getLast? = some c)
    (hne : text.getLast? ≠ some c) : before? tail text = none := by
  refine Option.eq_none_iff_forall_ne_some.mpr fun rest hrest => hne ?_
  rw [before?_eq_some_iff.mp hrest, List.getLast?_append, hlast, Option.some_or]

theorem scopeOf_this (front : List Char) :
    scopeOf (front ++ "$this->".toList) = .instanceMembers := by
  have hsplit : front ++ "$this->".toList = front ++ ['$', 't', 'h', 'i', 's'] ++ ['-', '>'] := by
    rw [List.append_assoc]
    rfl
  have hends : endsWith ['$', 't', 'h', 'i', 's'] (front ++ ['$', 't', 'h', 'i', 's']) = true :=
    endsWith_iff_suffix.mpr (List.suffix_append _ _)
  rw [scopeOf, hsplit, before?_append]
  exact if_pos hends

theorem scopeOf_keyword (hfront : ∀ c ∈ front.getLast?, isIdentifierChar c = false)
    (hkeyword : ∀ c ∈ keyword, isIdentifierChar c = true) (hsigil : sigil = [] ∨ sigil = ['$']) :
    scopeOf (front ++ keyword ++ "::".toList ++ sigil) = scopeOfKeyword keyword := by
  have hcolons : (before? ['$'] (front ++ keyword ++ "::".toList ++ sigil)).getD
      (front ++ keyword ++ "::".toList ++ sigil) = front ++ keyword ++ "::".toList := by
    rcases hsigil with rfl | rfl
    · rw [List.append_nil, before?_eq_none rfl (by simp), Option.getD_none]
    · rw [before?_append, Option.getD_some]
  have harrow : before? ['-', '>'] (front ++ keyword ++ "::".toList ++ sigil) = none := by
    refine before?_eq_none rfl ?_
    rcases hsigil with rfl | rfl <;> simp
  have howner : before? [':', ':'] (front ++ keyword ++ "::".toList) = some (front ++ keyword) :=
    before?_append _ _
  rw [scopeOf, harrow, hcolons, howner]
  exact congrArg (fun cut => scopeOfKeyword cut.2) (cutWord_append hfront hkeyword)

theorem Opens.scopeOf_eq (h : Opens scope head) : scopeOf head = scope := by
  cases h with
  | this front => exact scopeOf_this front
  | own hfront hkeyword hsigil =>
    rcases hkeyword with hkeyword | hkeyword
    · have hletters := isIdentifierChar_of_map_toLower (List.all_eq_true.mp (by decide)) hkeyword
      rw [scopeOf_keyword hfront hletters hsigil, scopeOfKeyword, hkeyword]
      rfl
    · have hletters := isIdentifierChar_of_map_toLower (List.all_eq_true.mp (by decide)) hkeyword
      rw [scopeOf_keyword hfront hletters hsigil, scopeOfKeyword, hkeyword]
      rfl
  | parent hfront hkeyword hsigil =>
    have hletters := isIdentifierChar_of_map_toLower (List.all_eq_true.mp (by decide)) hkeyword
    rw [scopeOf_keyword hfront hletters hsigil, scopeOfKeyword, hkeyword]
    rfl

theorem Opens.getLast? (h : Opens scope head) :
    ∀ c ∈ head.getLast?, isIdentifierChar c = false := by
  intro c hc
  cases h with
  | this front =>
    obtain rfl : '>' = c := by simpa using hc
    decide
  | own _ _ hsigil | parent _ _ hsigil =>
    rcases hsigil with rfl | rfl
    · obtain rfl : ':' = c := by simpa using hc
      decide
    · obtain rfl : '$' = c := by simpa using hc
      decide

theorem contextOf_append (h : Opens scope head) (hword : ∀ c ∈ word, isIdentifierChar c = true) :
    contextOf (head ++ word) = (scope, word) := by
  have hcut := cutWord_append h.getLast? hword
  simp only [contextOf, hcut, h.scopeOf_eq]

end SemanticIndex.Server.Completion
