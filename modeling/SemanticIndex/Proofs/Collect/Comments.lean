import Mathlib.Data.List.Forall2
import SemanticIndex.Collect.Documentation
import SemanticIndex.Proofs.Text.Trimming

namespace SemanticIndex.Collect

open Text

variable {comment inside line content : List Char}

structure IsDocComment (comment : List Char) : Prop where
  opened : "/**".toList <+: comment
  closed : "*/".toList <:+ comment
  once : ∀ front rest, comment = front ++ "*/".toList ++ rest → rest = []

def interior (comment : List Char) : List Char := (comment.take (comment.length - 2)).drop 3

inductive Says (line : List Char) : (content : List Char) → Prop where
  | plain {content : List Char} (hcore : IsCore isBlank line content)
      (hstar : content.head? ≠ some '*') : Says line content
  | starred {content : List Char} (hcore : IsCore isBlank line ('*' :: content))
      (hspace : content.head? ≠ some ' ') : Says line content
  | spaced {content : List Char} (hcore : IsCore isBlank line ('*' :: ' ' :: content)) :
      Says line content

def Cleans (inside text : List Char) : Prop :=
  ∃ said kept, List.Forall₂ Says (inside.splitOn '\n') said ∧ IsCore List.isEmpty said kept ∧
    text = List.intercalate ['\n'] kept

theorem isDocComment_iff : IsDocComment comment ↔ "/**".toList <+: comment ∧
    "*/".toList <:+ comment ∧ ¬"*/".toList <:+: comment.dropLast := by
  constructor
  · rintro ⟨hopened, hclosed, honce⟩
    refine ⟨hopened, hclosed, ?_⟩
    rintro ⟨front, rest, hsplit⟩
    have hne : comment ≠ [] := hopened.ne_nil (by decide)
    have hrest := honce front (rest ++ [comment.getLast hne]) (by
      rw [← List.append_assoc, hsplit, List.dropLast_append_getLast])
    exact List.append_ne_nil_of_right_ne_nil _ (by simp) hrest
  · rintro ⟨hopened, hclosed, honce⟩
    refine ⟨hopened, hclosed, fun front rest hsplit => ?_⟩
    by_contra hrest
    refine honce ⟨front, rest.dropLast, ?_⟩
    rw [hsplit, List.dropLast_append_of_ne_nil hrest]

instance (comment : List Char) : Decidable (IsDocComment comment) :=
  decidable_of_iff _ isDocComment_iff.symm

namespace IsDocComment

theorem eq_or_exists (h : IsDocComment comment) : comment = "/**/".toList ∨
    ∃ inside, comment = "/**".toList ++ inside ++ "*/".toList := by
  obtain ⟨rest, rfl⟩ := h.opened
  match rest with
  | [] => exact absurd h.closed (by decide)
  | [c] =>
    obtain ⟨front, hfront⟩ := h.closed
    have hlast := congrArg List.getLast? hfront
    obtain rfl : '/' = c := by simpa using hlast
    exact .inl rfl
  | c :: d :: rest =>
    have hsuffix : "*/".toList <:+ c :: d :: rest :=
      List.suffix_of_suffix_length_le h.closed (List.suffix_append _ _) (by simp)
    obtain ⟨inside, hinside⟩ := hsuffix
    exact .inr ⟨inside, by rw [List.append_assoc, hinside]⟩

theorem interior_eq (inside : List Char) :
    interior ("/**".toList ++ inside ++ "*/".toList) = inside := by
  simp [interior]

theorem body_eq (h : IsDocComment ("/**".toList ++ inside ++ "*/".toList)) :
    dropRepeatedEnd "*/".toList
      (dropRepeated "/**".toList ("/**".toList ++ inside ++ "*/".toList)) = inside := by
  have hopen : ¬"/**".toList <+: inside ++ "*/".toList := by
    rintro ⟨rest, hrest⟩
    have := h.once "/*".toList ("**".toList ++ rest) (by
      rw [List.append_assoc, ← hrest]
      rfl)
    simp at this
  have hclose : ¬"*/".toList <:+ inside := by
    rintro ⟨front, rfl⟩
    have := h.once ("/**".toList ++ front) "*/".toList (by simp only [List.append_assoc])
    exact absurd this (by decide)
  rw [List.append_assoc, dropRepeated_append (by decide), dropRepeated_of_not_prefix hopen,
    dropRepeatedEnd_append (by decide), dropRepeatedEnd_of_not_suffix hclose]

end IsDocComment

theorem after?_singleton_eq_none {c : Char} {text : List Char} (h : text.head? ≠ some c) :
    after? [c] text = none := by
  cases text with
  | nil => rfl
  | cons d text => exact if_neg fun hcd => h (by rw [hcd, List.head?_cons])

theorem trimEnd_of_core (front : List Char) (h : IsCore isBlank line (front ++ content)) :
    trimEnd content = content := by
  refine rdropWhile_of_getLast? fun c hc => h.last c ?_
  rw [List.getLast?_append, Option.mem_def.mp hc, Option.some_or]
  rfl

theorem Says.eq (h : Says line content) : content = dropMargin line := by
  cases h with
  | plain hcore hstar =>
    have hblank : content.head? ≠ some ' ' := fun hc => absurd (hcore.first ' ' hc) (by decide)
    rw [dropMargin, ← isCore_blank_iff.mp hcore, after?_singleton_eq_none hstar, Option.getD_none,
      after?_singleton_eq_none hblank, Option.getD_none, trimEnd_of_core [] hcore]
  | starred hcore hspace =>
    have hafter : after? ['*'] ('*' :: content) = some content := after?_eq_some_iff.mpr rfl
    rw [dropMargin, ← isCore_blank_iff.mp hcore, hafter, Option.getD_some,
      after?_singleton_eq_none hspace, Option.getD_none, trimEnd_of_core ['*'] hcore]
  | spaced hcore =>
    have hstar : after? ['*'] ('*' :: ' ' :: content) = some (' ' :: content) :=
      after?_eq_some_iff.mpr rfl
    have hspace : after? [' '] (' ' :: content) = some content := after?_eq_some_iff.mpr rfl
    rw [dropMargin, ← isCore_blank_iff.mp hcore, hstar, Option.getD_some, hspace, Option.getD_some,
      trimEnd_of_core ['*', ' '] hcore]

theorem exists_says (line : List Char) : ∃ content, Says line content := by
  have hcore : IsCore isBlank line (trim line) := isCore_blank_iff.mpr rfl
  by_cases hstar : (trim line).head? = some '*'
  · obtain ⟨text, htext⟩ := List.head?_eq_some_iff.mp hstar
    rw [htext] at hcore
    by_cases hspace : text.head? = some ' '
    · obtain ⟨content, rfl⟩ := List.head?_eq_some_iff.mp hspace
      exact ⟨content, .spaced hcore⟩
    · exact ⟨text, .starred hcore hspace⟩
  · exact ⟨trim line, .plain hcore hstar⟩

theorem says_iff : Says line content ↔ content = dropMargin line := by
  constructor
  · exact Says.eq
  · rintro rfl
    obtain ⟨content, h⟩ := exists_says line
    rwa [← h.eq]

theorem forall₂_says_iff {lines said : List (List Char)} :
    List.Forall₂ Says lines said ↔ said = lines.map dropMargin := by
  have hline : Says = fun line content => dropMargin line = content :=
    funext₂ fun line content => propext (says_iff.trans eq_comm)
  rw [hline, ← List.forall₂_map_left_iff (R := fun x y => x = y), List.forall₂_eq_eq_eq, eq_comm]

theorem dropMargin_dropReturn (line : List Char) :
    dropMargin (dropReturn line) = dropMargin line := by
  have htrim : trim (dropReturn line) = trim line := by
    rw [dropReturn]
    cases hline : before? ['\r'] line with
    | none => rfl
    | some front =>
      rw [before?_eq_some_iff.mp hline, Option.getD_some, ← isCore_blank_iff,
        isCore_append (List.forall_mem_singleton.mpr (by decide))]
      exact isCore_blank_iff.mpr rfl
  rw [dropMargin, dropMargin, htrim]

theorem cleans_iff {text : List Char} : Cleans inside text ↔
    text = List.intercalate ['\n'] (dropEmptyEnds ((lines inside).map dropMargin)) := by
  obtain ⟨tail, hlines, htail⟩ :=
    exists_map_lines dropMargin dropMargin_dropReturn (by decide) inside
  have hkept (kept : List (List Char)) :
      IsCore List.isEmpty ((inside.splitOn '\n').map dropMargin) kept ↔
        kept = dropEmptyEnds ((lines inside).map dropMargin) := by
    rw [hlines, isCore_append fun line hline => by rw [htail line hline]; rfl]
    exact isCore_iff
  constructor
  · rintro ⟨said, kept, hsaid, hcore, rfl⟩
    rw [forall₂_says_iff.mp hsaid, hkept] at hcore
    rw [hcore]
  · rintro rfl
    exact ⟨_, _, forall₂_says_iff.mpr rfl, (hkept _).mpr rfl, rfl⟩

theorem cleans_cleanComment (h : IsDocComment comment) :
    Cleans (interior comment) (cleanComment comment) ↔ comment ≠ "/**/".toList := by
  rw [cleans_iff]
  rcases h.eq_or_exists with rfl | ⟨inside, rfl⟩
  · refine iff_of_false ?_ (by simp)
    decide +kernel
  · rw [IsDocComment.interior_eq, cleanComment, h.body_eq]
    refine iff_of_true rfl fun heq => ?_
    have := congrArg List.length heq
    simp at this

theorem text_from_inside_unless_marks_overlap (comment : List Char) (h : IsDocComment comment) :
    (∃! text, Cleans (interior comment) text) ∧
      (Cleans (interior comment) (cleanComment comment) ↔ comment ≠ "/**/".toList) :=
  ⟨⟨_, cleans_iff.mpr rfl, fun _ => cleans_iff.mp⟩, cleans_cleanComment h⟩

theorem text_from_inside_unless_marks_overlap_starred :
    let comment := "/** first\r\n\t** second *\n *\n *  third\n no star\n *\n **/".toList
    let text := "first\n* second *\n\n third\nno star".toList
    IsDocComment comment ∧ cleanComment comment = text ∧
      ∀ other, Cleans (interior comment) other ↔ other = text := by
  intro comment text
  have h : IsDocComment comment := by decide +kernel
  have htext : cleanComment comment = text := by decide +kernel
  obtain ⟨hunique, hcleans⟩ := text_from_inside_unless_marks_overlap comment h
  have hinside : Cleans (interior comment) text := htext ▸ hcleans.mpr (by decide +kernel)
  refine ⟨h, htext, fun other => ⟨fun hother => hunique.unique hother hinside, ?_⟩⟩
  rintro rfl
  exact hinside

def emptyComment : Tree :=
  .ofNodes "file:///a.php" "<?php\n/**/\nfunction f() {}\n"
    [(.program, none, 0, 27, none), (.other, none, 0, 5, some 0), (.comment, none, 6, 10, some 0),
     (.functionDefinition, none, 11, 26, some 0), (.name, some .name, 20, 21, some 3),
     (.other, some .parameters, 21, 23, some 3), (.compoundStatement, some .body, 24, 26, some 3)]

theorem comment_closed_at_once_gives_slash :
    let comment := "/**/".toList
    IsDocComment comment ∧ interior comment = [] ∧ cleanComment comment = ['/'] ∧
      Cleans (interior comment) [] ∧ ¬Cleans (interior comment) ['/'] ∧
      emptyComment.chars 2 = comment ∧ documentation emptyComment 3 = some "/" := by
  simp only [cleans_iff]
  decide +kernel

end SemanticIndex.Collect
