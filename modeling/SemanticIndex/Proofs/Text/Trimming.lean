import Mathlib.Data.List.DropRight
import SemanticIndex.Proofs.Text.Occurrence

namespace SemanticIndex.Text

section Core

variable {α : Type} {p : α → Bool} {xs core tail : List α}

structure IsCore (p : α → Bool) (xs core : List α) : Prop where
  split : ∃ front back, xs = front ++ core ++ back ∧ (∀ a ∈ front, p a = true) ∧
    ∀ a ∈ back, p a = true
  first : ∀ a ∈ core.head?, p a = false
  last : ∀ a ∈ core.getLast?, p a = false

theorem dropWhile_of_head? (h : ∀ a ∈ xs.head?, p a = false) : xs.dropWhile p = xs := by
  refine List.dropWhile_eq_self_iff.mpr fun hpos => ?_
  rw [h _ (List.head?_eq_getElem? ▸ List.getElem?_eq_getElem hpos)]
  exact Bool.false_ne_true

theorem rdropWhile_of_getLast? (h : ∀ a ∈ xs.getLast?, p a = false) : xs.rdropWhile p = xs := by
  refine List.rdropWhile_eq_self_iff.mpr fun hne => ?_
  rw [h _ (List.getLast?_eq_some_getLast hne)]
  exact Bool.false_ne_true

theorem IsCore.eq (h : IsCore p xs core) : core = (xs.dropWhile p).rdropWhile p := by
  obtain ⟨⟨front, back, rfl, hfront, hback⟩, hfirst, hlast⟩ := h
  rw [List.append_assoc, List.dropWhile_append_of_pos hfront]
  cases core with
  | nil => rw [List.nil_append, List.dropWhile_eq_nil_iff.mpr hback, List.rdropWhile_nil]
  | cons a core =>
    rw [dropWhile_of_head? (by simpa using hfirst), List.rdropWhile, List.reverse_append,
      List.dropWhile_append_of_pos (by simpa using hback)]
    exact (rdropWhile_of_getLast? hlast).symm

theorem isCore_self (p : α → Bool) (xs : List α) : IsCore p xs ((xs.dropWhile p).rdropWhile p) where
  split := by
    refine ⟨xs.takeWhile p, (xs.dropWhile p).rtakeWhile p, ?_, fun a => List.mem_takeWhile_imp,
      fun a => List.mem_rtakeWhile_imp⟩
    rw [List.append_assoc, List.rdropWhile_append_rtakeWhile, List.takeWhile_append_dropWhile]
  first := by
    intro a ha
    obtain ⟨rest, hrest⟩ := List.rdropWhile_prefix (p := p) (xs.dropWhile p)
    have hhead : (xs.dropWhile p).head? = some a := by
      rw [← hrest, List.head?_append, Option.mem_def.mp ha, Option.some_or]
    simpa [hhead] using List.head?_dropWhile_not p xs
  last := by
    intro a ha
    obtain ⟨hne, rfl⟩ := List.mem_getLast?_eq_getLast ha
    simpa using List.rdropWhile_last_not p _ hne

theorem isCore_iff : IsCore p xs core ↔ core = (xs.dropWhile p).rdropWhile p := by
  constructor
  · exact IsCore.eq
  · rintro rfl
    exact isCore_self p xs

theorem isCore_append (htail : ∀ a ∈ tail, p a = true) :
    IsCore p (xs ++ tail) core ↔ IsCore p xs core := by
  rw [isCore_iff, isCore_iff]
  obtain ⟨⟨front, back, hsplit, hfront, hback⟩, hfirst, hlast⟩ := isCore_self p xs
  have hcore : IsCore p (xs ++ tail) ((xs.dropWhile p).rdropWhile p) := by
    refine ⟨⟨front, back ++ tail, ?_, hfront, ?_⟩, hfirst, hlast⟩
    · conv_lhs => rw [hsplit]
      simp only [List.append_assoc]
    · exact List.forall_mem_append.mpr ⟨hback, htail⟩
  rw [hcore.eq]

end Core

theorem isCore_blank_iff {line text : List Char} : IsCore isBlank line text ↔ text = trim line :=
  isCore_iff

section Repeated

variable {phrase cs : List Char}

theorem dropRepeated_of_not_prefix (h : ¬phrase <+: cs) : dropRepeated phrase cs = cs := by
  have hafter : after? phrase cs = none := by
    rw [← Option.not_isSome_iff_eq_none]
    exact h ∘ startsWith_iff_prefix.mp
  rw [dropRepeated]
  split
  · rfl
  · next rest hrest => rw [hafter] at hrest; cases hrest

theorem dropRepeated_append (hne : phrase ≠ []) (cs : List Char) :
    dropRepeated phrase (phrase ++ cs) = dropRepeated phrase cs := by
  have hafter : after? phrase (phrase ++ cs) = some cs := after?_eq_some_iff.mpr rfl
  rw [dropRepeated]
  split
  · next hnone => rw [hafter] at hnone; cases hnone
  · next rest hrest =>
    rw [hafter] at hrest
    cases hrest
    rw [dif_neg hne]

theorem dropRepeated_singleton (d : Char) (cs : List Char) :
    dropRepeated [d] cs = cs.dropWhile (· == d) := by
  induction cs with
  | nil => exact dropRepeated_of_not_prefix (by simp)
  | cons c cs ih =>
    by_cases hc : c = d
    · subst hc
      rw [List.dropWhile_cons_of_pos (by simp), ← ih]
      exact dropRepeated_append (List.cons_ne_nil c []) cs
    · rw [List.dropWhile_cons_of_neg (by simpa using hc)]
      refine dropRepeated_of_not_prefix fun hprefix => hc ?_
      exact (List.cons_prefix_cons.mp hprefix).1.symm

theorem dropRepeatedEnd_of_not_suffix (h : ¬phrase <:+ cs) : dropRepeatedEnd phrase cs = cs := by
  rw [dropRepeatedEnd, dropRepeated_of_not_prefix (by rwa [List.reverse_prefix]),
    List.reverse_reverse]

theorem dropRepeatedEnd_append (hne : phrase ≠ []) (cs : List Char) :
    dropRepeatedEnd phrase (cs ++ phrase) = dropRepeatedEnd phrase cs := by
  rw [dropRepeatedEnd, List.reverse_append, dropRepeated_append (by simpa using hne),
    dropRepeatedEnd]

end Repeated

theorem exists_map_lines {β : Type} (f : List Char → List β)
    (hreturn : ∀ line, f (dropReturn line) = f line) (hnil : f [] = []) (cs : List Char) :
    ∃ tail, (cs.splitOn '\n').map f = (lines cs).map f ++ tail ∧ ∀ line ∈ tail, line = [] := by
  rw [← splitOn_eq, lines]
  induction splitOn '\n' cs with
  | nil => exact ⟨[], rfl, by simp⟩
  | cons line rest ih =>
    cases rest with
    | nil =>
      cases line with
      | nil => exact ⟨[[]], by simp [linesOf, hnil], by simp⟩
      | cons c line => exact ⟨[], by simp [linesOf], by simp⟩
    | cons next rest =>
      obtain ⟨tail, htail, hempty⟩ := ih
      refine ⟨tail, ?_, hempty⟩
      rw [linesOf, List.map_cons, htail, List.map_cons, hreturn, List.cons_append]
      exact List.cons_ne_nil next rest

end SemanticIndex.Text
