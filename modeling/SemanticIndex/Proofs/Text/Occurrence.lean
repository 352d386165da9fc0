import Mathlib.Data.List.Infix
import SemanticIndex.Text.Search

namespace SemanticIndex.Text

variable {head tail phrase cs : List Char}

theorem startsWith_iff_prefix : startsWith head cs = true ↔ head <+: cs := by
  simp only [startsWith, Option.isSome_iff_exists, after?_eq_some_iff, eq_comm (a := cs)]
  rfl

theorem endsWith_iff_suffix : endsWith tail cs = true ↔ tail <:+ cs := by
  simp only [endsWith, Option.isSome_iff_exists, before?_eq_some_iff, eq_comm (a := cs)]
  rfl

theorem contains_iff_infix : contains phrase cs = true ↔ phrase <:+: cs := by
  induction cs with
  | nil => cases phrase <;> simp [contains, find?]
  | cons c cs ih =>
    rw [List.infix_cons_iff, ← startsWith_iff_prefix, ← ih, contains, find?]
    cases startsWith phrase (c :: cs) <;> simp [contains]

theorem splitOn_eq (d : Char) (cs : List Char) : splitOn d cs = cs.splitOn d := by
  induction cs with
  | nil => rfl
  | cons c cs ih =>
    rw [List.splitOn_cons_eq_if_modifyHead, ← ih, splitOn]
    by_cases hc : c = d
    · simp [hc]
    · rw [if_neg hc, if_neg (by simpa using hc)]
      cases hs : splitOn d cs with
      | nil => exact absurd hs (splitOn_ne_nil d cs)
      | cons piece rest => rfl

end SemanticIndex.Text
