import SemanticIndex.Files.Path
import SemanticIndex.Proofs.Text.Occurrence

namespace SemanticIndex.Path

open Text

def IsName (name : String) : Prop := name ≠ "" ∧ name ≠ "." ∧ '/' ∉ name.toList

instance (name : String) : Decidable (IsName name) :=
  inferInstanceAs (Decidable (_ ∧ _ ∧ _))

variable {parts : List String} {pieces : List (List Char)}

theorem isIdle_eq_false {name : String} (h : IsName name) : isIdle name.toList = false := by
  obtain ⟨hempty, hdot, -⟩ := h
  have hdot' : name.toList ≠ ['.'] := fun hn => hdot (String.ext hn)
  simpa [isIdle, hdot'] using hempty

theorem toList_relativeText (parts : List String) :
    (relativeText parts).toList = List.intercalate ['/'] (parts.map String.toList) :=
  String.toList_intercalate

theorem splitOn_relativeText (hne : parts ≠ []) (hparts : ∀ name ∈ parts, IsName name) :
    splitOn '/' (relativeText parts).toList = parts.map String.toList := by
  rw [splitOn_eq, toList_relativeText, List.splitOn_intercalate]
  · simpa using fun name hm => (hparts name hm).2.2
  · simpa using hne

theorem isAbsolute_iff {path : String} :
    isAbsolute path = true ↔ ∃ rest, path.toList = '/' :: rest := by
  rw [isAbsolute, startsWith_iff_prefix]
  simp only [List.IsPrefix, List.singleton_append, eq_comm]

theorem isAbsolute_relativeText (hparts : ∀ name ∈ parts, IsName name) :
    isAbsolute (relativeText parts) = false := by
  rw [← Bool.not_eq_true, isAbsolute_iff]
  rintro ⟨rest, h⟩
  cases parts with
  | nil => simp [relativeText] at h
  | cons name parts =>
    have hsplit := splitOn_relativeText (List.cons_ne_nil _ _) hparts
    rw [h, splitOn, if_pos rfl, List.map_cons, List.cons_eq_cons] at hsplit
    exact (hparts name List.mem_cons_self).1 (String.toList_eq_nil_iff.mp hsplit.1.symm)

theorem afterRoot?_filter (pieces more : List (List Char)) :
    afterRoot? (pieces.filter fun piece => !isIdle piece) (pieces ++ more) = afterRoot? [] more := by
  induction pieces with
  | nil => rfl
  | cons piece pieces ih =>
    cases h : isIdle piece with
    | true => simp [afterRoot?, h, ih]
    | false => simp [afterRoot?, h, ih]

theorem afterRoot?_nil (h : ∀ piece ∈ pieces, isIdle piece = false) :
    afterRoot? [] pieces = some pieces := by
  cases pieces with
  | nil => rfl
  | cons piece pieces => simp [afterRoot?, h]

theorem dropIdleEnd_eq (h : ∀ piece ∈ pieces, isIdle piece = false) :
    dropIdleEnd pieces = pieces := by
  have hrev : ∀ piece ∈ pieces.reverse, isIdle piece = false :=
    fun piece hm => h piece (List.mem_reverse.mp hm)
  have hkept : pieces.reverse.dropWhile isIdle = pieces.reverse := by
    cases hp : pieces.reverse with
    | nil => rfl
    | cons piece rest => exact List.dropWhile_cons_of_neg (by simp [hrev piece (by simp [hp])])
  rw [dropIdleEnd, hkept, List.reverse_reverse]

theorem join_relativeText (hparts : ∀ name ∈ parts, IsName name) (root : String) :
    join root (relativeText parts) =
      if root = "" then relativeText parts
      else if endsInSlash root then root ++ relativeText parts
      else root ++ "/" ++ relativeText parts := by
  simp [join, isAbsolute_relativeText hparts]

theorem splitOn_join (hne : parts ≠ []) (hparts : ∀ name ∈ parts, IsName name) (root : String) :
    ∃ lead, literal root = lead.filter (fun piece => !isIdle piece) ∧
      splitOn '/' (join root (relativeText parts)).toList = lead ++ parts.map String.toList := by
  have hsplit := splitOn_relativeText hne hparts
  rw [splitOn_eq] at hsplit
  rw [join_relativeText hparts, literal, splitOn_eq, splitOn_eq]
  split
  · next hroot =>
    subst hroot
    exact ⟨[], rfl, hsplit⟩
  · split
    · next hslash =>
      obtain ⟨base, hbase⟩ := endsWith_iff_suffix.mp hslash
      refine ⟨base.splitOn '/', ?_, ?_⟩
      · rw [← hbase, List.splitOn_append_cons_self, List.filter_append]
        simp [isIdle]
      · rw [String.toList_append, ← hbase, List.append_assoc, List.singleton_append,
          List.splitOn_append_cons_self, hsplit]
    · refine ⟨root.toList.splitOn '/', rfl, ?_⟩
      have hslash : "/".toList = ['/'] := rfl
      rw [String.toList_append, String.toList_append, hslash, List.append_assoc,
        List.singleton_append, List.splitOn_append_cons_self, hsplit]

theorem isAbsolute_append {path : String} (h : path ≠ "") (rest : String) :
    isAbsolute (path ++ rest) = isAbsolute path := by
  rw [Bool.eq_iff_iff, isAbsolute_iff, isAbsolute_iff, String.toList_append]
  cases hp : path.toList with
  | nil => exact absurd (String.toList_eq_nil_iff.mp hp) h
  | cons c cs => simp

theorem isAbsolute_join (hparts : ∀ name ∈ parts, IsName name) (root : String) :
    isAbsolute (join root (relativeText parts)) = isAbsolute root := by
  rw [join_relativeText hparts]
  split
  · next hroot =>
    rw [isAbsolute_relativeText hparts, hroot]
    rfl
  · next hroot =>
    split
    · exact isAbsolute_append hroot _
    · rw [String.append_assoc]
      exact isAbsolute_append hroot _

theorem relativeTo_join (hne : parts ≠ []) (hparts : ∀ name ∈ parts, IsName name) (root : String) :
    relativeTo root (join root (relativeText parts)) = relativeText parts := by
  obtain ⟨lead, hlead, hsplit⟩ := splitOn_join hne hparts root
  have hidle : ∀ piece ∈ parts.map String.toList, isIdle piece = false := by
    simpa using fun name hm => isIdle_eq_false (hparts name hm)
  rw [relativeTo, hlead, hsplit, afterRoot?_filter, afterRoot?_nil hidle]
  simp only [isAbsolute_join hparts, dropIdleEnd_eq hidle, beq_self_eq_true, if_true,
    ← toList_relativeText, String.ofList_toList]

end SemanticIndex.Path
