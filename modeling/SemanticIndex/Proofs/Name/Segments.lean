import SemanticIndex.Name.Context
import SemanticIndex.Proofs.Text.Folding

namespace SemanticIndex

open Text

namespace Fqn

def IsTrimmed (text : String) : Prop :=
  trim text.toList = text.toList

structure IsSegment (name : String) : Prop where
  ne_empty : name ≠ ""
  no_backslash : '\\' ∉ name.toList
  trimmed : IsTrimmed name

instance (text : String) : Decidable (IsTrimmed text) :=
  inferInstanceAs (Decidable (_ = _))

instance (name : String) : Decidable (IsSegment name) :=
  decidable_of_iff (name ≠ "" ∧ '\\' ∉ name.toList ∧ IsTrimmed name)
    ⟨fun h => ⟨h.1, h.2.1, h.2.2⟩, fun h => ⟨h.ne_empty, h.no_backslash, h.trimmed⟩⟩

variable {name first rest : String}

theorem toList_path (first rest : String) :
    (first ++ "\\" ++ rest).toList = first.toList ++ '\\' :: rest.toList := by
  simp [String.toList_append]

theorem IsSegment.toList_ne_nil (h : IsSegment name) : name.toList ≠ [] := by
  intro hnil
  exact h.ne_empty (String.toList_eq_nil_iff.mp hnil)

theorem IsSegment.of_lower_eq {other : String} (h : IsSegment name) (heq : lower other = lower name) :
    IsSegment other := by
  have hl : lowerFrom [] other.toList = lowerFrom [] name.toList := String.ofList_injective heq
  refine ⟨?_, ?_, ?_⟩
  · rintro rfl
    exact h.toList_ne_nil (lowerFrom_eq_nil.mp (hl.symm.trans (lowerFrom_eq_nil.mpr rfl)))
  · rw [← backslash_mem_lowerFrom [], hl, backslash_mem_lowerFrom]
    exact h.no_backslash
  · rw [IsTrimmed, ← trim_lowerFrom [], hl, trim_lowerFrom]
    exact h.trimmed

theorem IsTrimmed.path (hf : IsSegment first) (hr : IsTrimmed rest) :
    IsTrimmed (first ++ "\\" ++ rest) := by
  obtain ⟨hhead, -⟩ := trim_eq_self.mp hf.trimmed
  obtain ⟨-, hlast⟩ := trim_eq_self.mp hr
  rw [IsTrimmed, toList_path, trim_eq_self]
  constructor
  · rwa [List.head?_append_of_ne_nil _ hf.toList_ne_nil]
  · rw [List.getLast?_append_of_ne_nil _ (List.cons_ne_nil _ _)]
    cases hrest : rest.toList with
    | nil => decide
    | cons c cs => rwa [List.getLast?_cons_cons, ← hrest]

theorem IsTrimmed.intercalate {segments : List String} (h : ∀ s ∈ segments, IsSegment s) :
    IsTrimmed ("\\".intercalate segments) := by
  induction segments with
  | nil => decide
  | cons s segments ih =>
    have hs := h s List.mem_cons_self
    have ih := ih fun s hs => h s (List.mem_cons_of_mem _ hs)
    cases segments with
    | nil =>
      rw [String.intercalate_singleton]
      exact hs.trimmed
    | cons next segments =>
      rw [String.intercalate_cons_cons]
      exact .path hs ih

theorem afterNamespaceKeyword?_of_segment (h : '\\' ∉ name.toList) :
    afterNamespaceKeyword? name.toList = none := by
  rw [afterNamespaceKeyword?, if_neg]
  intro heq
  have hmem : '\\' ∈ (name.toList.take 10).map Char.toLower := by
    rw [eq_of_beq heq]
    decide
  exact h (List.mem_of_mem_take (mem_map_toLower_backslash.mp hmem))

theorem afterNamespaceKeyword?_of_path (h : '\\' ∉ first.toList) (hn : lower first ≠ "namespace") :
    afterNamespaceKeyword? (first ++ "\\" ++ rest).toList = none := by
  rw [afterNamespaceKeyword?, if_neg]
  intro heq
  have hmap : (first ++ "\\" ++ rest).toList.map Char.toLower =
      "namespace".toList ++ '\\' :: ((first ++ "\\" ++ rest).toList.drop 10).map Char.toLower := by
    conv_lhs => rw [← List.take_append_drop 10 (first ++ "\\" ++ rest).toList, List.map_append,
      eq_of_beq heq]
    rfl
  have hsplit := congrArg (splitOnce? '\\') hmap
  rw [toList_path, List.map_append, List.map_cons, splitOnce?_append (by decide)] at hsplit
  rw [show Char.toLower '\\' = '\\' by decide,
    splitOnce?_append (fun hm => h (mem_map_toLower_backslash.mp hm))] at hsplit
  simp only [Option.some.injEq, Prod.mk.injEq] at hsplit
  refine hn (String.toList_injective ?_)
  rw [lower, String.toList_ofList]
  exact lowerFrom_eq_of_map_toLower (by decide) hsplit.1

theorem isRelativeScope_path : isRelativeScope (first ++ "\\" ++ rest) = false := by
  have hscope : ∀ word ∈ ["self", "static", "parent"], '\\' ∉ word.toList := by decide
  have hmem : '\\' ∈ (lower (first ++ "\\" ++ rest)).toList := by
    rw [lower, String.toList_ofList, backslash_mem_lowerFrom, toList_path]
    exact List.mem_append_right _ List.mem_cons_self
  rw [isRelativeScope, Bool.eq_false_iff]
  intro hcontains
  exact hscope _ (List.contains_iff_mem.mp hcontains) hmem

end Fqn

namespace NameContext

open Fqn

variable {context : NameContext} {name first rest : String}

theorem resolveClass_of_plain (htrim : IsTrimmed name) (hne : name.toList ≠ [])
    (habsolute : name.toList.head? ≠ some '\\') (hscope : isRelativeScope name = false)
    (hkeyword : afterNamespaceKeyword? name.toList = none) :
    context.resolveClass name = some (context.importedClass name.toList) := by
  have hempty : name.toList.isEmpty = false := List.isEmpty_eq_false_iff.mpr hne
  unfold resolveClass
  rw [htrim]
  simp only [hempty, String.ofList_toList, hscope, Bool.or_false, Bool.false_eq_true, if_false,
    hkeyword]
  split
  · next heq =>
    rw [heq] at habsolute
    exact absurd rfl habsolute
  · rfl

theorem resolveClass_of_segment (h : IsSegment name)
    (hscope : lower name ∉ ["self", "static", "parent"]) :
    context.resolveClass name =
      some ((context.classes.lookup (lower name)).getD (context.qualify name)) := by
  have habsolute : name.toList.head? ≠ some '\\' := fun hm =>
    h.no_backslash (List.mem_of_head? hm)
  have hscope : isRelativeScope name = false := by
    rw [isRelativeScope, Bool.eq_false_iff]
    exact fun hc => hscope (List.contains_iff_mem.mp hc)
  rw [resolveClass_of_plain h.trimmed h.toList_ne_nil habsolute hscope
    (afterNamespaceKeyword?_of_segment h.no_backslash)]
  unfold importedClass
  rw [splitOnce?_eq_none h.no_backslash]
  simp only [String.ofList_toList]
  cases context.classes.lookup (lower name) <;> rfl

theorem resolveClass_of_path (h : IsSegment first) (hkeyword : lower first ≠ "namespace")
    (htrim : IsTrimmed (first ++ "\\" ++ rest)) :
    context.resolveClass (first ++ "\\" ++ rest) =
      some (((context.classes.lookup (lower first)).map (· ++ "\\" ++ rest)).getD
        (context.qualify (first ++ "\\" ++ rest))) := by
  have hne : (first ++ "\\" ++ rest).toList ≠ [] := by
    rw [toList_path]
    exact List.append_ne_nil_of_right_ne_nil _ (List.cons_ne_nil _ _)
  have habsolute : (first ++ "\\" ++ rest).toList.head? ≠ some '\\' := by
    rw [toList_path, List.head?_append_of_ne_nil _ h.toList_ne_nil]
    exact fun hm => h.no_backslash (List.mem_of_head? hm)
  rw [resolveClass_of_plain htrim hne habsolute isRelativeScope_path
    (afterNamespaceKeyword?_of_path h.no_backslash hkeyword)]
  unfold importedClass
  rw [String.ofList_toList, toList_path, splitOnce?_append h.no_backslash]
  simp only [String.ofList_toList]
  cases context.classes.lookup (lower first) <;> rfl

theorem resolvePlain_of_segment (h : IsSegment name) {imports : List (String × String)}
    {fold : String → String} {target : String} (hl : imports.lookup (fold name) = some target) :
    context.resolvePlain name imports fold = [target] := by
  have hempty : name.toList.isEmpty = false := List.isEmpty_eq_false_iff.mpr h.toList_ne_nil
  have hcontains : name.toList.contains '\\' = false :=
    Bool.eq_false_iff.mpr fun hc => h.no_backslash (List.contains_iff_mem.mp hc)
  unfold resolvePlain
  rw [h.trimmed]
  simp only [hempty, Bool.false_eq_true, if_false, hcontains, String.ofList_toList, hl,
    afterNamespaceKeyword?_of_segment h.no_backslash]
  split
  · next heq => exact absurd (heq ▸ List.mem_cons_self) h.no_backslash
  · rfl

end NameContext

end SemanticIndex
