import SemanticIndex.Proofs.Index.Consistency
import SemanticIndex.Proofs.Index.FileList
import Mathlib.Data.List.Sort

namespace SemanticIndex
open Std

section Increasing

variable {α κ : Type} [LE κ] [LT κ] [IsLinearOrder κ] [LawfulOrderLT κ]

def Increasing (key : α → κ) (xs : List α) : Prop := xs.Pairwise fun a b => key a < key b

theorem eq_of_increasing (key : α → κ) {xs ys : List α} (hx : Increasing key xs)
    (hy : Increasing key ys) (hm : ∀ a, a ∈ xs ↔ a ∈ ys) : xs = ys := by
  have hirrefl : Std.Irrefl fun a b : α => key a < key b := ⟨fun a => Std.lt_irrefl⟩
  have hanti : Std.Antisymm fun a b : α => key a < key b :=
    ⟨fun a b hab hba => absurd (Std.lt_trans hab hba) Std.lt_irrefl⟩
  exact List.Pairwise.eq_of_mem_iff hx hy hm

theorem increasing_mergeSort [DecidableLE κ] (key : α → κ) {xs : List α}
    (h : xs.Pairwise fun a b => key a ≠ key b) :
    Increasing key (xs.mergeSort fun a b => key a ≤ key b) := by
  have hle : (xs.mergeSort fun a b => key a ≤ key b).Pairwise fun a b => key a ≤ key b := by
    refine List.Pairwise.imp (fun hab => of_decide_eq_true hab) (List.pairwise_mergeSort ?_ ?_ xs)
    · intro a b c hab hbc
      simp only [decide_eq_true_eq] at hab hbc ⊢
      exact Std.le_trans hab hbc
    · intro a b
      simp only [Bool.or_eq_true, decide_eq_true_eq]
      exact Std.le_total
  have hne : (xs.mergeSort fun a b => key a ≤ key b).Pairwise fun a b => key a ≠ key b :=
    (List.mergeSort_perm xs _).symm.pairwise h fun hab => Ne.symm hab
  exact (hle.and hne).imp fun hab => Std.lt_of_le_of_ne hab.1 hab.2

end Increasing

namespace IndexState

def ordered (s : IndexState) : List Slot :=
  s.stored.mergeSort fun a b => a.sequence ≤ b.sequence

theorem files_eq_map_ordered (s : IndexState) : s.files = s.ordered.map Slot.file := rfl

variable {s : IndexState}

namespace Consistent

theorem mem_stored (h : Consistent s) {slot : Slot} :
    slot ∈ s.stored ↔ s.slots[slot.file.uri]? = some slot := by
  simp only [stored, List.mem_map, Prod.exists, exists_eq_right,
    ExtTreeMap.mem_toList_iff_getElem?_eq_some]
  constructor
  · rintro ⟨uri, hs⟩
    rwa [h.keyed hs]
  · exact fun hs => ⟨_, hs⟩

theorem mem_ordered (h : Consistent s) {slot : Slot} :
    slot ∈ s.ordered ↔ s.slots[slot.file.uri]? = some slot := by
  rw [ordered, List.mem_mergeSort, h.mem_stored]

theorem pairwise_sequence_ne (h : Consistent s) :
    s.stored.Pairwise fun a b => a.sequence ≠ b.sequence := by
  rw [stored, List.pairwise_map]
  refine ExtTreeMap.distinct_keys_toList.imp_of_mem ?_
  rintro ⟨u, a⟩ ⟨v, b⟩ ha hb hne hab
  rw [ExtTreeMap.mem_toList_iff_getElem?_eq_some] at ha hb
  exact hne (LawfulEqCmp.compare_eq_iff_eq.mpr (h.sequence_inj ha hb hab))

theorem increasing_ordered (h : Consistent s) : Increasing Slot.sequence s.ordered :=
  increasing_mergeSort Slot.sequence h.pairwise_sequence_ne

theorem ordered_eq (h : Consistent s) {slots : List Slot} (hp : Increasing Slot.sequence slots)
    (hm : ∀ slot, slot ∈ slots ↔ s.slots[slot.file.uri]? = some slot) : s.ordered = slots :=
  eq_of_increasing Slot.sequence h.increasing_ordered hp fun slot => by rw [h.mem_ordered, hm]

theorem mem_files (h : Consistent s) {f : File} : f ∈ s.files ↔ s.file? f.uri = some f := by
  rw [files_eq_map_ordered, List.mem_map, file?_eq_some_iff]
  constructor
  · rintro ⟨slot, hs, rfl⟩
    exact ⟨slot.sequence, h.mem_ordered.mp hs⟩
  · rintro ⟨n, hs⟩
    exact ⟨⟨n, f⟩, h.mem_ordered.mpr hs, rfl⟩

theorem uris_nodup (h : Consistent s) : (s.files.map File.uri).Nodup := by
  rw [files_eq_map_ordered, List.map_map, List.Nodup, List.pairwise_map]
  refine List.Pairwise.imp_of_mem ?_ h.increasing_ordered
  intro a b ha hb hlt he
  have hs := h.mem_ordered.mp ha
  rw [show a.file.uri = b.file.uri from he, h.mem_ordered.mp hb, Option.some.injEq] at hs
  subst hs
  exact Nat.lt_irrefl _ hlt

theorem file?_eq (h : Consistent s) (uri : String) :
    s.file? uri = s.files.find? (·.uri == uri) := by
  cases hf : s.files.find? (·.uri == uri) with
  | some f =>
    have hu : f.uri = uri := by simpa using List.find?_some hf
    rw [← hu]
    exact h.mem_files.mp (List.mem_of_find?_eq_some hf)
  | none =>
    cases hs : s.file? uri with
    | none => rfl
    | some f =>
      have hu := h.uri_of_file? hs
      have hm : f ∈ s.files := h.mem_files.mpr (hu ▸ hs)
      exact absurd hu (by simpa using List.find?_eq_none.mp hf f hm)

theorem any_uri_eq (h : Consistent s) (uri : String) :
    s.files.any (·.uri == uri) = (s.file? uri).isSome := by
  rw [h.file?_eq, Bool.eq_iff_iff, List.find?_isSome, List.any_eq_true]

theorem ordered_replace_stored (h : Consistent s) {f : File} {old : Slot}
    (hs : s.slots[f.uri]? = some old) :
    (s.replace f).ordered =
      s.ordered.map fun a => if a.file.uri == f.uri then ⟨a.sequence, f⟩ else a := by
  apply (h.replace f).ordered_eq
  · rw [Increasing, List.pairwise_map]
    refine List.Pairwise.imp (fun hab => ?_) h.increasing_ordered
    split <;> split <;> exact hab
  · intro slot
    have hq : s.sequenceFor f.uri = old.sequence := by simp [sequenceFor, hs]
    rw [slots_replace, hq, List.mem_map]
    constructor
    · rintro ⟨a, ha, rfl⟩
      have ha := h.mem_ordered.mp ha
      by_cases he : a.file.uri = f.uri
      · rw [he, hs, Option.some.injEq] at ha
        simp [he, ha]
      · simp [he, Ne.symm he, ha]
    · split
      · next he =>
        intro heq
        cases heq
        exact ⟨old, h.mem_ordered.mpr (h.keyed hs ▸ hs), by simp [h.keyed hs]⟩
      · next he =>
        intro heq
        exact ⟨slot, h.mem_ordered.mpr heq, by simp [Ne.symm he]⟩

theorem ordered_replace_new (h : Consistent s) {f : File} (hs : s.slots[f.uri]? = none) :
    (s.replace f).ordered = s.ordered ++ [⟨s.nextSequence, f⟩] := by
  apply (h.replace f).ordered_eq
  · rw [Increasing, List.pairwise_append]
    refine ⟨h.increasing_ordered, List.pairwise_singleton _ _, ?_⟩
    intro a ha b hb
    rw [List.mem_singleton.mp hb]
    exact h.sequence_lt (h.mem_ordered.mp ha)
  · intro slot
    have hq : s.sequenceFor f.uri = s.nextSequence := by simp [sequenceFor, hs]
    rw [slots_replace, hq, List.mem_append, List.mem_singleton, h.mem_ordered]
    constructor
    · rintro (ha | rfl)
      · have hne : f.uri ≠ slot.file.uri := by
          intro he
          rw [← he, hs] at ha
          cases ha
        simp [hne, ha]
      · simp
    · split
      · intro heq
        cases heq
        exact .inr rfl
      · exact .inl

theorem files_replace (h : Consistent s) (f : File) :
    (s.replace f).files = FileList.put s.files f := by
  unfold FileList.put
  rw [h.any_uri_eq, files_eq_map_ordered, files_eq_map_ordered]
  cases hs : s.slots[f.uri]? with
  | some old =>
    rw [h.ordered_replace_stored hs]
    have hc : (s.file? f.uri).isSome = true := by simp [file?, hs]
    rw [if_pos hc, List.map_map, List.map_map]
    refine List.map_congr_left fun a _ => ?_
    simp only [Function.comp]
    split <;> rfl
  | none =>
    rw [h.ordered_replace_new hs]
    have hc : ¬(s.file? f.uri).isSome = true := by simp [file?, hs]
    rw [if_neg hc, List.map_append]
    rfl

theorem files_remove (h : Consistent s) (uri : String) :
    (s.remove uri).files = FileList.erase s.files uri := by
  have ho : (s.remove uri).ordered = s.ordered.filter fun a => a.file.uri != uri := by
    apply (h.remove uri).ordered_eq
    · exact List.Pairwise.filter _ h.increasing_ordered
    · intro slot
      rw [List.mem_filter, h.mem_ordered, slots_remove]
      by_cases he : uri = slot.file.uri
      · simp [← he]
      · simp [he, Ne.symm he]
  rw [files_eq_map_ordered, files_eq_map_ordered, ho, FileList.erase, List.filter_map]
  rfl

end Consistent

end IndexState
end SemanticIndex
