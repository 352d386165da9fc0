import SemanticIndex.Proofs.Index.Insertion

namespace SemanticIndex
open Std

namespace FileList

theorem declares_iff {fqn : String} {f : File} :
    declares fqn f = true ↔ fqn ∈ IndexState.declaredNames f := by
  simp [declares, IndexState.declaredNames]

theorem byteLe_eq (a b : String) : byteLe a b = decide (a ≤ b) := by
  have hb : (Text.utf8 a ≤ Text.utf8 b) ↔ a ≤ b := by
    rw [← List.not_lt, ← Text.lt_iff_utf8_lt, String.not_lt]
  simp only [byteLe, hb]

theorem bound_mem_names (fs : List File) (r : Reference) : bound fs r ∈ r.names := by
  unfold bound Reference.names
  cases hf : r.fallback with
  | none => simp
  | some fallback => dsimp only; split <;> simp

theorem mem_referredNames_of_refersTo {fs : List File} {fqn : String} {f : File}
    (h : refersTo fs fqn f = true) : fqn ∈ IndexState.referredNames f := by
  obtain ⟨r, hr, hb⟩ := List.any_eq_true.mp h
  exact List.mem_flatMap.mpr ⟨r, hr, beq_iff_eq.mp hb ▸ bound_mem_names fs r⟩

theorem flatMap_filter_of_nil {α β : Type} {p : α → Bool} {g : α → List β} {xs : List α}
    (h : ∀ a ∈ xs, p a = false → g a = []) : (xs.filter p).flatMap g = xs.flatMap g := by
  induction xs with
  | nil => rfl
  | cons a xs ih =>
    have ih := ih fun b hb => h b (List.mem_cons_of_mem a hb)
    cases hp : p a with
    | true => rw [List.filter_cons_of_pos hp, List.flatMap_cons, List.flatMap_cons, ih]
    | false =>
      rw [List.filter_cons_of_neg (by simp [hp]), List.flatMap_cons, ih,
        h a List.mem_cons_self hp, List.nil_append]

end FileList

namespace IndexState

variable {s : IndexState}

theorem referenceUris_eq_filter (s : IndexState) (fqn : String) :
    s.referenceUris fqn =
      (referrersOf s.referrers fqn).toList.filter fun uri =>
        (s.file? uri).any (s.refersTo fqn) := by
  unfold referenceUris referrersOf
  cases s.referrers[fqn]? with
  | none => simp
  | some uris =>
    refine List.filter_congr fun uri _ => ?_
    cases s.file? uri <;> rfl

theorem increasing_referenceUris (s : IndexState) (fqn : String) :
    Increasing id (s.referenceUris fqn) := by
  rw [referenceUris_eq_filter]
  refine List.Pairwise.filter _ (List.Pairwise.imp ?_ ExtTreeSet.ordered_toList)
  exact fun hab => compareOfLessAndEq_eq_lt.mp hab

namespace Consistent

theorem declarers_toList (h : Consistent s) (fqn : String) :
    (declarersOf s.declarers fqn).toList =
      (s.ordered.filter fun a => FileList.declares fqn a.file).map
        fun a => (a.sequence, a.file.uri) := by
  apply eq_of_increasing Prod.fst
  · exact ExtTreeMap.ordered_keys_toList.imp Nat.compare_eq_lt.mp
  · rw [Increasing, List.pairwise_map]
    exact List.Pairwise.filter _ h.increasing_ordered
  · rintro ⟨n, uri⟩
    rw [ExtTreeMap.mem_toList_iff_getElem?_eq_some, h.declarers_iff, List.mem_map]
    constructor
    · rintro ⟨slot, hs, rfl, hd⟩
      have hu := h.keyed hs
      refine ⟨slot, List.mem_filter.mpr ⟨h.mem_ordered.mpr (hu ▸ hs), ?_⟩, by rw [hu]⟩
      exact FileList.declares_iff.mpr hd
    · rintro ⟨slot, hm, he⟩
      obtain ⟨hs, hd⟩ := List.mem_filter.mp hm
      cases he
      exact ⟨slot, h.mem_ordered.mp hs, rfl, FileList.declares_iff.mp hd⟩

theorem owner?_eq (h : Consistent s) (fqn : String) :
    s.owner? fqn = (FileList.owner? s.files fqn).map File.uri := by
  have hd : s.owner? fqn = ((declarersOf s.declarers fqn).toList.head?).map Prod.snd := by
    unfold owner? declarersOf
    cases s.declarers[fqn]? <;> simp
  rw [hd, h.declarers_toList, List.head?_map, List.head?_filter, files_eq_map_ordered,
    FileList.owner?, List.find?_map, Option.map_map, Option.map_map]
  rfl

theorem owner?_isSome (h : Consistent s) (fqn : String) :
    (s.owner? fqn).isSome = s.files.any (FileList.declares fqn) := by
  rw [h.owner?_eq, Option.isSome_map, FileList.owner?, Bool.eq_iff_iff, List.find?_isSome,
    List.any_eq_true]

theorem definition?_eq (h : Consistent s) (fqn : String) :
    s.definition? fqn = FileList.definition? s.files fqn := by
  unfold definition? FileList.definition?
  rw [h.owner?_eq]
  cases ho : FileList.owner? s.files fqn with
  | none => rfl
  | some f =>
    have hf : s.file? f.uri = some f := h.mem_files.mp (List.mem_of_find?_eq_some ho)
    simp [hf]

theorem bound_eq (h : Consistent s) (r : Reference) : s.bound r = FileList.bound s.files r := by
  unfold bound FileList.bound
  cases r.fallback with
  | none => rfl
  | some fallback => simp only [← Option.not_isSome, h.owner?_isSome]

theorem refersTo_eq (h : Consistent s) (fqn : String) (f : File) :
    s.refersTo fqn f = FileList.refersTo s.files fqn f := by
  simp only [refersTo, FileList.refersTo, h.bound_eq]

theorem referrers_slots (h : Consistent s) (fqn : String) :
    (((referrersOf s.referrers fqn).toList.filterMap fun uri => s.slots[uri]?).mergeSort
        fun a b => a.sequence ≤ b.sequence) =
      s.ordered.filter fun a => (referredNames a.file).contains fqn := by
  apply eq_of_increasing Slot.sequence
  · apply increasing_mergeSort
    rw [List.pairwise_filterMap]
    refine ExtTreeSet.distinct_toList.imp ?_
    intro u v hne a ha b hb hab
    exact hne (LawfulEqCmp.compare_eq_iff_eq.mpr (h.sequence_inj ha hb hab))
  · exact List.Pairwise.filter _ h.increasing_ordered
  · intro slot
    rw [List.mem_mergeSort, List.mem_filterMap, List.mem_filter, h.mem_ordered,
      List.contains_iff_mem]
    constructor
    · rintro ⟨uri, hu, hs⟩
      rw [ExtTreeSet.mem_toList, h.referrers_iff] at hu
      obtain ⟨slot', hs', hn⟩ := hu
      rw [hs, Option.some.injEq] at hs'
      subst hs'
      exact ⟨h.keyed hs ▸ hs, hn⟩
    · rintro ⟨hs, hn⟩
      exact ⟨_, ExtTreeSet.mem_toList.mpr ((h.referrers_iff _ _).mpr ⟨slot, hs, hn⟩), hs⟩

theorem referencesTo_eq (h : Consistent s) (fqn : String) :
    s.referencesTo fqn = FileList.referencesTo s.files fqn := by
  have hr : s.referencesTo fqn =
      ((((referrersOf s.referrers fqn).toList.filterMap fun uri => s.slots[uri]?).mergeSort
        fun a b => a.sequence ≤ b.sequence).flatMap fun slot => slot.file.references).filter
          fun r => s.bound r == fqn := by
    unfold referencesTo referrersOf
    cases s.referrers[fqn]? <;> simp
  rw [hr, h.referrers_slots, List.filter_flatMap, FileList.flatMap_filter_of_nil,
    FileList.referencesTo, files_eq_map_ordered, List.flatMap_map]
  · simp only [h.bound_eq, files_eq_map_ordered]
  · intro slot _ hn
    rw [List.filter_eq_nil_iff]
    intro r hm hb
    rw [h.bound_eq] at hb
    have hmem := FileList.mem_referredNames_of_refersTo (List.any_eq_true.mpr ⟨r, hm, hb⟩)
    rw [List.contains_iff_mem.mpr hmem] at hn
    cases hn

theorem mem_referenceUris (h : Consistent s) {fqn uri : String} :
    uri ∈ s.referenceUris fqn ↔
      ∃ f ∈ s.files, FileList.refersTo s.files fqn f = true ∧ f.uri = uri := by
  rw [referenceUris_eq_filter, List.mem_filter, ExtTreeSet.mem_toList, h.referrers_iff]
  constructor
  · rintro ⟨⟨slot, hs, -⟩, hm⟩
    have hu := h.keyed hs
    have hf : s.file? uri = some slot.file := file?_eq_some_iff.mpr ⟨_, hs⟩
    rw [hf, Option.any_some, h.refersTo_eq] at hm
    exact ⟨slot.file, h.mem_files.mpr (hu ▸ hf), hm, hu⟩
  · rintro ⟨f, hf, hm, rfl⟩
    have hf := h.mem_files.mp hf
    obtain ⟨n, hs⟩ := file?_eq_some_iff.mp hf
    refine ⟨⟨_, hs, FileList.mem_referredNames_of_refersTo hm⟩, ?_⟩
    rw [hf, Option.any_some, h.refersTo_eq, hm]

theorem referenceUris_eq (h : Consistent s) (fqn : String) :
    s.referenceUris fqn = FileList.referenceUris s.files fqn := by
  apply eq_of_increasing id (increasing_referenceUris s fqn)
  · unfold FileList.referenceUris
    rw [show FileList.byteLe = fun a b => decide (a ≤ b) from funext₂ FileList.byteLe_eq]
    exact increasing_mergeSort id (List.nodup_dedup _)
  · intro uri
    rw [h.mem_referenceUris]
    simp [FileList.referenceUris, and_assoc]

theorem conflicts_eq (h : Consistent s) {uri : String}
    (hl : ∀ f ∈ s.files, f.Local) : s.conflicts uri = FileList.conflicts s.files uri := by
  unfold conflicts FileList.conflicts
  rw [h.file?_eq]
  cases hf : s.files.find? (·.uri == uri) with
  | none => rfl
  | some f =>
    have hu : f.uri = uri := by simpa using List.find?_some hf
    have hd := (hl f (List.mem_of_find?_eq_some hf)).1
    simp only [List.filter_map]
    congr 1
    refine List.filter_congr fun d hm => ?_
    simp only [isLive, h.owner?_eq, hd d hm, hu, Function.comp, bne]

end Consistent

end IndexState
end SemanticIndex
