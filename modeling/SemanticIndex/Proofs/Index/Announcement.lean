import SemanticIndex.Proofs.Index.Answers
import SemanticIndex.Proofs.Index.Ancestry

namespace SemanticIndex

namespace FileList

theorem owner?_of_put {fs : List File} {f g : File} {fqn : String}
    (h : owner? (put fs f) fqn = some g) (hne : g.uri ≠ f.uri)
    (hold : ∀ a ∈ fs, a.uri = f.uri → declares fqn a = true → declares fqn f = true) :
    owner? fs fqn = some g := by
  unfold owner? put at h
  split at h
  · rw [List.find?_map, Option.map_eq_some_iff] at h
    obtain ⟨k, hk, hg⟩ := h
    have hkg : k = g := by
      by_cases hu : k.uri = f.uri
      · simp only [hu, beq_self_eq_true, if_true] at hg
        exact absurd (congrArg File.uri hg).symm hne
      · simpa [hu] using hg
    subst hkg
    obtain ⟨hp, as, bs, rfl, hn⟩ := List.find?_eq_some_iff_append.mp hk
    refine List.find?_eq_some_iff_append.mpr ⟨by simpa [hne] using hp, as, bs, rfl, ?_⟩
    intro a ha
    have hna := hn a ha
    by_cases hu : a.uri = f.uri
    · have hf : declares fqn f = false := by simpa [hu] using hna
      have := hold a (List.mem_append_left _ ha) hu
      simpa [hf] using this
    · simpa [hu] using hna
  · rw [List.find?_append] at h
    cases hf : fs.find? (declares fqn) with
    | some k =>
      rw [hf, Option.some_or] at h
      exact hf.trans h
    | none =>
      rw [hf, Option.none_or] at h
      have hm := List.mem_of_find?_eq_some h
      exact absurd (congrArg File.uri (List.mem_singleton.mp hm)) hne

theorem owner?_put_of_new {fs : List File} {f g : File} {fqn : String}
    (hnew : fs.any (·.uri == f.uri) = false) (h : owner? fs fqn = some g) :
    owner? (put fs f) fqn = some g := by
  unfold owner? at h
  simp only [owner?, put, hnew, Bool.false_eq_true, if_false, List.find?_append, h, Option.some_or]

theorem owner?_erase {fs : List File} {uri fqn : String} {g : File} (h : owner? fs fqn = some g)
    (hne : g.uri ≠ uri) : owner? (erase fs uri) fqn = some g := by
  obtain ⟨hp, as, bs, rfl, hn⟩ := List.find?_eq_some_iff_append.mp h
  unfold owner? erase
  rw [List.find?_filter]
  refine List.find?_eq_some_iff_append.mpr ⟨by simp [hne, hp], as, bs, rfl, ?_⟩
  intro a ha
  have hna : declares fqn a = false := by simpa using hn a ha
  simp [hna]

end FileList

namespace IndexState

variable {s : IndexState}

namespace Consistent

theorem definition?_eq_of_owner? {t : IndexState} (hs : Consistent s) (ht : Consistent t)
    {fqn : String} {g : File} (hg : FileList.owner? s.files fqn = some g)
    (hg' : FileList.owner? t.files fqn = some g) : s.definition? fqn = t.definition? fqn := by
  rw [hs.definition?_eq, ht.definition?_eq, FileList.definition?, FileList.definition?, hg, hg']

theorem owner?_of_definition? (h : Consistent s) {fqn : String} {d : Definition}
    (hd : s.definition? fqn = some d) : ∃ g, FileList.owner? s.files fqn = some g := by
  rw [h.definition?_eq, FileList.definition?, Option.bind_eq_some_iff] at hd
  obtain ⟨g, hg, -⟩ := hd
  exact ⟨g, hg⟩

theorem eq_of_uri_eq (h : Consistent s) {f g : File} (hf : f ∈ s.files) (hg : g ∈ s.files)
    (hu : f.uri = g.uri) : f = g := by
  have hf := h.mem_files.mp hf
  rw [hu, h.mem_files.mp hg] at hf
  exact (Option.some.inj hf).symm

theorem definition?_of_not_mem_replaceChanges (h : Consistent s) {f : File} {fqn : String}
    (hn : fqn ∉ s.replaceChanges f) {d : Definition}
    (hd : (s.replace f).definition? fqn = some d) : s.definition? fqn = some d := by
  have h' := h.replace f
  obtain ⟨g, hg⟩ := h'.owner?_of_definition? hd
  have hgm : g ∈ (s.replace f).files := List.mem_of_find?_eq_some hg
  have hgd : FileList.declares fqn g = true := List.find?_some hg
  have hgo : (s.replace f).owner? fqn = some g.uri := by rw [h'.owner?_eq, hg]; rfl
  simp only [replaceChanges, List.mem_append, not_or, List.mem_filter, not_and] at hn
  have hne : g.uri ≠ f.uri := by
    intro hu
    have hgf : g = f := by
      have := h'.mem_files.mp hgm
      rw [hu, file?, slots_replace, if_pos rfl] at this
      exact (Option.some.inj this).symm
    subst hgf
    exact hn.1 (FileList.declares_iff.mp hgd) (by simp [hgo])
  suffices hs : FileList.owner? s.files fqn = some g by
    rw [h.definition?_eq_of_owner? h' hs hg, hd]
  rw [h.files_replace] at hg
  by_cases hold : ∀ a ∈ s.files, a.uri = f.uri → FileList.declares fqn a = true →
      FileList.declares fqn f = true
  · exact FileList.owner?_of_put hg hne hold
  · simp only [not_forall] at hold
    obtain ⟨a, ha, hu, had, hfd⟩ := hold
    have haf : s.file? f.uri = some a := hu ▸ h.mem_files.mp ha
    have hown : s.owner? fqn = some g.uri := by
      have hgone := hn.2
      rw [haf] at hgone
      simp only [List.mem_filter, List.mem_eraseDups, hgo] at hgone
      have hsame := hgone ⟨FileList.declares_iff.mp had, by
        simpa [FileList.declares_iff] using hfd⟩
      apply Decidable.byContradiction
      intro hdiff
      exact hsame (by simp [Ne.symm hdiff])
    rw [h.owner?_eq, Option.map_eq_some_iff] at hown
    obtain ⟨k, hk, hku⟩ := hown
    have hgs : g ∈ s.files := by
      have := h'.mem_files.mp hgm
      rw [file?, slots_replace, if_neg (Ne.symm hne)] at this
      exact h.mem_files.mpr this
    rw [← h.eq_of_uri_eq (List.mem_of_find?_eq_some hk) hgs hku]
    exact hk

theorem definition?_of_not_mem_removeChanges (h : Consistent s) {uri fqn : String}
    (hn : fqn ∉ s.removeChanges uri) {d : Definition}
    (hd : (s.remove uri).definition? fqn = some d) : s.definition? fqn = some d := by
  have h' := h.remove uri
  obtain ⟨g, hg⟩ := h'.owner?_of_definition? hd
  have hgo : ((s.remove uri).owner? fqn).isSome := by rw [h'.owner?_eq, hg]; rfl
  rw [h.files_remove] at hg
  have hgs : g ∈ s.files := List.mem_of_mem_filter (List.mem_of_find?_eq_some hg)
  obtain ⟨k, hk⟩ : ∃ k, FileList.owner? s.files fqn = some k :=
    Option.isSome_iff_exists.mp (List.find?_isSome.mpr ⟨g, hgs, List.find?_some hg⟩)
  have hku : k.uri ≠ uri := by
    rintro rfl
    have hkf : s.file? k.uri = some k := h.mem_files.mp (List.mem_of_find?_eq_some hk)
    have hko : s.owner? fqn = some k.uri := by rw [h.owner?_eq, hk]; rfl
    have hkd : fqn ∈ declaredNames k := FileList.declares_iff.mp (List.find?_some hk)
    apply hn
    rw [removeChanges, hkf]
    simp [List.mem_filter, hkd, hko, hgo]
  have hk' : FileList.owner? (s.remove uri).files fqn = some k := by
    rw [h.files_remove]
    exact FileList.owner?_erase hk hku
  rw [h.definition?_eq_of_owner? h' hk hk', hd]

theorem extends_of_replaceChanges_nil (h : Consistent s) {f : File}
    (hn : s.replaceChanges f = []) : Extends (s.replace f) s :=
  fun _ _ hd => h.definition?_of_not_mem_replaceChanges (by simp [hn]) hd

theorem extends_of_removeChanges_nil (h : Consistent s) {uri : String}
    (hn : s.removeChanges uri = []) : Extends (s.remove uri) s :=
  fun _ _ hd => h.definition?_of_not_mem_removeChanges (by simp [hn]) hd

theorem extends_replace_new (h : Consistent s) {f : File} (hnew : s.file? f.uri = none) :
    Extends s (s.replace f) := by
  intro fqn d hd
  obtain ⟨g, hg⟩ := h.owner?_of_definition? hd
  have hg' : FileList.owner? (s.replace f).files fqn = some g := by
    rw [h.files_replace]
    exact FileList.owner?_put_of_new (by rw [h.any_uri_eq, hnew]; rfl) hg
  rw [← h.definition?_eq_of_owner? (h.replace f) hg hg', hd]

end Consistent

end IndexState

end SemanticIndex
