import SemanticIndex.Proofs.Index.Liveness

namespace SemanticIndex
open Std

namespace FileList

variable {fs gs : List File} {fqn : String}

theorem bound_perm (h : fs.Perm gs) (r : Reference) : bound fs r = bound gs r := by
  unfold bound
  cases r.fallback with
  | none => rfl
  | some fallback => simp only [h.any_eq]

theorem refersTo_perm (h : fs.Perm gs) (f : File) : refersTo fs fqn f = refersTo gs fqn f := by
  simp only [refersTo, bound_perm h]

theorem referencesTo_perm (h : fs.Perm gs) (fqn : String) :
    (referencesTo fs fqn).Perm (referencesTo gs fqn) := by
  simp only [referencesTo, bound_perm h]
  exact h.flatMap_right _

theorem definition?_isSome_perm (h : fs.Perm gs) (fqn : String) :
    (definition? fs fqn).isSome = (definition? gs fqn).isSome := by
  rw [Bool.eq_iff_iff, ← Option.ne_none_iff_isSome, ← Option.ne_none_iff_isSome, ne_eq, ne_eq,
    definition?_eq_none_iff, definition?_eq_none_iff]
  simp only [h.mem_iff]

theorem owner?_perm (h : fs.Perm gs) (hone : fs.countP (declares fqn) = 1) :
    owner? fs fqn = owner? gs fqn := by
  rw [List.countP_eq_length_filter, List.length_eq_one_iff] at hone
  obtain ⟨f, hf⟩ := hone
  have hg : [f] = gs.filter (declares fqn) := (hf ▸ h.filter (declares fqn)).singleton_eq
  rw [owner?, owner?, ← List.head?_filter, ← List.head?_filter, hf, hg]

end FileList

namespace IndexState.Consistent

variable {s t : IndexState}

theorem file?_perm (hs : Consistent s) (ht : Consistent t) (hf : s.files.Perm t.files)
    (uri : String) : s.file? uri = t.file? uri := by
  refine Option.ext fun f => ?_
  constructor
  · intro h
    obtain rfl := hs.uri_of_file? h
    exact ht.mem_files.mp (hf.mem_iff.mp (hs.mem_files.mpr h))
  · intro h
    obtain rfl := ht.uri_of_file? h
    exact hs.mem_files.mp (hf.mem_iff.mpr (ht.mem_files.mpr h))

theorem referenceUris_perm (hs : Consistent s) (ht : Consistent t) (hf : s.files.Perm t.files)
    (fqn : String) : s.referenceUris fqn = t.referenceUris fqn := by
  refine eq_of_increasing id (increasing_referenceUris s fqn) (increasing_referenceUris t fqn) ?_
  intro uri
  rw [hs.mem_referenceUris, ht.mem_referenceUris]
  simp only [hf.mem_iff, FileList.refersTo_perm hf]

theorem stats_perm (hs : Consistent s) (ht : Consistent t) (hf : s.files.Perm t.files)
    (ho : ∀ f ∈ s.files, f.Orderly) : s.stats = t.stats := by
  have hsizes : s.slots.size = t.slots.size := by
    rw [slots_size_eq, slots_size_eq, hf.length_eq]
  have hdefinitions : s.declarers.size = t.declarers.size := by
    rw [← ExtTreeMap.length_keys, ← ExtTreeMap.length_keys, hs.declarers_keys_eq ht hf]
  have hconflicts : s.stats.conflicts = t.stats.conflicts := by
    have hssum := hs.stats_definitions_add_conflicts ho
    have htsum := ht.stats_definitions_add_conflicts fun f hm => ho f (hf.mem_iff.mpr hm)
    have hsame : s.stats.definitions = t.stats.definitions := hdefinitions
    rw [Index.total_perm _ hf] at hssum
    omega
  have htotal (measure : File → Nat) : Index.total measure (s.stored.map Slot.file) =
      Index.total measure (t.stored.map Slot.file) := by
    rw [total_stored, total_stored, Index.total_perm measure hf]
  simp only [stats, IndexStats.mk.injEq] at hconflicts ⊢
  exact ⟨hsizes, htotal _, htotal _, hdefinitions, htotal _, hconflicts⟩

end IndexState.Consistent

namespace Repository

theorem files_run_upserts {files : List File} (h : (files.map File.uri).Nodup) :
    (empty.run (files.map .upsert)).state.files = files := by
  rw [files_run_empty, FileList.run, List.foldl_map]
  exact FileList.foldl_put_of_nodup h

theorem order_of_upserts_is_immaterial {files reordered : List File}
    (hperm : files.Perm reordered) (huris : (files.map File.uri).Nodup)
    (hfiles : ∀ f ∈ files, f.Orderly) :
    let s := (empty.run (files.map .upsert)).state
    let t := (empty.run (reordered.map .upsert)).state
    (s.files = files ∧ t.files = reordered) ∧
      (∀ uri, s.file? uri = t.file? uri) ∧
      (∀ fqn, s.referenceUris fqn = t.referenceUris fqn) ∧
      (∀ fqn, (s.referencesTo fqn).Perm (t.referencesTo fqn)) ∧
      (∀ fqn, (s.definition? fqn).isSome = (t.definition? fqn).isSome) ∧
      (∀ fqn, files.countP (FileList.declares fqn) = 1 → s.definition? fqn = t.definition? fqn) ∧
      s.stats = t.stats := by
  intro s t
  have hs : s.Consistent := consistent_run_empty _
  have ht : t.Consistent := consistent_run_empty _
  have hsf : s.files = files := files_run_upserts huris
  have htf : t.files = reordered :=
    files_run_upserts ((hperm.map File.uri).nodup_iff.mp huris)
  have hf : s.files.Perm t.files := by rwa [hsf, htf]
  refine ⟨⟨hsf, htf⟩, hs.file?_perm ht hf, hs.referenceUris_perm ht hf, ?_, ?_, ?_,
    hs.stats_perm ht hf (by rwa [hsf])⟩
  · intro fqn
    rw [hs.referencesTo_eq, ht.referencesTo_eq]
    exact FileList.referencesTo_perm hf fqn
  · intro fqn
    rw [hs.definition?_eq, ht.definition?_eq]
    exact FileList.definition?_isSome_perm hf fqn
  · intro fqn hone
    rw [hs.definition?_eq, ht.definition?_eq, FileList.definition?, FileList.definition?,
      FileList.owner?_perm hf (by rwa [hsf])]

def sharedHelper : List File :=
  [.outline "file:///call.php" [] [("App\\helper()", some "helper()")],
   .outline "file:///b.php" ["helper()", "b()"] [],
   .outline "file:///a.php" ["helper()"] [("helper()", none), ("b()", none)]]

theorem order_of_upserts_is_immaterial_reversed :
    let s := (empty.run (sharedHelper.map .upsert)).state
    let t := (empty.run (sharedHelper.reverse.map .upsert)).state
    (s.definition? "helper()").map Definition.uri = some "file:///b.php" ∧
      (t.definition? "helper()").map Definition.uri = some "file:///a.php" ∧
      s.definition? "b()" = t.definition? "b()" ∧
      (s.referencesTo "helper()").Perm (t.referencesTo "helper()") ∧
      (s.referencesTo "helper()").map Reference.uri = ["file:///call.php", "file:///a.php"] ∧
      (t.referencesTo "helper()").map Reference.uri = ["file:///a.php", "file:///call.php"] ∧
      s.stats = t.stats ∧ t.stats.conflicts = 1 := by
  intro s t
  have hfiles : ∀ f ∈ sharedHelper, f.Orderly := by decide
  obtain ⟨⟨hsf, htf⟩, -, -, hreferences, -, hone, hstats⟩ := order_of_upserts_is_immaterial
    sharedHelper.reverse_perm.symm (by decide) hfiles
  have hs : s.Consistent := consistent_run_empty _
  have ht : t.Consistent := consistent_run_empty _
  refine ⟨by decide +kernel, by decide +kernel, hone "b()" (by decide), hreferences "helper()",
    ?_, ?_, hstats, by decide +kernel⟩
  · rw [hs.referencesTo_eq, hsf]
    decide
  · rw [ht.referencesTo_eq, htf]
    decide

end Repository

end SemanticIndex
