import SemanticIndex.Proofs.Index.Answers

namespace SemanticIndex

namespace IndexState

theorem files_empty : empty.files = [] := by
  have hs : empty.stored = [] := List.map_eq_nil_iff.mpr (Std.ExtTreeMap.toList_eq_nil_iff.mpr rfl)
  rw [files, hs, List.mergeSort_nil, List.map_nil]

theorem files_ofFiles (files : List File) :
    (ofFiles files).files = files.foldl FileList.put [] := by
  have hfold {t : IndexState} (ht : Consistent t) :
      (files.foldl restoreFile t).files = files.foldl FileList.put t.files := by
    induction files generalizing t with
    | nil => rfl
    | cons f files ih =>
      rw [List.foldl_cons, List.foldl_cons, ih (ht.restoreFile f)]
      exact congrArg (files.foldl FileList.put) (ht.files_replace f)
  rw [ofFiles, hfold consistent_empty, files_empty]

end IndexState

namespace Repository

theorem consistent_apply {r : Repository} (h : r.state.Consistent) (m : Mutation) :
    (r.apply m).state.Consistent := by
  cases m with
  | upsert f => exact h.replace f
  | remove uri => exact h.remove uri
  | restore s =>
    simp only [apply, restore, stateOf]
    split
    · exact IndexState.consistent_ofFiles s.files
    · exact IndexState.consistent_empty
  | markVerified uri => exact h.markVerified uri
  | beginIndexing => rwa [apply, state_beginIndexing]
  | markComplete => rwa [apply, state_markComplete]

theorem files_apply {r : Repository} (h : r.state.Consistent) (m : Mutation) :
    (r.apply m).state.files = FileList.apply r.state.files m := by
  cases m with
  | upsert f => exact h.files_replace f
  | remove uri => exact h.files_remove uri
  | restore s =>
    simp only [apply, restore, stateOf, FileList.apply]
    split
    · exact IndexState.files_ofFiles s.files
    · exact IndexState.files_empty
  | markVerified uri => rfl
  | beginIndexing => rw [apply, state_beginIndexing]; rfl
  | markComplete => rw [apply, state_markComplete]; rfl

theorem consistent_run {r : Repository} (h : r.state.Consistent) (ms : List Mutation) :
    (r.run ms).state.Consistent := by
  induction ms generalizing r with
  | nil => exact h
  | cons m ms ih => exact ih (consistent_apply h m)

theorem files_run {r : Repository} (h : r.state.Consistent) (ms : List Mutation) :
    (r.run ms).state.files = FileList.run r.state.files ms := by
  induction ms generalizing r with
  | nil => rfl
  | cons m ms ih =>
    have hr := ih (consistent_apply h m)
    rw [files_apply h m] at hr
    exact hr

theorem consistent_run_empty (ms : List Mutation) : (empty.run ms).state.Consistent :=
  consistent_run IndexState.consistent_empty ms

theorem files_run_empty (ms : List Mutation) :
    (empty.run ms).state.files = FileList.run [] ms := by
  rw [files_run (r := empty) IndexState.consistent_empty ms]
  exact congrArg (FileList.run · ms) IndexState.files_empty

theorem run_refines_file_list (ms : List Mutation) (hl : ∀ m ∈ ms, ∀ f ∈ m.files, f.Local)
    (fqn uri : String) :
    let r := empty.run ms
    let fs := FileList.run [] ms
    (fs.map File.uri).Nodup ∧
      r.snapshot.files = fs ∧
      r.state.file? uri = fs.find? (·.uri == uri) ∧
      r.state.definition? fqn = FileList.definition? fs fqn ∧
      r.state.referencesTo fqn = FileList.referencesTo fs fqn ∧
      r.state.referenceUris fqn = FileList.referenceUris fs fqn ∧
      r.state.conflicts uri = FileList.conflicts fs uri := by
  intro r fs
  have h : r.state.Consistent := consistent_run_empty ms
  have hf : r.state.files = fs := files_run_empty ms
  have hlocal : ∀ f ∈ fs, f.Local := by
    intro f hm
    rcases FileList.mem_run hm with ⟨m, hmem, hfile⟩ | hn
    · exact hl m hmem f hfile
    · exact absurd hn List.not_mem_nil
  rw [← hf] at hlocal ⊢
  exact ⟨h.uris_nodup, rfl, h.file?_eq uri, h.definition?_eq fqn, h.referencesTo_eq fqn,
    h.referenceUris_eq fqn, h.conflicts_eq hlocal⟩

def helperHistory : List Mutation :=
  [.upsert (.outline "file:///call.php" [] [("App\\helper()", some "helper()")]),
   .upsert (.outline "file:///b.php" ["helper()"] []),
   .upsert (.outline "file:///a.php" ["helper()"] [("helper()", none)]),
   .upsert (.outline "file:///app.php" ["App\\helper()"] []),
   .remove "file:///app.php"]

theorem run_refines_file_list_rebound :
    (∀ m ∈ helperHistory, ∀ f ∈ m.files, f.Local) ∧
      (empty.run helperHistory).snapshot.files.map File.uri =
        ["file:///call.php", "file:///b.php", "file:///a.php"] ∧
      ((empty.run helperHistory).state.definition? "helper()").map Definition.uri =
        some "file:///b.php" ∧
      ((empty.run helperHistory).state.referencesTo "helper()").map Reference.uri =
        ["file:///call.php", "file:///a.php"] ∧
      (empty.run helperHistory).state.referenceUris "helper()" =
        ["file:///a.php", "file:///call.php"] ∧
      (empty.run helperHistory).state.conflicts "file:///a.php" = ["helper()"] := by
  have hl : ∀ m ∈ helperHistory, ∀ f ∈ m.files, f.Local := by decide
  have hd : (((FileList.run [] helperHistory).filter
      (FileList.refersTo (FileList.run [] helperHistory) "helper()")).map File.uri).dedup =
        ["file:///call.php", "file:///a.php"] := by decide
  obtain ⟨-, hfiles, -, hdef, hrefs, huris, hconf⟩ :=
    run_refines_file_list helperHistory hl "helper()" "file:///a.php"
  rw [hfiles, hdef, hrefs, huris, hconf]
  refine ⟨hl, by decide, by decide, by decide, ?_, by decide⟩
  rw [FileList.referenceUris, hd, List.mergeSort]
  simp [FileList.byteLe_eq]

end Repository

end SemanticIndex
