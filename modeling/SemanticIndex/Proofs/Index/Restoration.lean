import SemanticIndex.Proofs.Index.Ancestry
import SemanticIndex.Proofs.Index.Refinement

namespace SemanticIndex
open Std

namespace IndexState

structure SameAnswers (s t : IndexState) : Prop where
  files : s.files = t.files
  file? : ∀ uri, s.file? uri = t.file? uri
  definition? : ∀ fqn, s.definition? fqn = t.definition? fqn
  inherited? : ∀ fqn, s.inherited? fqn = t.inherited? fqn
  lookup? : ∀ candidates, s.lookup? candidates = t.lookup? candidates
  referenceUris : ∀ fqn, s.referenceUris fqn = t.referenceUris fqn
  referencesTo : ∀ fqn, s.referencesTo fqn = t.referencesTo fqn
  conflicts : ∀ uri, s.conflicts uri = t.conflicts uri
  stats : s.stats = t.stats

variable {s t : IndexState}

theorem stored_perm_files (s : IndexState) : (s.stored.map Slot.file).Perm s.files :=
  (List.mergeSort_perm s.stored _).symm.map Slot.file

theorem total_stored (s : IndexState) (measure : File → Nat) :
    Index.total measure (s.stored.map Slot.file) = Index.total measure s.files :=
  Index.total_perm measure s.stored_perm_files

theorem linkCount_eq (s : IndexState) :
    s.linkCount = Index.total (fun d => d.parents.length) (s.files.flatMap File.definitions) := by
  refine Index.total_perm _ ?_
  have hp := s.stored_perm_files.flatMap_right File.definitions
  rwa [List.flatMap_map] at hp

theorem slots_size_eq (s : IndexState) : s.slots.size = s.files.length := by
  rw [← s.stored_perm_files.length_eq, stored, List.length_map, List.length_map,
    ExtTreeMap.length_toList]

namespace Consistent

theorem mem_declarers (h : Consistent s) (fqn : String) :
    fqn ∈ s.declarers ↔ s.files.any (FileList.declares fqn) = true := by
  rw [← h.owner?_isSome, ExtTreeMap.mem_iff_isSome_getElem?, owner?]
  cases hd : s.declarers[fqn]? with
  | none => simp
  | some ds =>
    have hne : ds ≠ ∅ := fun he => h.declarers_tight fqn (he ▸ hd)
    have hl : ds.toList ≠ [] := fun he => hne (ExtTreeMap.toList_eq_nil_iff.mp he)
    simp [List.isSome_head?, hl]

theorem declarers_keys_eq (hs : Consistent s) (ht : Consistent t) (hf : s.files.Perm t.files) :
    s.declarers.keys = t.declarers.keys := by
  have hinc (m : ExtTreeMap String (ExtTreeMap Nat String)) : Increasing id m.keys := by
    refine List.Pairwise.imp ?_ ExtTreeMap.ordered_keys
    exact fun hab => compareOfLessAndEq_eq_lt.mp hab
  refine eq_of_increasing id (hinc _) (hinc _) fun fqn => ?_
  rw [ExtTreeMap.mem_keys, ExtTreeMap.mem_keys, hs.mem_declarers, ht.mem_declarers, hf.any_eq]

theorem sameAnswers (hs : Consistent s) (ht : Consistent t) (hf : s.files = t.files) :
    SameAnswers s t := by
  have hfile : s.file? = t.file? := funext fun uri => by rw [hs.file?_eq, ht.file?_eq, hf]
  have howner : s.owner? = t.owner? := funext fun fqn => by rw [hs.owner?_eq, ht.owner?_eq, hf]
  have hdef : s.definition? = t.definition? := funext fun fqn => by
    rw [hs.definition?_eq, ht.definition?_eq, hf]
  have hlive : s.isLive = t.isLive := funext fun d => by simp only [isLive, howner]
  have hinh : s.inherited? = t.inherited? := funext fun fqn => by
    have hp : s.parents = t.parents := funext fun name => by simp only [parents, hdef]
    have hl : s.linkCount = t.linkCount := by rw [linkCount_eq, linkCount_eq, hf]
    simp only [inherited?, ancestry, hp, hl, hdef]
  refine
    { files := hf
      file? := congrFun hfile
      definition? := congrFun hdef
      inherited? := congrFun hinh
      lookup? := fun candidates => by simp only [lookup?, hdef, hinh]
      referenceUris := fun fqn => by rw [hs.referenceUris_eq, ht.referenceUris_eq, hf]
      referencesTo := fun fqn => by rw [hs.referencesTo_eq, ht.referencesTo_eq, hf]
      conflicts := fun uri => by simp only [conflicts, hfile, hlive]
      stats := ?_ }
  have hk : s.declarers.size = t.declarers.size := by
    rw [← ExtTreeMap.length_keys, ← ExtTreeMap.length_keys, hs.declarers_keys_eq ht (.of_eq hf)]
  simp only [stats, slots_size_eq, total_stored, hk, hf, hlive]

end Consistent

def AllUnverified (s : IndexState) : Prop := ∀ uri, s.contains uri = true → uri ∈ s.unverified

theorem AllUnverified.restoreFile (h : AllUnverified s) (f : File) :
    AllUnverified (s.restoreFile f) := by
  intro uri hc
  have hc : ((s.replace f).slots[uri]?).isSome = true := hc
  have hm : (s.restoreFile f).unverified = (s.unverified.erase f.uri).insert f.uri := rfl
  rw [hm, ExtTreeSet.mem_insert, LawfulEqCmp.compare_eq_iff_eq, ExtTreeSet.mem_erase, ne_eq,
    LawfulEqCmp.compare_eq_iff_eq]
  rw [slots_replace] at hc
  by_cases hu : f.uri = uri
  · exact .inl hu
  · rw [if_neg hu] at hc
    exact .inr ⟨hu, h uri hc⟩

theorem allUnverified_ofFiles (files : List File) : AllUnverified (ofFiles files) := by
  have hfold {s : IndexState} (hs : AllUnverified s) :
      AllUnverified (files.foldl IndexState.restoreFile s) := by
    induction files generalizing s with
    | nil => exact hs
    | cons f files ih => exact ih (hs.restoreFile f)
  exact hfold fun uri hc => by simp [contains, empty] at hc

end IndexState

namespace Repository

theorem files_ofSnapshot {r : Repository} (h : r.state.Consistent) :
    (ofSnapshot r.snapshot).state.files = r.state.files := by
  have hs : (ofSnapshot r.snapshot).state = .ofFiles r.state.files := rfl
  rw [hs, IndexState.files_ofFiles, FileList.foldl_put_of_nodup]
  · rfl
  · exact h.uris_nodup

theorem restored_gives_same_answers (ms : List Mutation) :
    let r := empty.run ms
    let restored := ofSnapshot r.snapshot
    r.state.SameAnswers restored.state ∧
      (∀ uri, restored.state.contains uri = true → restored.state.isVerified uri = false) ∧
      ∀ later : List Mutation, (r.run later).state.SameAnswers (restored.run later).state := by
  intro r restored
  have hr : r.state.Consistent := consistent_run_empty ms
  have hs : restored.state.Consistent := IndexState.consistent_ofFiles r.state.files
  have hf : restored.state.files = r.state.files := files_ofSnapshot hr
  refine ⟨hr.sameAnswers hs hf.symm, ?_, ?_⟩
  · intro uri hc
    have hu := IndexState.allUnverified_ofFiles r.state.files uri hc
    simp only [IndexState.isVerified, Bool.not_eq_false']
    exact hu
  · intro later
    refine (consistent_run hr later).sameAnswers (consistent_run hs later) ?_
    rw [files_run hr, files_run hs, hf]

end Repository

end SemanticIndex
