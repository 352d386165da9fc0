import SemanticIndex.Index.Query
import SemanticIndex.Proofs.Collect.Records
import SemanticIndex.Proofs.Index.Announcement
import SemanticIndex.Proofs.Index.Restoration

namespace SemanticIndex
open Std

namespace Index

variable {α β : Type}

theorem total_map (measure : β → Nat) (g : α → β) (xs : List α) :
    total measure (xs.map g) = total (fun x => measure (g x)) xs := by
  simp only [total, List.foldr_map]

theorem total_congr {measure other : α → Nat} {xs : List α}
    (h : ∀ x ∈ xs, measure x = other x) : total measure xs = total other xs := by
  induction xs with
  | nil => rfl
  | cons x xs ih =>
    have hx := h x List.mem_cons_self
    have hxs := ih fun y hy => h y (List.mem_cons_of_mem x hy)
    simp only [total, List.foldr_cons] at hxs ⊢
    rw [hx, hxs]

theorem total_add (measure other : α → Nat) (xs : List α) :
    total (fun x => measure x + other x) xs = total measure xs + total other xs := by
  induction xs with
  | nil => rfl
  | cons x xs ih =>
    simp only [total, List.foldr_cons] at ih ⊢
    omega

theorem length_flatMap_eq_total (g : α → List β) (xs : List α) :
    (xs.flatMap g).length = total (fun x => (g x).length) xs := by
  induction xs with
  | nil => rfl
  | cons x xs ih =>
    rw [List.flatMap_cons, List.length_append, ih]
    rfl

theorem filter_of_nodup_keys {key : α → String} {xs : List α} {a : α}
    (h : (xs.map key).Nodup) (ha : a ∈ xs) : xs.filter (key · == key a) = [a] := by
  induction xs with
  | nil => cases ha
  | cons x xs ih =>
    obtain ⟨hx, hxs⟩ := List.nodup_cons.mp h
    rcases List.mem_cons.mp ha with rfl | ha
    · have hnone : xs.filter (key · == key a) = [] := by
        refine List.filter_eq_nil_iff.mpr fun b hb hk => ?_
        exact hx (List.mem_map.mpr ⟨b, hb, beq_iff_eq.mp hk⟩)
      rw [List.filter_cons_of_pos (by simp), hnone]
    · have hne : key x ≠ key a := fun he => hx (he ▸ List.mem_map_of_mem ha)
      rw [List.filter_cons_of_neg (by simpa using hne), ih hxs ha]

end Index

namespace IndexState

variable {s : IndexState} {f : File} {d : Definition} {fqn : String}

theorem liveDefinitions_perm (s : IndexState) :
    s.liveDefinitions.Perm (s.files.flatMap fun f => f.definitions.filter s.isLive) := by
  have hrows : s.liveDefinitions =
      (s.stored.map Slot.file).flatMap fun f => f.definitions.filter s.isLive := by
    simp only [liveDefinitions, definitionRows, fileRows, List.filter_true, List.filter_flatMap]
  rw [hrows]
  exact s.stored_perm_files.flatMap_right _

theorem mem_liveDefinitions :
    d ∈ s.liveDefinitions ↔ ∃ f ∈ s.files, d ∈ f.definitions ∧ s.isLive d = true := by
  simp [s.liveDefinitions_perm.mem_iff, List.mem_flatMap, List.mem_filter]

namespace Consistent

theorem definition?_isSome_iff (h : Consistent s) (fqn : String) :
    (s.definition? fqn).isSome = true ↔ ∃ f ∈ s.files, fqn ∈ declaredNames f := by
  rw [← Option.ne_none_iff_isSome, h.definition?_eq, ne_eq, FileList.definition?_eq_none_iff]
  simp [FileList.declares_iff]

theorem isLive_iff (h : Consistent s) (ho : f.Orderly) (hf : f ∈ s.files)
    (hd : d ∈ f.definitions) : s.isLive d = true ↔ FileList.owner? s.files d.fqn = some f := by
  rw [isLive, beq_iff_eq, h.owner?_eq, ho.uri_eq d hd, Option.map_eq_some_iff]
  constructor
  · rintro ⟨g, hg, hu⟩
    rw [hg, h.eq_of_uri_eq (List.mem_of_find?_eq_some hg) hf hu]
  · exact fun hg => ⟨f, hg, rfl⟩

theorem mem_liveDefinitions_iff (h : Consistent s) (ho : ∀ f ∈ s.files, f.Orderly) :
    d ∈ s.liveDefinitions ↔ s.definition? d.fqn = some d := by
  rw [mem_liveDefinitions, h.definition?_eq, FileList.definition?, Option.bind_eq_some_iff]
  constructor
  · rintro ⟨f, hf, hd, hlive⟩
    refine ⟨f, (h.isLive_iff (ho f hf) hf hd).mp hlive, ?_⟩
    rw [← List.head?_filter, Index.filter_of_nodup_keys (ho f hf).nodup hd, List.head?_cons]
  · rintro ⟨f, hf, hd⟩
    have hmem := List.mem_of_find?_eq_some hf
    have hdm := List.mem_of_find?_eq_some hd
    exact ⟨f, hmem, hdm, (h.isLive_iff (ho f hmem) hmem hdm).mpr hf⟩

theorem nodup_liveDefinitions (h : Consistent s) (ho : ∀ f ∈ s.files, f.Orderly) :
    (s.liveDefinitions.map Definition.fqn).Nodup := by
  rw [(s.liveDefinitions_perm.map Definition.fqn).nodup_iff, List.map_flatMap, List.nodup_flatMap]
  constructor
  · intro f hf
    exact (ho f hf).nodup.sublist (List.filter_sublist.map Definition.fqn)
  · have huris : s.files.Pairwise fun f g => f.uri ≠ g.uri := List.pairwise_map.mp h.uris_nodup
    refine huris.imp_of_mem fun {f g} hf hg hne fqn hfqn hgqn => hne ?_
    obtain ⟨d, hd, rfl⟩ := List.mem_map.mp hfqn
    obtain ⟨e, he, hname⟩ := List.mem_map.mp hgqn
    obtain ⟨hd, hlive⟩ := List.mem_filter.mp hd
    obtain ⟨he, hlive'⟩ := List.mem_filter.mp he
    have hown := (h.isLive_iff (ho f hf) hf hd).mp hlive
    have hown' := (h.isLive_iff (ho g hg) hg he).mp hlive'
    rw [hname, hown, Option.some.injEq] at hown'
    rw [hown']

theorem filter_liveDefinitions (h : Consistent s) (ho : ∀ f ∈ s.files, f.Orderly) (fqn : String) :
    s.liveDefinitions.filter (·.fqn == fqn) = (s.definition? fqn).toList := by
  cases hd : s.definition? fqn with
  | some d =>
    obtain ⟨rfl, -⟩ := definition?_spec hd
    exact Index.filter_of_nodup_keys (h.nodup_liveDefinitions ho)
      ((h.mem_liveDefinitions_iff ho).mpr hd)
  | none =>
    refine List.filter_eq_nil_iff.mpr fun d hmem hname => ?_
    rw [h.mem_liveDefinitions_iff ho, beq_iff_eq.mp hname, hd] at hmem
    cases hmem

theorem mem_names_liveDefinitions (h : Consistent s) (ho : ∀ f ∈ s.files, f.Orderly)
    (fqn : String) :
    fqn ∈ s.liveDefinitions.map Definition.fqn ↔ ∃ f ∈ s.files, fqn ∈ declaredNames f := by
  rw [← h.definition?_isSome_iff, Option.isSome_iff_exists, List.mem_map]
  constructor
  · rintro ⟨d, hd, rfl⟩
    exact ⟨d, (h.mem_liveDefinitions_iff ho).mp hd⟩
  · rintro ⟨d, hd⟩
    obtain ⟨rfl, -⟩ := definition?_spec hd
    exact ⟨d, (h.mem_liveDefinitions_iff ho).mpr hd, rfl⟩

theorem stats_definitions (h : Consistent s) (ho : ∀ f ∈ s.files, f.Orderly) :
    s.stats.definitions = s.liveDefinitions.length := by
  have hperm : s.declarers.keys.Perm (s.liveDefinitions.map Definition.fqn) := by
    refine (List.perm_ext_iff_of_nodup ExtTreeMap.nodup_keys (h.nodup_liveDefinitions ho)).mpr
      fun fqn => ?_
    rw [ExtTreeMap.mem_keys, h.mem_declarers, h.mem_names_liveDefinitions ho]
    simp [FileList.declares_iff]
  have hsize : s.stats.definitions = s.declarers.keys.length := ExtTreeMap.length_keys.symm
  rw [hsize, hperm.length_eq, List.length_map]

theorem mem_conflicts_iff (h : Consistent s) (ho : f.Orderly) (hf : f ∈ s.files)
    (hd : d ∈ f.definitions) : d.fqn ∈ s.conflicts f.uri ↔ s.isLive d = false := by
  rw [conflicts, h.mem_files.mp hf]
  simp only [List.mem_map, List.mem_filter, Bool.not_eq_true']
  constructor
  · rintro ⟨e, ⟨he, hlive⟩, hname⟩
    rw [isLive, ho.uri_eq e he, hname] at hlive
    rwa [isLive, ho.uri_eq d hd]
  · exact fun hlive => ⟨d, ⟨hd, hlive⟩, rfl⟩

theorem stats_definitions_add_conflicts (h : Consistent s) (ho : ∀ f ∈ s.files, f.Orderly) :
    s.stats.definitions + s.stats.conflicts =
      Index.total (fun f => f.definitions.length) s.files := by
  have hlive : s.liveDefinitions.length =
      Index.total (fun f => (f.definitions.filter s.isLive).length) s.files := by
    rw [s.liveDefinitions_perm.length_eq, Index.length_flatMap_eq_total]
  have hdead : s.stats.conflicts =
      Index.total (fun f => (f.definitions.filter fun d => !s.isLive d).length) s.files :=
    s.total_stored _
  rw [h.stats_definitions ho, hlive, hdead, ← Index.total_add]
  exact Index.total_congr fun f _ => (f.definitions.length_eq_length_filter_add s.isLive).symm

end Consistent

theorem stats_conflicts (s : IndexState) :
    s.stats.conflicts = Index.total (fun uri => (s.conflicts uri).length) s.uris := by
  simp only [stats, stored, uris, List.map_map, Index.total_map]
  refine Index.total_congr ?_
  rintro ⟨uri, slot⟩ hm
  have hslot : s.slots[uri]? = some slot := ExtTreeMap.mem_toList_iff_getElem?_eq_some.mp hm
  simp [conflicts, file?, hslot]

end IndexState

namespace Repository

theorem forall_mem_files_run {P : File → Prop} {ms : List Mutation}
    (h : ∀ m ∈ ms, ∀ f ∈ m.files, P f) : ∀ f ∈ (empty.run ms).state.files, P f := by
  intro f hf
  rw [files_run_empty] at hf
  rcases FileList.mem_run hf with ⟨m, hm, hfile⟩ | hnil
  · exact h m hm f hfile
  · cases hnil

theorem one_live_definition_per_name (ms : List Mutation)
    (hfiles : ∀ m ∈ ms, ∀ f ∈ m.files, f.Orderly) :
    let s := (empty.run ms).state
    (∀ fqn, s.liveDefinitions.filter (·.fqn == fqn) = (s.definition? fqn).toList ∧
        ((s.definition? fqn).isSome = true ↔ ∃ f ∈ s.files, ∃ d ∈ f.definitions, d.fqn = fqn)) ∧
      s.stats.definitions = s.liveDefinitions.length ∧
      (∀ f ∈ s.files, ∀ d ∈ f.definitions,
        (d ∈ s.liveDefinitions ↔ d.fqn ∉ s.conflicts f.uri)) ∧
      s.stats.conflicts = Index.total (fun uri => (s.conflicts uri).length) s.uris ∧
      s.stats.definitions + s.stats.conflicts =
        Index.total (fun f => f.definitions.length) s.files := by
  intro s
  have h : s.Consistent := consistent_run_empty ms
  have ho : ∀ f ∈ s.files, f.Orderly := forall_mem_files_run hfiles
  refine ⟨fun fqn => ⟨h.filter_liveDefinitions ho fqn, ?_⟩, h.stats_definitions ho, ?_,
    s.stats_conflicts, h.stats_definitions_add_conflicts ho⟩
  · simpa [IndexState.declaredNames] using h.definition?_isSome_iff fqn
  · intro f hf d hd
    rw [h.mem_conflicts_iff (ho f hf) hf hd, Bool.not_eq_false, IndexState.mem_liveDefinitions]
    constructor
    · rintro ⟨g, -, -, hlive⟩
      exact hlive
    · exact fun hlive => ⟨f, hf, hd, hlive⟩

def doubledHistory : List Mutation :=
  [.upsert (collect Collect.twoNamespaces "" 0),
   .upsert (.outline "file:///b.php" ["g()", "B\\f()"] []),
   .restore ⟨snapshotVersion, [.outline "file:///b.php" ["g()", "B\\f()"] [],
     collect Collect.twoNamespaces "" 0]⟩]

theorem one_live_definition_per_name_restored :
    let s := (empty.run doubledHistory).state
    (∀ m ∈ doubledHistory, ∀ f ∈ m.files, f.Orderly) ∧
      (s.liveDefinitions.filter (·.fqn == "B\\f()")).map Definition.uri = ["file:///b.php"] ∧
      s.stats.definitions + s.stats.conflicts = 3 := by
  intro s
  have hfiles : ∀ m ∈ doubledHistory, ∀ f ∈ m.files, f.Orderly := by
    have hcollected := Collect.collect_orderly Collect.twoNamespaces "" 0
    have houtline : (File.outline "file:///b.php" ["g()", "B\\f()"] []).Orderly := by decide
    simp [doubledHistory, Mutation.files, hcollected, houtline]
  obtain ⟨hrows, -, -, -, hsum⟩ := one_live_definition_per_name doubledHistory hfiles
  refine ⟨hfiles, ?_, ?_⟩
  · rw [(hrows "B\\f()").1, (consistent_run_empty doubledHistory).definition?_eq, files_run_empty]
    decide +kernel
  · rw [hsum, files_run_empty]
    decide +kernel

end Repository

end SemanticIndex
