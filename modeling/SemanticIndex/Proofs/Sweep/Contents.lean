import SemanticIndex.Proofs.Index.Refinement
import SemanticIndex.Proofs.Sweep.Tasks

namespace SemanticIndex.Sweep

variable {ε : Type} {services : Services ε} {limit : Nat} {x y : Indexer} {uri : String}
  {found : List String} {s : State ε}

def Readable (services : Services ε) (x : Indexer) (uri : String) : Prop :=
  x.documents.isOpen uri = true ∨ ∃ text, services.read uri = .ok text

theorem readable_iff : Readable services x uri ↔ ∃ text, x.source services uri = .ok text := by
  rw [Readable, Documents.isOpen_eq, Indexer.source_eq]
  cases x.documents.text? uri <;> simp

theorem Settled.fresh_or_untouched {outcome : Except ε Outcome}
    (h : Settled services x y uri outcome) :
    (services.accepts uri = true ∧ ∃ text, x.source services uri = .ok text ∧
        Fresh services y uri text) ∨
      (¬(services.accepts uri = true ∧ Readable services x uri) ∧
        y.repository.state.view uri = x.repository.state.view uri) := by
  cases outcome with
  | error e =>
    refine .inr ⟨fun hc => ?_, h.2.2⟩
    obtain ⟨text, hs⟩ := readable_iff.mp hc.2
    rw [h.2.1] at hs
    cases hs
  | ok o =>
    cases o with
    | skipped => exact .inr ⟨by simp [h.1], h.2⟩
    | unchanged | indexed _ _ => exact .inl h

theorem mem_stale {names : List String} : uri ∈ y.stale names ↔
    (y.repository.state.file? uri).isSome = true ∧ uri ∉ names ∧
      y.documents.isOpen uri = false := by
  simp [Indexer.stale, List.mem_filter, IndexState.mem_uris]

theorem state_conclude (s : State ε) : (conclude s).indexer.repository.state =
    (s.indexer.removeAll (s.indexer.stale (s.outcomes.map Prod.fst))).repository.state :=
  Repository.state_markComplete _

theorem view_conclude (h : uri ∉ s.indexer.stale (s.outcomes.map Prod.fst)) :
    (conclude s).indexer.repository.state.view uri = s.indexer.repository.state.view uri := by
  rw [state_conclude, Indexer.view_removeAll h]

theorem file?_conclude (h : uri ∈ s.indexer.stale (s.outcomes.map Prod.fst)) :
    (conclude s).indexer.repository.state.file? uri = none := by
  rw [state_conclude, Indexer.file?_removeAll h]

theorem Going.perm_outcomes (h : Going services x found s) (hf : s.Finished) :
    (s.outcomes.map Prod.fst).Perm found := by
  simpa [hf.1, hf.2] using h.uris

theorem Going.isOpen_eq (h : Going services x found s) (uri : String) :
    s.indexer.documents.isOpen uri = x.documents.isOpen uri := by
  rw [Documents.isOpen_eq, Documents.isOpen_eq, h.documents.texts]

theorem Going.found_conclude (h : Going services x found s) (hf : s.Finished) (hu : uri ∈ found) :
    (services.accepts uri = true ∧ ∃ text, x.source services uri = .ok text ∧
        Fresh services (conclude s).indexer uri text) ∨
      (¬(services.accepts uri = true ∧ Readable services x uri) ∧
        (conclude s).indexer.repository.state.view uri = x.repository.state.view uri) := by
  have hmem := (h.perm_outcomes hf).mem_iff.mpr hu
  have hview : (conclude s).indexer.repository.state.view uri =
      s.indexer.repository.state.view uri :=
    view_conclude fun hstale => (mem_stale.mp hstale).2.1 hmem
  obtain ⟨o, ho, rfl⟩ := List.mem_map.mp hmem
  exact ((h.settled o ho).congr hview).fresh_or_untouched

theorem Going.open_conclude (h : Going services x found s) (hf : s.Finished) (hu : uri ∉ found)
    (ho : x.documents.isOpen uri = true) :
    (conclude s).indexer.repository.state.view uri = x.repository.state.view uri := by
  have hmem : uri ∉ s.outcomes.map Prod.fst := mt (h.perm_outcomes hf).mem_iff.mp hu
  have hkept : uri ∉ s.indexer.stale (s.outcomes.map Prod.fst) := by
    rw [mem_stale, h.isOpen_eq, ho]
    simp
  exact (view_conclude hkept).trans (h.untouched uri hmem)

theorem Going.gone_conclude (h : Going services x found s) (hf : s.Finished) (hu : uri ∉ found)
    (ho : x.documents.isOpen uri = false) :
    (conclude s).indexer.repository.state.file? uri = none := by
  have hmem : uri ∉ s.outcomes.map Prod.fst := mt (h.perm_outcomes hf).mem_iff.mp hu
  by_cases hstale : uri ∈ s.indexer.stale (s.outcomes.map Prod.fst)
  · exact file?_conclude hstale
  · have hfile : (conclude s).indexer.repository.state.file? uri =
        s.indexer.repository.state.file? uri := congrArg Prod.fst (view_conclude hstale)
    rw [mem_stale, h.isOpen_eq, ho] at hstale
    rw [hfile]
    simpa [hmem] using hstale

theorem eraseDups_of_nodup {names : List String} (h : names.Nodup) : names.eraseDups = names := by
  induction names with
  | nil => rfl
  | cons name names ih =>
    obtain ⟨hnew, hrest⟩ := List.nodup_cons.mp h
    have hfilter : names.filter (fun b => !b == name) = names := by
      refine List.filter_eq_self.mpr fun b hb => ?_
      simpa using fun he : b = name => hnew (he ▸ hb)
    rw [List.eraseDups_cons, hfilter, ih hrest]

theorem length_outcomes (outcomes : List (String × Except ε Outcome)) (removed : Nat) :
    let report := Indexer.reportOf outcomes removed
    outcomes.length = report.indexed + report.unchanged + report.skipped + report.failed := by
  induction outcomes with
  | nil => rfl
  | cons o outcomes ih =>
    obtain ⟨uri, outcome⟩ := o
    have hone : (if Indexer.isIndexed outcome then 1 else 0) +
        (if Indexer.isUnchanged outcome then 1 else 0) +
        (if Indexer.isSkipped outcome then 1 else 0) +
        (if Indexer.isFailed outcome then 1 else 0) = 1 := by
      rcases outcome with e | (_ | _ | _) <;> rfl
    simp only [Indexer.reportOf, List.countP_cons, List.length_cons] at ih ⊢
    omega

theorem Going.length_stale (h : Going services x found s) (hf : s.Finished) :
    (s.indexer.stale (s.outcomes.map Prod.fst)).length = (x.stale found).length := by
  have hnodup (y : Indexer) (names : List String) : (y.stale names).Nodup :=
    y.repository.state.nodup_uris.filter _
  refine ((List.perm_ext_iff_of_nodup (hnodup _ _) (hnodup _ _)).mpr fun uri => ?_).length_eq
  rw [mem_stale, mem_stale, (h.perm_outcomes hf).mem_iff, h.isOpen_eq]
  refine and_congr_left fun hu => ?_
  have hview := h.untouched uri (mt (h.perm_outcomes hf).mem_iff.mp hu.1)
  rw [show s.indexer.repository.state.file? uri = x.repository.state.file? uri from
    congrArg Prod.fst hview]

structure UpToDate (services : Services ε) (x : Indexer) (found : List String)
    (swept : Indexer.Swept ε) : Prop where
  stored_iff : ∀ uri, swept.indexer.repository.state.contains uri = true ↔
    (uri ∈ found ∧ services.accepts uri = true ∧ Readable services x uri) ∨
    (uri ∈ found ∧ ¬(services.accepts uri = true ∧ Readable services x uri) ∧
      x.repository.state.contains uri = true) ∨
    (uri ∉ found ∧ x.documents.isOpen uri = true ∧ x.repository.state.contains uri = true)
  fresh : ∀ uri ∈ found, services.accepts uri = true → Readable services x uri →
    ∃ text tree f, x.source services uri = .ok text ∧ services.parse uri text = .ok tree ∧
      swept.indexer.repository.state.file? uri = some f ∧ f.body = (collect tree "" 0).body ∧
      swept.indexer.repository.state.isVerified uri = true
  untouched : ∀ uri,
    (uri ∈ found ∧ ¬(services.accepts uri = true ∧ Readable services x uri)) ∨
      (uri ∉ found ∧ x.documents.isOpen uri = true) →
    swept.indexer.repository.state.file? uri = x.repository.state.file? uri ∧
      swept.indexer.repository.state.isVerified uri = x.repository.state.isVerified uri
  complete : swept.indexer.repository.status = .complete
  discovered : swept.report.discovered = found.length
  counts : swept.report.discovered = swept.report.indexed + swept.report.unchanged +
    swept.report.skipped + swept.report.failed
  removed : swept.report.removed = (x.stale found).length

theorem Going.contains_conclude (h : Going services x found s) (hf : s.Finished) (uri : String) :
    (conclude s).indexer.repository.state.contains uri = true ↔
      (uri ∈ found ∧ services.accepts uri = true ∧ Readable services x uri) ∨
      (uri ∈ found ∧ ¬(services.accepts uri = true ∧ Readable services x uri) ∧
        x.repository.state.contains uri = true) ∨
      (uri ∉ found ∧ x.documents.isOpen uri = true ∧ x.repository.state.contains uri = true) := by
  rw [IndexState.contains_eq, IndexState.contains_eq]
  by_cases hu : uri ∈ found
  · rcases h.found_conclude hf hu with ⟨ha, text, hs, f, tree, hview, -⟩ | ⟨hno, hview⟩
    · have hfile : (conclude s).indexer.repository.state.file? uri = some f :=
        congrArg Prod.fst hview
      simp [hfile, hu, ha, readable_iff.mpr ⟨text, hs⟩]
    · have hfile : (conclude s).indexer.repository.state.file? uri =
          x.repository.state.file? uri := congrArg Prod.fst hview
      simp [hfile, hu, hno]
  · cases ho : x.documents.isOpen uri with
    | true =>
      have hfile : (conclude s).indexer.repository.state.file? uri =
          x.repository.state.file? uri := congrArg Prod.fst (h.open_conclude hf hu ho)
      simp [hfile, hu]
    | false => simp [h.gone_conclude hf hu ho, hu]

theorem Going.discovered_eq (h : Going services x found s) (hfound : found.Nodup)
    (hf : s.Finished) : (conclude s).report.discovered = found.length := by
  have hperm := h.perm_outcomes hf
  have hdups := eraseDups_of_nodup (hperm.nodup_iff.mpr hfound)
  exact (congrArg List.length hdups).trans hperm.length_eq

theorem Going.upToDate (h : Going services x found s) (hfound : found.Nodup) (hf : s.Finished) :
    UpToDate services x found (conclude s) where
  stored_iff := h.contains_conclude hf
  fresh uri hu ha hr := by
    rcases h.found_conclude hf hu with ⟨-, text, hs, f, tree, hview, hp, -, hbody⟩ | ⟨hno, -⟩
    · exact ⟨text, tree, f, hs, hp, congrArg Prod.fst hview, hbody, congrArg Prod.snd hview⟩
    · exact absurd ⟨ha, hr⟩ hno
  untouched uri hu := by
    have hview : (conclude s).indexer.repository.state.view uri = x.repository.state.view uri := by
      rcases hu with ⟨hu, hno⟩ | ⟨hu, ho⟩
      · rcases h.found_conclude hf hu with ⟨ha, text, hs, -⟩ | ⟨-, hview⟩
        · exact absurd ⟨ha, readable_iff.mpr ⟨text, hs⟩⟩ hno
        · exact hview
      · exact h.open_conclude hf hu ho
    exact ⟨congrArg Prod.fst hview, congrArg Prod.snd hview⟩
  complete := Repository.status_markComplete _
  discovered := h.discovered_eq hfound hf
  counts := by
    rw [h.discovered_eq hfound hf, ← (h.perm_outcomes hf).length_eq, List.length_map]
    exact length_outcomes s.outcomes _
  removed := h.length_stale hf

theorem sound_run {ms : List Mutation} {d : Documents}
    (hdigest : Function.Injective services.digest)
    (hparse : ∀ uri text, ∃ tree, services.parse uri text = .ok tree ∧ tree.uri = uri)
    (hcert : ∀ f ∈ (Repository.empty.run ms).state.files, Certified services f) :
    Sound services ⟨Repository.empty.run ms, d⟩ where
  digest_injective := hdigest
  parse_ok := hparse
  certified {uri f} hf := by
    have hc := Repository.consistent_run_empty ms
    obtain rfl := hc.uri_of_file? hf
    exact ⟨rfl, hcert f (hc.mem_files.mpr hf)⟩

theorem sweep_brings_up_to_date (services : Services ε) (found : List String)
    (ms : List Mutation) (edits : List Edit) (limit : Nat)
    (hdigest : Function.Injective services.digest)
    (hparse : ∀ uri text, ∃ tree, services.parse uri text = .ok tree ∧ tree.uri = uri)
    (hfound : found.Nodup)
    (hcert : ∀ f ∈ (Repository.empty.run ms).state.files, Certified services f) :
    let x : Indexer :=
      ⟨Repository.empty.run ms, edits.foldl (Documents.edit services) Documents.empty⟩
    (∃ actions s, run? services limit (begin x found) actions = some s ∧ s.Finished ∧
        conclude s = x.sweep services found) ∧
      ∀ actions s, run? services limit (begin x found) actions = some s →
        actions.length ≤ 5 * found.length ∧
          (s.Finished ∨ ∃ a s', step? services limit s a = some s') ∧
          (s.Finished → UpToDate services x found (conclude s)) := by
  intro x
  have hx : Sound services x := sound_run hdigest hparse hcert
  have hd : x.documents.Faithful services := Documents.faithful_edits services edits
  refine ⟨exists_run?_sweep x services limit found, fun actions s h => ⟨?_, ?_, fun hf => ?_⟩⟩
  · simpa [begin, State.left] using length_le_left h
  · by_cases hf : s.Finished
    · exact .inl hf
    · exact .inr (exists_step? hf)
  · exact (going_run? hx hd hfound h).upToDate hfound hf

def wordTree (uri text : String) : Tree :=
  let n := Text.byteLength text.toList
  .ofNodes uri text
    [(.program, none, 0, n, none), (.functionDefinition, none, 0, n, some 0),
     (.name, some .name, 0, n, some 1)]

def wordServices : Services String where
  accepts uri := uri != "file:///s.txt"
  parse uri text := .ok (wordTree uri text)
  read uri :=
    match uri with
    | "file:///a.php" => .ok "new"
    | "file:///b.php" => .ok "same"
    | _ => .error "missing"
  digest := id

def wordRecord (uri text : String) : File := collect (wordTree uri text) text 7

theorem sweep_brings_up_to_date_out_of_order :
    let kept := [wordRecord "file:///a.php" "old", wordRecord "file:///b.php" "same",
      wordRecord "file:///g.php" "gone", wordRecord "file:///m.php" "lost",
      wordRecord "file:///o.php" "open"]
    let ms : List Mutation := [.restore ⟨snapshotVersion, kept⟩]
    let found := ["file:///a.php", "file:///b.php", "file:///m.php", "file:///s.txt"]
    let edits : List Edit := [.put "file:///o.php" 1 "edited"]
    let x : Indexer :=
      ⟨Repository.empty.run ms, edits.foldl (Documents.edit wordServices) Documents.empty⟩
    ∃ actions s, run? wordServices 2 (begin x found) actions = some s ∧ s.Finished ∧
      s.outcomes.map Prod.fst =
        ["file:///b.php", "file:///m.php", "file:///s.txt", "file:///a.php"] ∧
      UpToDate wordServices x found (conclude s) ∧
      (conclude s).indexer.repository.state.uris =
        ["file:///a.php", "file:///b.php", "file:///m.php", "file:///o.php"] := by
  intro kept ms found edits x
  let actions : List Action :=
    [.start, .start, .advance 1, .advance 0, .advance 1, .advance 1, .start, .advance 1, .start,
     .advance 1, .advance 0, .advance 0, .advance 0]
  have hrun : (run? wordServices 2 (begin x found) actions).map (fun s =>
      (s.waiting, s.running.length, s.outcomes.map Prod.fst,
        (conclude s).indexer.repository.state.uris)) =
      some ([], 0, ["file:///b.php", "file:///m.php", "file:///s.txt", "file:///a.php"],
        ["file:///a.php", "file:///b.php", "file:///m.php", "file:///o.php"]) := by
    decide +kernel
  obtain ⟨s, hs, hfinal⟩ := Option.map_eq_some_iff.mp hrun
  simp only [Prod.mk.injEq, List.length_eq_zero_iff] at hfinal
  obtain ⟨hwaiting, hrunning, horder, huris⟩ := hfinal
  have hfiles : (Repository.empty.run ms).state.files = kept := by
    rw [Repository.files_run_empty]
    decide +kernel
  have hcert : ∀ f ∈ (Repository.empty.run ms).state.files, Certified wordServices f := by
    have hrecord (uri text : String) : Certified wordServices (wordRecord uri text) :=
      ⟨text, wordTree uri text, rfl, rfl, rfl⟩
    rw [hfiles]
    simp [kept, hrecord]
  have hfinished : s.Finished := ⟨hwaiting, hrunning⟩
  obtain ⟨-, hall⟩ := sweep_brings_up_to_date wordServices found ms edits 2 Function.injective_id
    (fun uri text => ⟨wordTree uri text, rfl, rfl⟩) (by decide) hcert
  exact ⟨actions, s, hs, hfinished, horder, (hall actions s hs).2.2 hfinished, huris⟩

end SemanticIndex.Sweep
