import SemanticIndex.Proofs.Sweep.Rest

namespace SemanticIndex.Sweep

variable {ε : Type} {services : Services ε} {limit : Nat} {x y z : Indexer} {uri : String}
  {found again : List String} {s s' : State ε} {outcome : Except ε Outcome}

def Sweeps (services : Services ε) (limit : Nat) (x : Indexer) (found : List String)
    (swept : Indexer.Swept ε) : Prop :=
  ∃ actions s, run? services limit (begin x found) actions = some s ∧ s.Finished ∧
    conclude s = swept

structure Settling (services : Services ε) (x : Indexer) (s : State ε) : Prop where
  documents : SameTexts services x s.indexer
  knows : ∀ p ∈ s.running, Knows services s.indexer p.1 p.2
  rests : ∀ o ∈ s.outcomes, AtRest services s.indexer o.1 (calm o.2)

theorem SameTexts.trans (h : SameTexts services x y) (h' : SameTexts services y z) :
    SameTexts services x z :=
  ⟨h'.faithful, fun u => (h'.texts u).trans (h.texts u)⟩

theorem settling_begin (hd : x.documents.Faithful services) :
    Settling services x (begin x found) where
  documents := ⟨hd, fun _ => rfl⟩
  knows p hp := by simp [begin] at hp
  rests o ho := by simp [begin] at ho

theorem Settling.step
    (hlabel : ∀ uri text tree, services.parse uri text = .ok tree → tree.uri = uri)
    (h : Settling services x s) (hs : Step services limit s s') : Settling services x s' := by
  cases hs with
  | start =>
    refine ⟨h.documents, fun p hp => ?_, h.rests⟩
    rcases List.mem_append.mp hp with hp | hp
    · exact h.knows p hp
    · rw [List.mem_singleton.mp hp]
      trivial
  | @goOn y z waiting front rest uri phase next outcomes hwork =>
    have hk := h.knows (uri, phase) (by simp)
    obtain ⟨hnext, hr, hd⟩ := knows_of_goesOn h.documents.faithful hk hwork
    have ho := onward_of_repository_eq hd hr
    refine ⟨h.documents.trans hd, fun p hp => ?_, fun o hm => (h.rests o hm).onward ho⟩
    rcases List.mem_append.mp hp with hp | hp
    · exact (h.knows p (List.mem_append_left _ hp)).onward ho
    · rcases List.mem_cons.mp hp with rfl | hp
      · exact hnext
      · exact (h.knows p (List.mem_append_right _ (List.mem_cons_of_mem _ hp))).onward ho
  | @finish y z waiting front rest uri phase outcomes outcome hwork =>
    have hk := h.knows (uri, phase) (by simp)
    obtain ⟨hrest, ho⟩ := atRest_of_ends hlabel h.documents.faithful hk hwork
    refine ⟨h.documents.trans ho.documents, fun p hp => ?_, fun o hm => ?_⟩
    · rcases List.mem_append.mp hp with hp | hp
      · exact (h.knows p (List.mem_append_left _ hp)).onward ho
      · exact (h.knows p (List.mem_append_right _ (List.mem_cons_of_mem _ hp))).onward ho
    · rcases List.mem_append.mp hm with hm | hm
      · exact (h.rests o hm).onward ho
      · rw [List.mem_singleton.mp hm]
        exact hrest

theorem settling_run?
    (hlabel : ∀ uri text tree, services.parse uri text = .ok tree → tree.uri = uri)
    (hd : x.documents.Faithful services) {actions : List Action}
    (h : run? services limit (begin x found) actions = some s) : Settling services x s :=
  run?_induction (fun hstep ht => ht.step hlabel hstep) (settling_begin hd) h

theorem documents_removeAll (x : Indexer) (uris : List String) :
    (x.removeAll uris).documents = x.documents := by
  induction uris generalizing x with
  | nil => rfl
  | cons uri uris ih => exact ih (x.remove uri)

theorem documents_conclude (s : State ε) : (conclude s).indexer.documents = s.indexer.documents :=
  documents_removeAll _ _

theorem Settling.atRest_conclude (h : Settling services x s) {o : String × Except ε Outcome}
    (ho : o ∈ s.outcomes) : AtRest services (conclude s).indexer o.1 (calm o.2) := by
  refine (h.rests o ho).congr (documents_conclude s) (view_conclude fun hstale => ?_)
  exact (mem_stale.mp hstale).2.1 (List.mem_map_of_mem ho)

theorem stale_conclude (s : State ε) {names : List String}
    (hnames : ∀ u, u ∈ names ↔ u ∈ s.outcomes.map Prod.fst) :
    (conclude s).indexer.stale names = [] := by
  refine List.eq_nil_iff_forall_not_mem.mpr fun u hu => ?_
  obtain ⟨hstored, hnew, hclosed⟩ := mem_stale.mp hu
  by_cases hstale : u ∈ s.indexer.stale (s.outcomes.map Prod.fst)
  · rw [file?_conclude hstale] at hstored
    cases hstored
  · have hfile : (conclude s).indexer.repository.state.file? u =
        s.indexer.repository.state.file? u := congrArg Prod.fst (view_conclude hstale)
    rw [hfile] at hstored
    rw [documents_conclude] at hclosed
    exact hstale (mem_stale.mpr ⟨hstored, mt (hnames u).mpr hnew, hclosed⟩)

def Resting (services : Services ε) (y : Indexer) (uri : String) (outcome : Except ε Outcome) :
    Phase → Prop
  | .queued => True
  | .loaded text => services.accepts uri = true ∧ y.source services uri = .ok text
  | .matching => outcome = .ok .unchanged
  | .differing text => y.source services uri = .ok text ∧
      ∃ e, services.parse uri text = .error e ∧ outcome = .error e
  | .parsed _ _ => False

theorem work_of_atRest {phase : Phase} (hf : y.documents.Faithful services)
    (h : AtRest services y uri outcome) (hp : Resting services y uri outcome phase) :
    work services y uri phase = (.ends outcome, y) ∨
      ∃ next, work services y uri phase = (.goesOn next, y) ∧
        Resting services y uri outcome next := by
  cases phase with
  | queued =>
    cases h with
    | skipped ha => exact .inl (by simp [work, ha])
    | unreadable ha hs => exact .inl (by simp [work, ha, hs])
    | unparsable ha hs | unchanged ha hs =>
      exact .inr ⟨.loaded _, by simp [work, ha, hs], ha, hs⟩
  | loaded text =>
    obtain ⟨ha, hs⟩ := hp
    cases h with
    | skipped ha' =>
      rw [ha] at ha'
      cases ha'
    | unreadable _ hs' =>
      rw [hs] at hs'
      cases hs'
    | unparsable _ hs' hparse hc =>
      obtain rfl := Except.ok.inj (hs.symm.trans hs')
      exact .inr ⟨.differing text, by simp [work, hc], hs, _, hparse, rfl⟩
    | unchanged _ hs' hc =>
      obtain rfl := Except.ok.inj (hs.symm.trans hs')
      exact .inr ⟨.matching, by simp [work, hc], rfl⟩
  | matching =>
    obtain rfl : outcome = .ok .unchanged := hp
    obtain _ | _ | _ | ⟨_, _, _, hv⟩ := h
    refine .inl ?_
    simp only [work, Repository.markVerified, IndexState.markVerified_of_isVerified hv]
  | differing text =>
    obtain ⟨hs, e, hparse, rfl⟩ := hp
    exact .inl (by simp only [work, Indexer.tree_error hf hs hparse])
  | parsed tree digest => cases hp

structure Idle (services : Services ε) (z : Indexer) (s : State ε) : Prop where
  indexer : s.indexer = z
  waiting : ∀ uri ∈ s.waiting, ∃ o, AtRest services z uri o
  running : ∀ p ∈ s.running, ∃ o, AtRest services z p.1 o ∧ Resting services z p.1 o p.2
  outcomes : ∀ o ∈ s.outcomes, AtRest services z o.1 o.2

theorem Idle.step (hf : z.documents.Faithful services) (h : Idle services z s)
    (hs : Step services limit s s') : Idle services z s' := by
  cases hs with
  | @start y uri rest running outcomes hroom =>
    refine ⟨h.indexer, fun u hu => h.waiting u (List.mem_cons_of_mem _ hu), fun p hp => ?_,
      h.outcomes⟩
    rcases List.mem_append.mp hp with hp | hp
    · exact h.running p hp
    · rw [List.mem_singleton.mp hp]
      obtain ⟨o, ho⟩ := h.waiting uri List.mem_cons_self
      exact ⟨o, ho, trivial⟩
  | @goOn y y' waiting front rest uri phase next outcomes hwork =>
    obtain rfl : y = z := h.indexer
    obtain ⟨o, ho, hp⟩ := h.running (uri, phase) (by simp)
    rcases work_of_atRest hf ho hp with hends | ⟨next', hgoes, hp'⟩
    · cases hends.symm.trans hwork
    · cases hgoes.symm.trans hwork
      refine ⟨rfl, h.waiting, fun p hp => ?_, h.outcomes⟩
      rcases List.mem_append.mp hp with hp | hp
      · exact h.running p (List.mem_append_left _ hp)
      · rcases List.mem_cons.mp hp with rfl | hp
        · exact ⟨o, ho, hp'⟩
        · exact h.running p (List.mem_append_right _ (List.mem_cons_of_mem _ hp))
  | @finish y y' waiting front rest uri phase outcomes outcome hwork =>
    obtain rfl : y = z := h.indexer
    obtain ⟨o, ho, hp⟩ := h.running (uri, phase) (by simp)
    rcases work_of_atRest hf ho hp with hends | ⟨next', hgoes, -⟩
    · cases hends.symm.trans hwork
      refine ⟨rfl, h.waiting, fun p hp => ?_, fun r hr => ?_⟩
      · rcases List.mem_append.mp hp with hp | hp
        · exact h.running p (List.mem_append_left _ hp)
        · exact h.running p (List.mem_append_right _ (List.mem_cons_of_mem _ hp))
      · rcases List.mem_append.mp hr with hr | hr
        · exact h.outcomes r hr
        · rw [List.mem_singleton.mp hr]
          exact ho
    · cases hgoes.symm.trans hwork

theorem begin_of_complete (h : z.repository.status = .complete) :
    (begin z found : State ε) = ⟨z, found, [], []⟩ := by
  simp [begin, Repository.beginIndexing, h]

theorem conclude_of_complete (h : s.indexer.repository.status = .complete)
    (hstale : s.indexer.stale (s.outcomes.map Prod.fst) = []) :
    conclude s = ⟨s.outcomes, Indexer.reportOf s.outcomes 0, s.indexer⟩ := by
  simp [conclude, hstale, Indexer.removeAll, Repository.markComplete, h]

theorem idle_run? (hf : z.documents.Faithful services) (hc : z.repository.status = .complete)
    (hrest : ∀ uri ∈ found, ∃ o, AtRest services z uri o) {actions : List Action}
    (h : run? services limit (begin z found) actions = some s) : Idle services z s := by
  rw [begin_of_complete hc] at h
  refine run?_induction (fun hstep ht => ht.step hf hstep) ?_ h
  exact ⟨rfl, hrest, fun p hp => by simp at hp, fun o ho => by simp at ho⟩

theorem nodup_eraseDups (names : List String) : names.eraseDups.Nodup := by
  induction hn : names.length using Nat.strongRecOn generalizing names with
  | ind n ih =>
    cases names with
    | nil => exact List.nodup_nil
    | cons name names =>
      have hle := List.length_filter_le (fun b => !b == name) names
      rw [List.length_cons] at hn
      rw [List.eraseDups_cons, List.nodup_cons]
      exact ⟨by simp [List.mem_eraseDups], ih _ (by omega) _ rfl⟩

theorem length_eraseDups_perm {names others : List String} (h : names.Perm others) :
    names.eraseDups.length = others.eraseDups.length := by
  refine ((List.perm_ext_iff_of_nodup (nodup_eraseDups _) (nodup_eraseDups _)).mpr ?_).length_eq
  simp [List.mem_eraseDups, h.mem_iff]

theorem countP_outcomes (services : Services ε) (kind : Except ε Outcome → Bool) (z : Indexer)
    {outcomes : List (String × Except ε Outcome)}
    (h : ∀ o ∈ outcomes, kind o.2 = kind (z.index services o.1).1) :
    outcomes.countP (fun o => kind o.2) =
      (outcomes.map Prod.fst).countP fun u => kind (z.index services u).1 := by
  rw [List.countP_map]
  refine List.countP_congr fun o ho => ?_
  rw [h o ho]
  rfl

theorem AtRest.isIndexed (h : AtRest services y uri outcome) :
    Indexer.isIndexed outcome = false := by
  cases h <;> rfl

theorem sweeps_sweep (services : Services ε) (limit : Nat) (x : Indexer) (found : List String) :
    Sweeps services limit x found (x.sweep services found) :=
  exists_run?_sweep x services limit found

section Twice

variable {t : State ε}

theorem Settling.exists_atRest (h : Settling services x s)
    (hfound : ∀ u ∈ found, u ∈ s.outcomes.map Prod.fst) :
    ∀ u ∈ found, ∃ o, AtRest services (conclude s).indexer u o := by
  intro u hu
  obtain ⟨o, ho, rfl⟩ := List.mem_map.mp (hfound u hu)
  exact ⟨calm o.2, h.atRest_conclude ho⟩

theorem Idle.conclude_eq (h : Idle services (conclude s).indexer t)
    (hnames : (t.outcomes.map Prod.fst).Perm (s.outcomes.map Prod.fst)) :
    conclude t = ⟨t.outcomes, Indexer.reportOf t.outcomes 0, (conclude s).indexer⟩ := by
  have hstatus : t.indexer.repository.status = .complete := by
    rw [h.indexer]
    exact Repository.status_markComplete _
  have hstale : t.indexer.stale (t.outcomes.map Prod.fst) = [] := by
    rw [h.indexer]
    exact stale_conclude s fun u => hnames.mem_iff
  rw [conclude_of_complete hstatus hstale, h.indexer]

theorem countP_eq_of_idle (hs : Settling services x s)
    (ht : Idle services (conclude s).indexer t)
    (hnames : (t.outcomes.map Prod.fst).Perm (s.outcomes.map Prod.fst))
    (kind : Except ε Outcome → Bool) (hkind : ∀ o, kind (calm o) = kind o) :
    t.outcomes.countP (fun o => kind o.2) = s.outcomes.countP fun o => kind o.2 := by
  have hf : (conclude s).indexer.documents.Faithful services := by
    rw [documents_conclude]
    exact hs.documents.faithful
  rw [countP_outcomes services kind (conclude s).indexer fun o ho => ?_,
    countP_outcomes services kind (conclude s).indexer fun o ho => ?_,
    hnames.countP_eq]
  · rw [(hs.atRest_conclude ho).index_eq hf, hkind]
  · rw [(ht.outcomes o ho).index_eq hf]

end Twice

theorem sweep_again_changes_nothing (services : Services ε) (limit : Nat) (r : Repository)
    (edits : List Edit) {found again : List String}
    (hlabel : ∀ uri text tree, services.parse uri text = .ok tree → tree.uri = uri)
    (hagain : again.Perm found) :
    let x : Indexer := ⟨r, edits.foldl (Documents.edit services) Documents.empty⟩
    Sweeps services limit x found (x.sweep services found) ∧
      ∀ first, Sweeps services limit x found first →
        Sweeps services limit first.indexer again (first.indexer.sweep services again) ∧
          ∀ second, Sweeps services limit first.indexer again second →
            second.report.indexed = 0 ∧ second.report.removed = 0 ∧
              second.report.discovered = first.report.discovered ∧
              second.report.skipped = first.report.skipped ∧
              second.report.failed = first.report.failed ∧
              second.indexer = first.indexer := by
  intro x
  have hd : x.documents.Faithful services := Documents.faithful_edits services edits
  refine ⟨sweeps_sweep services limit x found, ?_⟩
  rintro first ⟨actions, s, hrun, hfinished, rfl⟩
  refine ⟨sweeps_sweep services limit _ again, ?_⟩
  rintro second ⟨actions', t, hrun', hfinished', rfl⟩
  have hs : Settling services x s := settling_run? hlabel hd hrun
  have hnames := perm_outcomes_of_run? hrun hfinished
  have hnames' := ((perm_outcomes_of_run? hrun' hfinished').trans hagain).trans hnames.symm
  have hf : (conclude s).indexer.documents.Faithful services := by
    rw [documents_conclude]
    exact hs.documents.faithful
  have hrest : ∀ u ∈ again, ∃ o, AtRest services (conclude s).indexer u o :=
    hs.exists_atRest fun u hu => hnames.mem_iff.mpr (hagain.mem_iff.mp hu)
  have ht : Idle services (conclude s).indexer t :=
    idle_run? hf (Repository.status_markComplete _) hrest hrun'
  rw [ht.conclude_eq hnames']
  refine ⟨?_, rfl, length_eraseDups_perm hnames', ?_, ?_, rfl⟩
  · refine List.countP_eq_zero.mpr fun o ho => ?_
    simp [(ht.outcomes o ho).isIndexed]
  · exact countP_eq_of_idle hs ht hnames' _ isSkipped_calm
  · exact countP_eq_of_idle hs ht hnames' _ isFailed_calm

theorem sweep_again_changes_nothing_restored :
    let kept := [wordRecord "file:///a.php" "old", wordRecord "file:///b.php" "same",
      wordRecord "file:///g.php" "gone", wordRecord "file:///m.php" "lost",
      wordRecord "file:///o.php" "open"]
    let found := ["file:///a.php", "file:///b.php", "file:///m.php", "file:///s.txt"]
    let x : Indexer := ⟨Repository.empty.run [.restore ⟨snapshotVersion, kept⟩],
      [Edit.put "file:///o.php" 1 "edited"].foldl (Documents.edit wordServices) Documents.empty⟩
    let first := x.sweep wordServices found
    let second := first.indexer.sweep wordServices found.reverse
    first.report = ⟨4, 1, 1, 1, 1, 1⟩ ∧ second.report.indexed = 0 ∧
      second.report.unchanged = 2 ∧ second.report.skipped = 1 ∧ second.report.failed = 1 ∧
      second.report.removed = 0 ∧ second.indexer = first.indexer ∧
      first.indexer.repository.state.unverified.toList = ["file:///m.php", "file:///o.php"] := by
  intro kept found x first second
  have hfirst : first.report = ⟨4, 1, 1, 1, 1, 1⟩ := by decide +kernel
  have hunverified : first.indexer.repository.state.unverified.toList =
      ["file:///m.php", "file:///o.php"] := by decide +kernel
  have hlabel : ∀ uri text tree, wordServices.parse uri text = .ok tree → tree.uri = uri := by
    rintro uri text tree hp
    cases hp
    rfl
  obtain ⟨hsweep, hall⟩ := sweep_again_changes_nothing wordServices 2
    (Repository.empty.run [.restore ⟨snapshotVersion, kept⟩])
    [Edit.put "file:///o.php" 1 "edited"] hlabel found.reverse_perm
  obtain ⟨hagain, hsecond⟩ := hall first hsweep
  obtain ⟨hindexed, hremoved, -, hskipped, hfailed, hsame⟩ := hsecond second hagain
  have hunchanged : second.report.unchanged = 2 := by decide +kernel
  rw [hfirst] at hskipped hfailed
  exact ⟨hfirst, hindexed, hunchanged, hskipped, hfailed, hremoved, hsame, hunverified⟩

end SemanticIndex.Sweep
