import SemanticIndex.Proofs.Sweep.Interleaving
import SemanticIndex.Proofs.Sweep.Views

namespace SemanticIndex.Sweep

variable {ε : Type} {services : Services ε} {limit : Nat} {x y z : Indexer} {uri : String}

def Certified (services : Services ε) (f : File) : Prop :=
  ∃ text tree, services.parse f.uri text = .ok tree ∧ services.digest text = f.contentHash ∧
    f.body = (collect tree "" 0).body

def Fresh (services : Services ε) (y : Indexer) (uri text : String) : Prop :=
  ∃ f tree, y.repository.state.view uri = (some f, true) ∧ services.parse uri text = .ok tree ∧
    f.contentHash = services.digest text ∧ f.body = (collect tree "" 0).body

def Reached (services : Services ε) (x : Indexer) (uri : String) : Phase → Prop
  | .queued => True
  | .loaded text | .differing text =>
      services.accepts uri = true ∧ x.source services uri = .ok text
  | .matching => services.accepts uri = true ∧ ∃ text, x.source services uri = .ok text ∧
      x.isCurrent uri (services.digest text) = true
  | .parsed tree digest => services.accepts uri = true ∧ ∃ text,
      x.source services uri = .ok text ∧ services.parse uri text = .ok tree ∧
      digest = services.digest text

def Settled (services : Services ε) (x y : Indexer) (uri : String) : Except ε Outcome → Prop
  | .ok .skipped => services.accepts uri = false ∧
      y.repository.state.view uri = x.repository.state.view uri
  | .error e => services.accepts uri = true ∧ x.source services uri = .error e ∧
      y.repository.state.view uri = x.repository.state.view uri
  | .ok (.indexed _ _) | .ok .unchanged => services.accepts uri = true ∧
      ∃ text, x.source services uri = .ok text ∧ Fresh services y uri text

theorem Settled.congr {outcome : Except ε Outcome} (h : Settled services x y uri outcome)
    (hv : z.repository.state.view uri = y.repository.state.view uri) :
    Settled services x z uri outcome := by
  cases outcome with
  | error e => exact ⟨h.1, h.2.1, hv.trans h.2.2⟩
  | ok o =>
    cases o with
    | skipped => exact ⟨h.1, hv.trans h.2⟩
    | unchanged | indexed _ _ =>
      obtain ⟨ha, text, hs, f, tree, hf, hrest⟩ := h
      exact ⟨ha, text, hs, f, tree, hv.trans hf, hrest⟩

theorem isCurrent_congr (hv : y.repository.state.view uri = x.repository.state.view uri)
    (digest : String) : y.isCurrent uri digest = x.isCurrent uri digest := by
  have hfile : y.repository.state.file? uri = x.repository.state.file? uri := congrArg Prod.fst hv
  rw [Indexer.isCurrent, Indexer.isCurrent, hfile]

theorem exists_of_isCurrent {digest : String} (h : x.isCurrent uri digest = true) :
    ∃ f, x.repository.state.file? uri = some f ∧ f.contentHash = digest := by
  unfold Indexer.isCurrent at h
  split at h
  · next f hf => exact ⟨f, hf, by simpa using h⟩
  · cases h

structure Sound (services : Services ε) (x : Indexer) : Prop where
  digest_injective : Function.Injective services.digest
  parse_ok : ∀ uri text, ∃ tree, services.parse uri text = .ok tree ∧ tree.uri = uri
  certified : ∀ {uri f}, x.repository.state.file? uri = some f →
    f.uri = uri ∧ Certified services f

structure SameTexts (services : Services ε) (x y : Indexer) : Prop where
  faithful : y.documents.Faithful services
  texts : ∀ uri, y.documents.text? uri = x.documents.text? uri

theorem work_goesOn {phase next : Phase} (hx : Sound services x) (hd : SameTexts services x y)
    (hv : y.repository.state.view uri = x.repository.state.view uri)
    (hr : Reached services x uri phase) (h : work services y uri phase = (.goesOn next, z)) :
    Reached services x uri next ∧ z.repository = y.repository ∧ SameTexts services x z := by
  have hsource : y.source services uri = x.source services uri := Indexer.source_congr hd.texts
  cases phase with
  | queued =>
    simp only [work] at h
    split at h
    · cases h
    · next ha =>
      split at h
      · cases h
      · next text hs =>
        cases h
        exact ⟨⟨by simpa using ha, hsource ▸ hs⟩, rfl, hd⟩
  | loaded text =>
    simp only [work] at h
    split at h
    · next hc =>
      cases h
      exact ⟨⟨hr.1, text, hr.2, isCurrent_congr hv _ ▸ hc⟩, rfl, hd⟩
    · cases h
      exact ⟨hr, rfl, hd⟩
  | matching => cases h
  | differing text =>
    obtain ⟨tree, hp, -⟩ := hx.parse_ok uri text
    obtain ⟨d, htree, hf, ht⟩ := Indexer.tree_eq hd.faithful (hsource.trans hr.2) hp
    simp only [work, htree] at h
    cases h
    exact ⟨⟨hr.1, text, hr.2, hp, rfl⟩, rfl, hf, fun u => (ht u).trans (hd.texts u)⟩
  | parsed tree digest => cases h

theorem fresh_markVerified {text : String} (hx : Sound services x)
    (hv : y.repository.state.view uri = x.repository.state.view uri)
    (hc : x.isCurrent uri (services.digest text) = true) :
    Fresh services { y with repository := y.repository.markVerified uri } uri text := by
  obtain ⟨f, hf, hhash⟩ := exists_of_isCurrent hc
  obtain ⟨rfl, text', tree, hp, hdigest, hbody⟩ := hx.certified hf
  have htext : text' = text := hx.digest_injective (hdigest.trans hhash)
  have hfile : y.repository.state.file? f.uri = some f := (congrArg Prod.fst hv).trans hf
  refine ⟨f, tree, ?_, htext ▸ hp, hhash, hbody⟩
  rw [← hfile]
  exact (IndexState.view_markVerified _ f.uri f.uri).trans (if_pos rfl)

theorem fresh_publish {text : String} {tree : Tree} (hx : Sound services x)
    (hp : services.parse uri text = .ok tree) :
    Fresh services (y.publish tree (services.digest text)).2 uri text := by
  obtain ⟨tree', hp', huri⟩ := hx.parse_ok uri text
  obtain rfl : tree = tree' := by simpa [hp] using hp'
  refine ⟨collect tree (services.digest text) 0, tree, ?_, hp, rfl, rfl⟩
  exact (IndexState.view_replace _ _ uri).trans (if_pos huri)

theorem work_ends {phase : Phase} {outcome : Except ε Outcome} (hx : Sound services x)
    (hd : SameTexts services x y)
    (hv : y.repository.state.view uri = x.repository.state.view uri)
    (hr : Reached services x uri phase) (h : work services y uri phase = (.ends outcome, z)) :
    Settled services x z uri outcome ∧ SameTexts services x z ∧
      ∀ u ≠ uri, z.repository.state.view u = y.repository.state.view u := by
  have hsource : y.source services uri = x.source services uri := Indexer.source_congr hd.texts
  cases phase with
  | queued =>
    simp only [work] at h
    split at h
    · next ha =>
      cases h
      exact ⟨⟨by simpa using ha, hv⟩, hd, fun u _ => rfl⟩
    · next ha =>
      split at h
      · next e hs =>
        cases h
        exact ⟨⟨by simpa using ha, hsource ▸ hs, hv⟩, hd, fun u _ => rfl⟩
      · cases h
  | loaded text =>
    simp only [work] at h
    split at h <;> cases h
  | matching =>
    obtain ⟨ha, text, hs, hc⟩ := hr
    cases h
    refine ⟨⟨ha, text, hs, fresh_markVerified hx hv hc⟩, ⟨hd.faithful, hd.texts⟩, fun u hu => ?_⟩
    exact (IndexState.view_markVerified _ uri u).trans (if_neg (Ne.symm hu))
  | differing text =>
    obtain ⟨tree, hp, -⟩ := hx.parse_ok uri text
    obtain ⟨d, htree, -, -⟩ := Indexer.tree_eq hd.faithful (hsource.trans hr.2) hp
    simp only [work, htree] at h
    cases h
  | parsed tree digest =>
    obtain ⟨ha, text, hs, hp, rfl⟩ := hr
    obtain ⟨tree', hp', huri⟩ := hx.parse_ok uri text
    obtain rfl : tree = tree' := by simpa [hp] using hp'
    cases h
    refine ⟨⟨ha, text, hs, fresh_publish hx hp⟩, ⟨hd.faithful, hd.texts⟩, fun u hu => ?_⟩
    exact (IndexState.view_replace _ _ u).trans (if_neg fun he => hu (he.symm.trans huri))

structure Going (services : Services ε) (x : Indexer) (found : List String) (s : State ε) :
    Prop where
  uris : (s.waiting ++ s.running.map Prod.fst ++ s.outcomes.map Prod.fst).Perm found
  documents : SameTexts services x s.indexer
  untouched : ∀ uri ∉ s.outcomes.map Prod.fst,
    s.indexer.repository.state.view uri = x.repository.state.view uri
  reached : ∀ p ∈ s.running, Reached services x p.1 p.2
  settled : ∀ o ∈ s.outcomes, Settled services x s.indexer o.1 o.2

variable {found : List String} {s s' : State ε}

theorem going_begin (hd : x.documents.Faithful services) :
    Going services x found (begin x found) where
  uris := by simp [begin]
  documents := ⟨hd, fun _ => rfl⟩
  untouched uri _ := by rw [begin, Repository.state_beginIndexing]
  reached p hp := by simp [begin] at hp
  settled o ho := by simp [begin] at ho

section Steps

variable {waiting : List String} {front rest : List (String × Phase)} {phase : Phase}
  {outcomes : List (String × Except ε Outcome)}

theorem Going.start {running : List (String × Phase)}
    (h : Going services x found ⟨y, uri :: waiting, running, outcomes⟩) :
    Going services x found ⟨y, waiting, running ++ [(uri, .queued)], outcomes⟩ := by
  refine ⟨perm_uris_start.trans h.uris, h.documents, h.untouched, fun p hp => ?_, h.settled⟩
  rcases List.mem_append.mp hp with hp | hp
  · exact h.reached p hp
  · rw [List.mem_singleton.mp hp]
    trivial

-- A running task has no outcome yet, so the record of its URI is still the one it began with.
theorem Going.not_mem_outcomes
    (h : Going services x found ⟨y, waiting, front ++ (uri, phase) :: rest, outcomes⟩)
    (hfound : found.Nodup) : uri ∉ outcomes.map Prod.fst := by
  have hnodup := h.uris.nodup_iff.mpr hfound
  intro hmem
  refine (List.nodup_append.mp hnodup).2.2 uri ?_ uri hmem rfl
  simp

theorem Going.goOn {next : Phase} (hx : Sound services x) (hfound : found.Nodup)
    (h : Going services x found ⟨y, waiting, front ++ (uri, phase) :: rest, outcomes⟩)
    (hwork : work services y uri phase = (.goesOn next, z)) :
    Going services x found ⟨z, waiting, front ++ (uri, next) :: rest, outcomes⟩ := by
  have hview := h.untouched uri (h.not_mem_outcomes hfound)
  have hreached := h.reached (uri, phase) (by simp)
  obtain ⟨hr, hrepo, hd⟩ := work_goesOn hx h.documents hview hreached hwork
  refine ⟨by simpa using h.uris, hd, fun u hu => ?_, fun p hp => ?_, fun o ho => ?_⟩
  · exact (congrArg (fun r => r.state.view u) hrepo).trans (h.untouched u hu)
  · rcases List.mem_append.mp hp with hp | hp
    · exact h.reached p (List.mem_append_left _ hp)
    · rcases List.mem_cons.mp hp with rfl | hp
      · exact hr
      · exact h.reached p (List.mem_append_right _ (List.mem_cons_of_mem _ hp))
  · exact (h.settled o ho).congr (congrArg (fun r => r.state.view o.1) hrepo)

theorem Going.finish {outcome : Except ε Outcome} (hx : Sound services x) (hfound : found.Nodup)
    (h : Going services x found ⟨y, waiting, front ++ (uri, phase) :: rest, outcomes⟩)
    (hwork : work services y uri phase = (.ends outcome, z)) :
    Going services x found ⟨z, waiting, front ++ rest, outcomes ++ [(uri, outcome)]⟩ := by
  have hnew := h.not_mem_outcomes hfound
  have hreached := h.reached (uri, phase) (by simp)
  obtain ⟨hsettled, hd, hothers⟩ := work_ends hx h.documents (h.untouched uri hnew) hreached hwork
  refine ⟨perm_uris_finish.trans h.uris, hd, fun u hu => ?_, fun p hp => ?_, fun o ho => ?_⟩
  · simp only [List.map_append, List.map_cons, List.map_nil, List.mem_append, List.mem_singleton,
      not_or] at hu
    exact (hothers u hu.2).trans (h.untouched u hu.1)
  · rcases List.mem_append.mp hp with hp | hp
    · exact h.reached p (List.mem_append_left _ hp)
    · exact h.reached p (List.mem_append_right _ (List.mem_cons_of_mem _ hp))
  · rcases List.mem_append.mp ho with ho | ho
    · have hne : o.1 ≠ uri := fun he => hnew (he ▸ List.mem_map_of_mem ho)
      exact (h.settled o ho).congr (hothers o.1 hne)
    · rw [List.mem_singleton.mp ho]
      exact hsettled

end Steps

theorem Going.step (hx : Sound services x) (hfound : found.Nodup) (h : Going services x found s)
    (hs : Step services limit s s') : Going services x found s' := by
  cases hs with
  | start => exact h.start
  | goOn hwork => exact h.goOn hx hfound hwork
  | finish hwork => exact h.finish hx hfound hwork

theorem going_run? (hx : Sound services x) (hd : x.documents.Faithful services)
    (hfound : found.Nodup) {actions : List Action}
    (h : run? services limit (begin x found) actions = some s) : Going services x found s :=
  run?_induction (fun hstep ht => ht.step hx hfound hstep) (going_begin hd) h

end SemanticIndex.Sweep
