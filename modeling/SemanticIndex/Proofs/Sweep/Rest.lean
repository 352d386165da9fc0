import SemanticIndex.Proofs.Sweep.Contents

namespace SemanticIndex

open Std

theorem IndexState.markVerified_of_isVerified {s : IndexState} {uri : String}
    (h : s.isVerified uri = true) : s.markVerified uri = s := by
  have hout : uri ∉ s.unverified := by
    intro hu
    rw [IndexState.isVerified, ExtTreeSet.mem_iff_contains.mp hu] at h
    cases h
  have herase : s.unverified.erase uri = s.unverified := by
    apply ExtTreeSet.ext_mem
    intro u
    rw [ExtTreeSet.mem_erase, ne_eq, LawfulEqCmp.compare_eq_iff_eq]
    refine ⟨And.right, fun hu => ⟨?_, hu⟩⟩
    rintro rfl
    exact hout hu
  rw [IndexState.markVerified, herase]

theorem Indexer.tree_error {ε : Type} {services : Services ε} {x : Indexer} {uri text : String}
    {e : ε} (hf : x.documents.Faithful services) (hs : x.source services uri = .ok text)
    (hp : services.parse uri text = .error e) : x.tree services uri = (.error e, x) := by
  unfold source at hs
  unfold Indexer.tree
  split at hs
  · next stored hget =>
    cases hs
    cases ht : stored.tree with
    | some kept =>
      have hkept := hf uri stored kept hget ht
      rw [hp] at hkept
      cases hkept
    | none => simp [Documents.tree, ht, hp]
  · simp [hs, hp]

namespace Sweep

variable {ε : Type} {services : Services ε} {limit : Nat} {x y z : Indexer} {uri : String}
  {outcome : Except ε Outcome}

inductive AtRest (services : Services ε) (y : Indexer) (uri : String) : Except ε Outcome → Prop
  | skipped (ha : services.accepts uri = false) : AtRest services y uri (.ok .skipped)
  | unreadable {e : ε} (ha : services.accepts uri = true) (hs : y.source services uri = .error e) :
      AtRest services y uri (.error e)
  | unparsable {text : String} {e : ε} (ha : services.accepts uri = true)
      (hs : y.source services uri = .ok text) (hp : services.parse uri text = .error e)
      (hc : y.isCurrent uri (services.digest text) = false) : AtRest services y uri (.error e)
  | unchanged {text : String} (ha : services.accepts uri = true)
      (hs : y.source services uri = .ok text)
      (hc : y.isCurrent uri (services.digest text) = true)
      (hv : y.repository.state.isVerified uri = true) : AtRest services y uri (.ok .unchanged)

theorem AtRest.index_eq (h : AtRest services y uri outcome) (hf : y.documents.Faithful services) :
    y.index services uri = (outcome, y) := by
  cases h with
  | skipped ha => simp [Indexer.index, ha]
  | unreadable ha hs => simp [Indexer.index, ha, hs]
  | unparsable ha hs hp hc => simp [Indexer.index, ha, hs, hc, Indexer.tree_error hf hs hp]
  | unchanged ha hs hc hv =>
    simp [Indexer.index, ha, hs, hc, Repository.markVerified,
      IndexState.markVerified_of_isVerified hv]

theorem AtRest.congr (h : AtRest services y uri outcome) (hd : z.documents = y.documents)
    (hv : z.repository.state.view uri = y.repository.state.view uri) :
    AtRest services z uri outcome := by
  have hsource : z.source services uri = y.source services uri := by
    simp only [Indexer.source, hd]
  cases h with
  | skipped ha => exact .skipped ha
  | unreadable ha hs => exact .unreadable ha (hsource.trans hs)
  | unparsable ha hs hp hc =>
    exact .unparsable ha (hsource.trans hs) hp ((isCurrent_congr hv _).trans hc)
  | unchanged ha hs hc hverified =>
    exact .unchanged ha (hsource.trans hs) ((isCurrent_congr hv _).trans hc)
      ((congrArg Prod.snd hv).trans hverified)

def Knows (services : Services ε) (y : Indexer) (uri : String) : Phase → Prop
  | .queued => True
  | .loaded text => services.accepts uri = true ∧ y.source services uri = .ok text
  | .matching => services.accepts uri = true ∧ ∃ text, y.source services uri = .ok text ∧
      y.isCurrent uri (services.digest text) = true
  | .differing text => services.accepts uri = true ∧ y.source services uri = .ok text ∧
      ∀ e, services.parse uri text = .error e → y.isCurrent uri (services.digest text) = false
  | .parsed tree digest => services.accepts uri = true ∧ ∃ text,
      y.source services uri = .ok text ∧ services.parse uri text = .ok tree ∧
      digest = services.digest text

structure Onward (services : Services ε) (y z : Indexer) : Prop where
  documents : SameTexts services y z
  current : ∀ {uri text}, y.source services uri = .ok text →
    y.isCurrent uri (services.digest text) = true → z.isCurrent uri (services.digest text) = true
  verified : ∀ {uri}, y.repository.state.isVerified uri = true →
    z.repository.state.isVerified uri = true
  unparsable : ∀ {uri text e}, y.source services uri = .ok text →
    services.parse uri text = .error e →
    z.isCurrent uri (services.digest text) = y.isCurrent uri (services.digest text)

theorem Onward.source_eq (h : Onward services y z) (uri : String) :
    z.source services uri = y.source services uri :=
  Indexer.source_congr h.documents.texts

theorem onward_of_repository_eq (hd : SameTexts services y z)
    (hr : z.repository = y.repository) : Onward services y z where
  documents := hd
  current _ hc := (isCurrent_congr (by rw [hr]) _).trans hc
  verified h := by rwa [hr]
  unparsable _ _ := isCurrent_congr (by rw [hr]) _

theorem Knows.onward {phase : Phase} (h : Knows services y uri phase) (ho : Onward services y z) :
    Knows services z uri phase := by
  have hsource := ho.source_eq uri
  cases phase with
  | queued => trivial
  | loaded text => exact ⟨h.1, hsource.trans h.2⟩
  | matching =>
    obtain ⟨ha, text, hs, hc⟩ := h
    exact ⟨ha, text, hsource.trans hs, ho.current hs hc⟩
  | differing text =>
    obtain ⟨ha, hs, hc⟩ := h
    exact ⟨ha, hsource.trans hs, fun e hp => (ho.unparsable hs hp).trans (hc e hp)⟩
  | parsed tree digest =>
    obtain ⟨ha, text, hs, hrest⟩ := h
    exact ⟨ha, text, hsource.trans hs, hrest⟩

theorem AtRest.onward (h : AtRest services y uri outcome) (ho : Onward services y z) :
    AtRest services z uri outcome := by
  have hsource := ho.source_eq uri
  cases h with
  | skipped ha => exact .skipped ha
  | unreadable ha hs => exact .unreadable ha (hsource.trans hs)
  | unparsable ha hs hp hc =>
    exact .unparsable ha (hsource.trans hs) hp ((ho.unparsable hs hp).trans hc)
  | unchanged ha hs hc hv =>
    exact .unchanged ha (hsource.trans hs) (ho.current hs hc) (ho.verified hv)

def calm : Except ε Outcome → Except ε Outcome
  | .ok (.indexed _ _) => .ok .unchanged
  | outcome => outcome

theorem isSkipped_calm (outcome : Except ε Outcome) :
    Indexer.isSkipped (calm outcome) = Indexer.isSkipped outcome := by
  rcases outcome with e | (_ | _ | _) <;> rfl

theorem isFailed_calm (outcome : Except ε Outcome) :
    Indexer.isFailed (calm outcome) = Indexer.isFailed outcome := by
  rcases outcome with e | (_ | _ | _) <;> rfl

theorem onward_markVerified (hf : y.documents.Faithful services) (uri : String) :
    Onward services y { y with repository := y.repository.markVerified uri } where
  documents := ⟨hf, fun _ => rfl⟩
  current _ hc := hc
  verified {u} h := by
    have hview : (y.repository.state.markVerified uri).view u = _ :=
      IndexState.view_markVerified _ uri u
    split at hview
    · exact congrArg Prod.snd hview
    · exact (congrArg Prod.snd hview).trans h
  unparsable _ _ := rfl

theorem view_publish (y : Indexer) (tree : Tree) (digest u : String) :
    (y.publish tree digest).2.repository.state.view u =
      if tree.uri = u then (some (collect tree digest 0), true)
      else y.repository.state.view u :=
  IndexState.view_replace _ _ u

theorem isCurrent_publish {tree : Tree} (huri : tree.uri = uri) (digest : String) :
    (y.publish tree digest).2.isCurrent uri digest = true := by
  have hfile : (y.publish tree digest).2.repository.state.file? uri =
      some (collect tree digest 0) :=
    congrArg Prod.fst ((view_publish y tree digest uri).trans (if_pos huri))
  simp only [Indexer.isCurrent, hfile]
  exact beq_self_eq_true digest

theorem onward_publish {text : String} {tree : Tree} (hf : y.documents.Faithful services)
    (huri : tree.uri = uri) (hs : y.source services uri = .ok text)
    (hp : services.parse uri text = .ok tree) :
    Onward services y (y.publish tree (services.digest text)).2 := by
  have hothers {u : String} (hu : uri ≠ u) :
      (y.publish tree (services.digest text)).2.repository.state.view u =
        y.repository.state.view u :=
    (view_publish y tree _ u).trans (if_neg fun he => hu (huri.symm.trans he))
  refine ⟨⟨hf, fun _ => rfl⟩, ?_, ?_, ?_⟩
  · intro u other hsource hc
    by_cases hu : uri = u
    · subst hu
      obtain rfl : text = other := by simpa [hs] using hsource
      exact isCurrent_publish huri _
    · exact (isCurrent_congr (hothers hu) _).trans hc
  · intro u hv
    by_cases hu : uri = u
    · exact congrArg Prod.snd ((view_publish y tree _ u).trans (if_pos (huri.trans hu)))
    · exact (congrArg Prod.snd (hothers hu)).trans hv
  · intro u other e hsource hparse
    by_cases hu : uri = u
    · subst hu
      obtain rfl : text = other := by simpa [hs] using hsource
      rw [hp] at hparse
      cases hparse
    · exact isCurrent_congr (hothers hu) _

section Work

variable {phase next : Phase}

theorem knows_of_goesOn (hf : y.documents.Faithful services) (hk : Knows services y uri phase)
    (h : work services y uri phase = (.goesOn next, z)) :
    Knows services z uri next ∧ z.repository = y.repository ∧ SameTexts services y z := by
  have hsame : SameTexts services y y := ⟨hf, fun _ => rfl⟩
  cases phase with
  | queued =>
    simp only [work] at h
    split at h
    · cases h
    · next ha =>
      split at h
      · cases h
      · next text hs =>
        cases h
        exact ⟨⟨by simpa using ha, hs⟩, rfl, hsame⟩
  | loaded text =>
    simp only [work] at h
    split at h
    · next hc =>
      cases h
      exact ⟨⟨hk.1, text, hk.2, hc⟩, rfl, hsame⟩
    · next hc =>
      cases h
      exact ⟨⟨hk.1, hk.2, fun e _ => by simpa using hc⟩, rfl, hsame⟩
  | matching => cases h
  | differing text =>
    obtain ⟨ha, hs, -⟩ := hk
    cases hp : services.parse uri text with
    | error e =>
      simp only [work, Indexer.tree_error hf hs hp] at h
      cases h
    | ok tree =>
      obtain ⟨d, htree, hd, ht⟩ := Indexer.tree_eq hf hs hp
      simp only [work, htree] at h
      cases h
      exact ⟨⟨ha, text, (Indexer.source_congr ht).trans hs, hp, rfl⟩, rfl, hd, ht⟩
  | parsed tree digest => cases h

theorem atRest_of_ends (hlabel : ∀ uri text tree, services.parse uri text = .ok tree → tree.uri = uri)
    (hf : y.documents.Faithful services) (hk : Knows services y uri phase)
    (h : work services y uri phase = (.ends outcome, z)) :
    AtRest services z uri (calm outcome) ∧ Onward services y z := by
  have hsame : Onward services y y := onward_of_repository_eq ⟨hf, fun _ => rfl⟩ rfl
  cases phase with
  | queued =>
    simp only [work] at h
    split at h
    · next ha =>
      cases h
      exact ⟨.skipped (by simpa using ha), hsame⟩
    · next ha =>
      split at h
      · next e hs =>
        cases h
        exact ⟨.unreadable (by simpa using ha) hs, hsame⟩
      · cases h
  | loaded text =>
    simp only [work] at h
    split at h <;> cases h
  | matching =>
    obtain ⟨ha, text, hs, hc⟩ := hk
    cases h
    have hv : (y.repository.markVerified uri).state.isVerified uri = true :=
      congrArg Prod.snd ((IndexState.view_markVerified _ uri uri).trans (if_pos rfl))
    exact ⟨.unchanged ha hs hc hv, onward_markVerified hf uri⟩
  | differing text =>
    obtain ⟨ha, hs, hc⟩ := hk
    cases hp : services.parse uri text with
    | error e =>
      simp only [work, Indexer.tree_error hf hs hp] at h
      cases h
      exact ⟨.unparsable ha hs hp (hc e hp), hsame⟩
    | ok tree =>
      obtain ⟨d, htree, -, -⟩ := Indexer.tree_eq hf hs hp
      simp only [work, htree] at h
      cases h
  | parsed tree digest =>
    obtain ⟨ha, text, hs, hp, rfl⟩ := hk
    have huri := hlabel uri text tree hp
    cases h
    have ho := onward_publish hf huri hs hp
    refine ⟨.unchanged ha ((ho.source_eq uri).trans hs) (isCurrent_publish huri _) ?_, ho⟩
    exact congrArg Prod.snd ((view_publish y tree _ uri).trans (if_pos huri))

end Work

end Sweep

end SemanticIndex
