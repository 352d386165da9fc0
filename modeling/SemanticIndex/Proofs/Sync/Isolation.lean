import SemanticIndex.Proofs.Sweep.Rest

namespace SemanticIndex

open Sweep

variable {ε : Type} {services : Services ε} {x y : Indexer} {uri u : String}
  {outcome : Except ε Outcome}

def Services.Labels (services : Services ε) : Prop :=
  ∀ uri text tree, services.parse uri text = .ok tree → tree.uri = uri

theorem labels_wordServices : wordServices.Labels := by
  rintro uri text _ ⟨⟩
  rfl

namespace IndexState

variable {r s t : IndexState}

def AgreeAt (s t : IndexState) (uri : String) : Prop :=
  t.slots[uri]? = s.slots[uri]? ∧ t.isVerified uri = s.isVerified uri

theorem AgreeAt.refl (s : IndexState) (uri : String) : s.AgreeAt s uri := ⟨rfl, rfl⟩

theorem AgreeAt.trans (h : r.AgreeAt s u) (h' : s.AgreeAt t u) : r.AgreeAt t u :=
  ⟨h'.1.trans h.1, h'.2.trans h.2⟩

theorem AgreeAt.view_eq (h : s.AgreeAt t u) : t.view u = s.view u := by
  rw [view, view, h.2, file?, file?, h.1]

theorem AgreeAt.contains_eq (h : s.AgreeAt t u) : t.contains u = s.contains u :=
  congrArg Option.isSome h.1

theorem agreeAt_replace (s : IndexState) (f : File) (h : f.uri ≠ u) :
    s.AgreeAt (s.replace f) u := by
  have hview := (view_replace s f u).trans (if_neg h)
  exact ⟨(slots_replace s f u).trans (if_neg h), congrArg Prod.snd hview⟩

theorem agreeAt_remove (s : IndexState) (h : uri ≠ u) : s.AgreeAt (s.remove uri) u :=
  ⟨(slots_remove s uri u).trans (if_neg h), congrArg Prod.snd (view_remove s h)⟩

theorem agreeAt_markVerified (s : IndexState) (h : uri ≠ u) :
    s.AgreeAt (s.markVerified uri) u :=
  ⟨rfl, congrArg Prod.snd ((view_markVerified s uri u).trans (if_neg h))⟩

end IndexState

namespace Indexer

inductive Indexes (services : Services ε) (x : Indexer) (uri : String) :
    Except ε Outcome → Indexer → Prop where
  | skipped (ha : services.accepts uri = false) : Indexes services x uri (.ok .skipped) x
  | unreadable {e : ε} (ha : services.accepts uri = true) (hs : x.source services uri = .error e) :
      Indexes services x uri (.error e) x
  | unchanged {text : String} (ha : services.accepts uri = true)
      (hs : x.source services uri = .ok text)
      (hc : x.isCurrent uri (services.digest text) = true) :
      Indexes services x uri (.ok .unchanged)
        { x with repository := x.repository.markVerified uri }
  | unparsable {text : String} {e : ε} (ha : services.accepts uri = true)
      (hs : x.source services uri = .ok text)
      (hc : x.isCurrent uri (services.digest text) = false)
      (hp : services.parse uri text = .error e) : Indexes services x uri (.error e) x
  | published {text : String} {tree : Tree} {d : Documents} {outcome : Outcome} {y : Indexer}
      (ha : services.accepts uri = true) (hs : x.source services uri = .ok text)
      (hc : x.isCurrent uri (services.digest text) = false)
      (hp : services.parse uri text = .ok tree)
      (hd : SameTexts services x { x with documents := d })
      (hy : publish { x with documents := d } tree (services.digest text) = (outcome, y)) :
      Indexes services x uri (.ok outcome) y

theorem indexes (hf : x.documents.Faithful services) (uri : String) :
    Indexes services x uri (x.index services uri).1 (x.index services uri).2 := by
  unfold index
  cases ha : services.accepts uri with
  | false => exact .skipped ha
  | true =>
    cases hs : x.source services uri with
    | error e => exact .unreadable ha hs
    | ok text =>
      cases hc : x.isCurrent uri (services.digest text) with
      | true => simpa [hc] using .unchanged ha hs hc
      | false =>
        cases hp : services.parse uri text with
        | error e => simpa [hc, tree_error hf hs hp] using .unparsable ha hs hc hp
        | ok tree =>
          obtain ⟨d, htree, hd, ht⟩ := tree_eq hf hs hp
          simpa [hc, htree] using .published ha hs hc hp ⟨hd, ht⟩ rfl

theorem Indexes.sameTexts (h : Indexes services x uri outcome y)
    (hf : x.documents.Faithful services) : SameTexts services x y := by
  cases h with
  | skipped | unreadable | unchanged | unparsable => exact ⟨hf, fun _ => rfl⟩
  | published ha hs hc hp hd hy =>
    cases hy
    exact ⟨hd.faithful, hd.texts⟩

section Labelled

variable (hlabel : services.Labels)

include hlabel

theorem Indexes.agreeAt (h : Indexes services x uri outcome y) (hu : uri ≠ u) :
    x.repository.state.AgreeAt y.repository.state u := by
  cases h with
  | skipped | unreadable | unparsable => exact .refl _ u
  | unchanged => exact IndexState.agreeAt_markVerified _ hu
  | published ha hs hc hp hd hy =>
    cases hy
    exact IndexState.agreeAt_replace _ _ fun he => hu ((hlabel _ _ _ hp).symm.trans he)

theorem Indexes.fresh (hdigest : Function.Injective services.digest)
    (hcert : ∀ u f, x.repository.state.file? u = some f → f.uri = u ∧ Certified services f)
    (h : Indexes services x uri outcome y) (ha : services.accepts uri = true) {o : Outcome}
    (ho : outcome = .ok o) : ∃ text, x.source services uri = .ok text ∧ Fresh services y uri text := by
  cases h with
  | skipped hno => simp [ha] at hno
  | unreadable | unparsable => cases ho
  | @unchanged text _ hs hc =>
    obtain ⟨f, hf, hhash⟩ := exists_of_isCurrent hc
    obtain ⟨rfl, other, tree, hp, hother, hbody⟩ := hcert uri f hf
    obtain rfl : other = text := hdigest (hother.trans hhash)
    refine ⟨other, hs, f, tree, ?_, hp, hhash, hbody⟩
    rw [← hf]
    exact (IndexState.view_markVerified _ f.uri f.uri).trans (if_pos rfl)
  | @published text tree _ _ _ _ hs _ hp _ hy =>
    cases hy
    refine ⟨text, hs, collect tree (services.digest text) 0, tree, ?_, hp, rfl, rfl⟩
    exact (IndexState.view_replace _ _ uri).trans (if_pos (hlabel uri text tree hp))

theorem Indexes.certified
    (hcert : ∀ u f, x.repository.state.file? u = some f → f.uri = u ∧ Certified services f)
    (h : Indexes services x uri outcome y) {f : File} (hf : y.repository.state.file? u = some f) :
    f.uri = u ∧ Certified services f := by
  by_cases hu : uri = u
  · subst hu
    cases h with
    | skipped | unreadable | unchanged | unparsable => exact hcert uri f hf
    | @published text tree _ _ _ _ _ _ hp _ hy =>
      cases hy
      have huri := hlabel uri text tree hp
      obtain rfl : collect tree (services.digest text) 0 = f :=
        Option.some.inj ((congrArg Prod.fst
          ((IndexState.view_replace _ _ uri).trans (if_pos huri))).symm.trans hf)
      exact ⟨huri, text, tree, (congrArg (services.parse · text) huri).trans hp, rfl, rfl⟩
  · have hview := (h.agreeAt hlabel hu).view_eq
    exact hcert u f ((congrArg Prod.fst hview).symm.trans hf)

theorem Indexes.succeeds_iff (hdigest : Function.Injective services.digest)
    (hcert : ∀ u f, x.repository.state.file? u = some f → f.uri = u ∧ Certified services f)
    (h : Indexes services x uri outcome y) (ha : services.accepts uri = true) :
    (∃ o, outcome = .ok o) ↔
      ∃ text tree, x.source services uri = .ok text ∧ services.parse uri text = .ok tree := by
  constructor
  · rintro ⟨o, ho⟩
    obtain ⟨text, hs, f, tree, -, hp, -⟩ := h.fresh hlabel hdigest hcert ha ho
    exact ⟨text, tree, hs, hp⟩
  · rintro ⟨text, tree, hs, hp⟩
    cases h with
    | skipped | unchanged | published => exact ⟨_, rfl⟩
    | unreadable _ hs' => cases hs'.symm.trans hs
    | unparsable _ hs' _ hp' =>
      cases hs'.symm.trans hs
      cases hp'.symm.trans hp

end Labelled

theorem isCurrent_iff {digest : String} : x.isCurrent uri digest = true ↔
    ∃ f, x.repository.state.file? uri = some f ∧ f.contentHash = digest := by
  refine ⟨exists_of_isCurrent, ?_⟩
  rintro ⟨f, hf, rfl⟩
  simp [isCurrent, hf]

theorem Indexes.unchanged_iff (h : Indexes services x uri outcome y)
    (ha : services.accepts uri = true) : outcome = .ok .unchanged ↔
      ∃ text f, x.source services uri = .ok text ∧ x.repository.state.file? uri = some f ∧
        f.contentHash = services.digest text := by
  simp only [exists_and_left, ← isCurrent_iff]
  cases h with
  | skipped hno => simp [ha] at hno
  | unreadable _ hs => simp [hs]
  | unchanged _ hs hc | unparsable _ hs hc => simp [hs, hc]
  | published _ hs hc _ _ hy =>
    cases hy
    simp [hs, hc]

theorem Indexes.repository_of_unchanged (h : Indexes services x uri (.ok .unchanged) y) :
    y.repository = x.repository.markVerified uri := by
  cases h with
  | unchanged => rfl
  | published _ _ _ _ _ hy => cases hy

theorem Indexes.repository_of_error {e : ε} (h : Indexes services x uri (.error e) y) :
    y.repository = x.repository := by
  cases h with
  | unreadable | unparsable => rfl

structure IndexedAlone (services : Services ε) (x : Indexer) (uri : String)
    (outcome : Except ε Outcome) (y : Indexer) : Prop where
  succeeds_iff : (∃ o, outcome = .ok o) ↔
    ∃ text tree, x.source services uri = .ok text ∧ services.parse uri text = .ok tree
  current : ∀ o, outcome = .ok o → ∃ text tree f, x.source services uri = .ok text ∧
    services.parse uri text = .ok tree ∧ y.repository.state.file? uri = some f ∧
    f.body = (collect tree "" 0).body ∧ f.contentHash = services.digest text ∧
    y.repository.state.isVerified uri = true
  unchanged_iff : outcome = .ok .unchanged ↔ ∃ text f, x.source services uri = .ok text ∧
    x.repository.state.file? uri = some f ∧ f.contentHash = services.digest text
  unchanged : outcome = .ok .unchanged → y.repository =
    { x.repository with
      state := { x.repository.state with unverified := y.repository.state.unverified } }
  failed : ∀ e, outcome = .error e → y.repository = x.repository
  others : ∀ u ≠ uri, x.repository.state.AgreeAt y.repository.state u
  certified : ∀ u f, y.repository.state.file? u = some f → f.uri = u ∧ Certified services f
  documents : ∀ u, y.documents.text? u = x.documents.text? u

theorem indexing_is_exact_and_isolated (services : Services ε) (r : Repository) (edits : List Edit)
    (uri : String) (hdigest : Function.Injective services.digest) (hlabel : services.Labels)
    (hcert : ∀ u f, r.state.file? u = some f → f.uri = u ∧ Certified services f)
    (ha : services.accepts uri = true) :
    let x : Indexer := ⟨r, edits.foldl (Documents.edit services) Documents.empty⟩
    IndexedAlone services x uri (x.index services uri).1 (x.index services uri).2 := by
  intro x
  have hf : x.documents.Faithful services := Documents.faithful_edits services edits
  have h := indexes hf uri
  generalize (x.index services uri).1 = outcome at h ⊢
  generalize (x.index services uri).2 = y at h ⊢
  exact
    { succeeds_iff := h.succeeds_iff hlabel hdigest hcert ha
      current := fun o ho => by
        obtain ⟨text, hs, f, tree, hview, hp, hhash, hbody⟩ := h.fresh hlabel hdigest hcert ha ho
        exact ⟨text, tree, f, hs, hp, congrArg Prod.fst hview, hbody, hhash,
          congrArg Prod.snd hview⟩
      unchanged_iff := h.unchanged_iff ha
      unchanged := by
        rintro rfl
        rw [h.repository_of_unchanged]
        rfl
      failed := by
        rintro e rfl
        exact h.repository_of_error
      others := fun u hu => h.agreeAt hlabel (Ne.symm hu)
      certified := fun u f => h.certified hlabel hcert
      documents := (h.sameTexts hf).texts }

theorem indexing_is_exact_and_isolated_edited :
    let kept := [wordRecord "file:///a.php" "old", wordRecord "file:///b.php" "same"]
    let r := Repository.empty.run [.restore ⟨snapshotVersion, kept⟩]
    let edits : List Edit := [.put "file:///a.php" 1 "older", .update "file:///a.php" 2 "edited",
      .parse "file:///a.php"]
    let x : Indexer := ⟨r, edits.foldl (Documents.edit wordServices) Documents.empty⟩
    let done := x.index wordServices "file:///a.php"
    IndexedAlone wordServices x "file:///a.php" done.1 done.2 ∧
      done.1.toOption = some (.indexed 1 0) ∧
      done.2.repository.state.file? "file:///a.php" =
        some { wordRecord "file:///a.php" "edited" with parseMillis := 0 } ∧
      done.2.repository.state.isVerified "file:///a.php" = true ∧
      done.2.repository.state.isVerified "file:///b.php" = false := by
  intro kept r edits x done
  have hfiles : r.state.files = kept := by
    rw [Repository.files_run_empty]
    decide +kernel
  have hkept : ∀ f ∈ r.state.files, Certified wordServices f := by
    have hrecord (uri text : String) : Certified wordServices (wordRecord uri text) :=
      ⟨text, wordTree uri text, rfl, rfl, rfl⟩
    rw [hfiles]
    simp [kept, hrecord]
  have hsound : Sound wordServices ⟨r, Documents.empty⟩ :=
    sound_run Function.injective_id (fun uri text => ⟨wordTree uri text, rfl, rfl⟩) hkept
  refine ⟨indexing_is_exact_and_isolated wordServices r edits "file:///a.php"
    Function.injective_id labels_wordServices (fun u f hf => hsound.certified hf) rfl, ?_⟩
  decide +kernel

end Indexer

end SemanticIndex
