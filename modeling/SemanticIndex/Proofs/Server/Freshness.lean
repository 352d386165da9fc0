import SemanticIndex.Proofs.Server.Usages
import SemanticIndex.Proofs.Snapshot.RoundTrip
import SemanticIndex.Proofs.Sync.Isolation

namespace SemanticIndex

open Std Sweep

variable {ε : Type} {services : Services ε} {x y : Indexer} {uri : String} {tree : Tree}
  {target : Nat} {d : Definition}

namespace IndexState

variable {s : IndexState}

theorem Consistent.unverified_remove (h : s.Consistent) (uri : String) :
    (s.remove uri).unverified = s.unverified.erase uri := by
  unfold IndexState.remove
  cases hf : s.file? uri with
  | some old => rfl
  | none =>
    have hv : s.isVerified uri = true := by
      by_contra hno
      have hstored := h.unverified_stored uri (by simpa [isVerified] using hno)
      simp [contains_eq, hf] at hstored
    exact (congrArg IndexState.unverified (markVerified_of_isVerified hv)).symm

theorem mem_unverified : uri ∈ s.unverified ↔ s.isVerified uri = false := by
  simp [isVerified]

theorem size_erase_unverified (h : s.isVerified uri = false) :
    (s.unverified.erase uri).size < s.unverified.size := by
  have hmem : uri ∈ s.unverified := mem_unverified.mpr h
  have hsome : s.unverified.size ≠ 0 := fun hzero =>
    ExtTreeSet.eq_empty_iff_forall_not_mem.mp (ExtTreeSet.eq_empty_iff_size_eq_zero.mpr hzero) uri
      hmem
  rw [ExtTreeSet.size_erase, if_pos (ExtTreeSet.mem_iff_contains.mp hmem)]
  omega

def Filed (s : IndexState) : Prop := ∀ uri f, s.file? uri = some f → f.uri = uri ∧ f.Local

theorem Consistent.filed (h : s.Consistent) (hl : ∀ f ∈ s.files, f.Local) : s.Filed := by
  intro uri f hf
  obtain rfl := h.uri_of_file? hf
  exact ⟨rfl, hl f (h.mem_files.mpr hf)⟩

theorem Filed.file_of_definition? (h : s.Filed) {fqn : String} (hd : s.definition? fqn = some d) :
    ∃ f, s.file? d.uri = some f ∧ d ∈ f.definitions := by
  simp only [definition?, Option.bind_eq_bind, Option.bind_eq_some_iff] at hd
  obtain ⟨uri, -, f, hf, hfind⟩ := hd
  have hmem : d ∈ f.definitions := List.mem_of_find?_eq_some hfind
  obtain ⟨rfl, hlocal⟩ := h uri f hf
  exact ⟨f, by rwa [hlocal.1 d hmem], hmem⟩

end IndexState

namespace Indexer

structure Checked (services : Services ε) (x : Indexer) (uri : String) (y : Indexer) : Prop where
  texts : SameTexts services x y
  consistent : y.repository.state.Consistent
  filed : x.repository.state.Filed → y.repository.state.Filed
  others : ∀ u ≠ uri, x.repository.state.AgreeAt y.repository.state u
  unverified : y.repository.state.unverified = x.repository.state.unverified.erase uri
  current : ∀ f, y.repository.state.file? uri = some f →
    ∃ text, x.source services uri = .ok text ∧ f.contentHash = services.digest text

namespace Checked

theorem isVerified (h : Checked services x uri y) : y.repository.state.isVerified uri = true := by
  simp [IndexState.isVerified, h.unverified]

theorem remove (hf : x.documents.Faithful services) (hc : x.repository.state.Consistent)
    (uri : String) : Checked services x uri (x.remove uri) where
  texts := ⟨hf, fun _ => rfl⟩
  consistent := hc.remove uri
  filed h u f hu := by
    by_cases he : uri = u
    · subst he
      cases (IndexState.file?_remove_self _ _).symm.trans hu
    · exact h u f ((congrArg Prod.fst (IndexState.view_remove _ he)).symm.trans hu)
  others u hu := IndexState.agreeAt_remove _ (Ne.symm hu)
  unverified := hc.unverified_remove uri
  current f hfile := by
    cases (IndexState.file?_remove_self x.repository.state uri).symm.trans hfile

theorem markVerified (hf : x.documents.Faithful services) (hc : x.repository.state.Consistent)
    {text : String} (hs : x.source services uri = .ok text)
    (hcurrent : x.isCurrent uri (services.digest text) = true) :
    Checked services x uri { x with repository := x.repository.markVerified uri } where
  texts := ⟨hf, fun _ => rfl⟩
  consistent := hc.markVerified uri
  filed h := h
  others u hu := IndexState.agreeAt_markVerified _ (Ne.symm hu)
  unverified := rfl
  current f hfile := by
    obtain ⟨old, hold, hhash⟩ := exists_of_isCurrent hcurrent
    obtain rfl := Option.some.inj (hold.symm.trans hfile)
    exact ⟨text, hs, hhash⟩

theorem publish (hc : x.repository.state.Consistent) {text : String} {documents : Documents}
    (hd : SameTexts services x { x with documents := documents })
    (hs : x.source services tree.uri = .ok text) :
    Checked services x tree.uri
      ({ x with documents := documents }.publish tree (services.digest text)).2 where
  texts := ⟨hd.faithful, hd.texts⟩
  consistent := hc.replace _
  filed h u f hu := by
    have hview := IndexState.view_replace x.repository.state (collect tree (services.digest text) 0) u
    split at hview
    · next he =>
      obtain rfl := Option.some.inj ((congrArg Prod.fst hview).symm.trans hu)
      exact ⟨he, collect_local tree _ 0⟩
    · exact h u f ((congrArg Prod.fst hview).symm.trans hu)
  others u hu := IndexState.agreeAt_replace _ _ (Ne.symm hu)
  unverified := rfl
  current f hfile := by
    have hview := (IndexState.view_replace x.repository.state
      (collect tree (services.digest text) 0) tree.uri).trans (if_pos rfl)
    obtain rfl := Option.some.inj ((congrArg Prod.fst hview).symm.trans hfile)
    exact ⟨text, hs, rfl⟩

end Checked

theorem checked_ensureFresh (hlabel : services.Labels) (hf : x.documents.Faithful services)
    (hc : x.repository.state.Consistent) (ha : services.accepts uri = true)
    (hu : x.repository.state.isVerified uri = false) :
    Checked services x uri (x.ensureFresh services uri) := by
  have h := indexes hf uri
  simp only [ensureFresh, hu, Bool.false_eq_true, if_false]
  generalize x.index services uri = done at h ⊢
  obtain ⟨outcome, y⟩ := done
  cases h with
  | skipped hno => simp [ha] at hno
  | unreadable | unparsable => exact .remove hf hc uri
  | unchanged _ hs hcurrent => exact .markVerified hf hc hs hcurrent
  | @published text tree _ _ _ _ hs _ hp hd hy =>
    obtain rfl := hlabel uri text tree hp
    cases hy
    exact .publish hc hd hs

theorem ensureFresh_of_not_accepts (ha : services.accepts uri = false) :
    x.ensureFresh services uri = x := by
  unfold ensureFresh
  split
  · rfl
  · simp [index, ha]

end Indexer

namespace Server

inductive Resolves (services : Services ε) (x : Indexer) (tree : Tree) (target : Nat) :
    Option Definition → Indexer → Prop where
  | first {found : Option Definition} (h : definitionAt? x tree target = found)
      (hv : ∀ d ∈ found, x.repository.state.isVerified d.uri = true) :
      Resolves services x tree target found x
  | second {hit : Definition} {found : Option Definition} {y : Indexer}
      (h : definitionAt? x tree target = some hit)
      (hv : x.repository.state.isVerified hit.uri = false)
      (hy : x.ensureFresh services hit.uri = y) (hfound : definitionAt? y tree target = found) :
      Resolves services x tree target found y

theorem resolves (services : Services ε) (x : Indexer) (tree : Tree) (target : Nat) :
    Resolves services x tree target (resolve services x tree target).1
      (resolve services x tree target).2 := by
  unfold resolve
  cases h : definitionAt? x tree target with
  | none => exact .first h (by simp)
  | some hit =>
    cases hv : x.repository.state.isVerified hit.uri with
    | true => simpa [hv] using .first h (by simp [hv])
    | false => simpa [hv] using .second h hv rfl rfl

theorem file_of_definitionAt? (h : x.repository.state.Filed)
    (hd : definitionAt? x tree target = some d) :
    ∃ f, x.repository.state.file? d.uri = some f ∧ d ∈ f.definitions :=
  h.file_of_definition? (IndexState.definition?_of_lookup? hd)

structure AnswersFrom (services : Services ε) (x : Indexer) (tree : Tree) (target : Nat)
    (d : Definition) (y : Indexer) : Prop where
  declared : ∃ f, y.repository.state.file? d.uri = some f ∧ d ∈ f.definitions
  unverified_iff : y.repository.state.isVerified d.uri = false ↔
    x.repository.state.isVerified d.uri = false ∧ ∃ hit, definitionAt? x tree target = some hit ∧
      (hit.uri = d.uri → services.accepts d.uri = false)
  checked : x.repository.state.isVerified d.uri = false →
    y.repository.state.isVerified d.uri = true →
    ∀ f, y.repository.state.file? d.uri = some f →
      ∃ text, x.source services d.uri = .ok text ∧ f.contentHash = services.digest text

def asked (services : Services ε) (tree : Tree) (target : Nat) : Nat → Indexer → Indexer
  | 0, x => x
  | n + 1, x => asked services tree target n (resolve services x tree target).2

theorem asked_of_stable (h : (resolve services x tree target).2 = x) (n : Nat) :
    asked services tree target n x = x := by
  induction n with
  | zero => rfl
  | succ n ih => rw [asked, h, ih]

structure Askable (services : Services ε) (x : Indexer) : Prop where
  faithful : x.documents.Faithful services
  consistent : x.repository.state.Consistent
  accepted : ∀ uri, x.repository.state.isVerified uri = false → services.accepts uri = true

section Labelled

variable (hlabel : services.Labels)

include hlabel

theorem Resolves.answersFrom (h : Resolves services x tree target (some d) y)
    (hf : x.documents.Faithful services) (hc : x.repository.state.Consistent)
    (hfiled : x.repository.state.Filed) : AnswersFrom services x tree target d y := by
  cases h with
  | first h hv =>
    have hd : x.repository.state.isVerified d.uri = true := hv d rfl
    exact
      { declared := file_of_definitionAt? hfiled h
        unverified_iff := by simp [hd]
        checked := fun hno => by simp [hd] at hno }
  | @second hit _ _ h hv hy hfound =>
    cases ha : services.accepts hit.uri with
    | false =>
      obtain rfl : x = y := (Indexer.ensureFresh_of_not_accepts ha).symm.trans hy
      obtain rfl := Option.some.inj (h.symm.trans hfound)
      exact
        { declared := file_of_definitionAt? hfiled h
          unverified_iff := by simp [h, hv, ha]
          checked := fun hno hyes => by simp [hno] at hyes }
    | true =>
      have hx : Indexer.Checked services x hit.uri y :=
        hy ▸ Indexer.checked_ensureFresh hlabel hf hc ha hv
      have hdeclared := file_of_definitionAt? (hx.filed hfiled) hfound
      by_cases hu : hit.uri = d.uri
      · refine ⟨hdeclared, ?_, fun _ _ => hu ▸ hx.current⟩
        simp [← hu, hx.isVerified, h, ha]
      · have hsame : y.repository.state.isVerified d.uri = x.repository.state.isVerified d.uri :=
          (hx.others d.uri (Ne.symm hu)).2
        refine ⟨hdeclared, by simp [hsame, h, hu], fun hno hyes => ?_⟩
        simp [hsame, hno] at hyes

theorem Resolves.verified_or_progress {found : Option Definition}
    (h : Resolves services x tree target found y) (hx : Askable services x) :
    (y = x ∧ ∀ d ∈ found, y.repository.state.isVerified d.uri = true) ∨
      Askable services y ∧
        y.repository.state.unverified.size < x.repository.state.unverified.size := by
  cases h with
  | first _ hv => exact .inl ⟨rfl, hv⟩
  | @second hit _ _ _ hv hy =>
    have hchecked : Indexer.Checked services x hit.uri y :=
      hy ▸ Indexer.checked_ensureFresh hlabel hx.faithful hx.consistent (hx.accepted _ hv) hv
    refine .inr ⟨⟨hchecked.texts.faithful, hchecked.consistent, fun uri hu => ?_⟩, ?_⟩
    · have hne : uri ≠ hit.uri := by
        rintro rfl
        simp [hchecked.isVerified] at hu
      exact hx.accepted uri ((hchecked.others uri hne).2.symm.trans hu)
    · rw [hchecked.unverified]
      exact IndexState.size_erase_unverified hv

theorem verified_of_asked (hx : Askable services x) {n : Nat}
    (hn : x.repository.state.unverified.size ≤ n)
    (h : resolve services (asked services tree target n x) tree target = (some d, y)) :
    y.repository.state.isVerified d.uri = true := by
  induction n generalizing x with
  | zero =>
    have hstep := resolves services x tree target
    rw [show resolve services x tree target = (some d, y) from h] at hstep
    obtain ⟨-, hv⟩ | ⟨-, hless⟩ := hstep.verified_or_progress hlabel hx
    · exact hv d rfl
    · omega
  | succ n ih =>
    have hstep := resolves services x tree target
    obtain ⟨hsame, hv⟩ | ⟨hnext, hless⟩ := hstep.verified_or_progress hlabel hx
    · rw [asked_of_stable hsame] at h
      rw [h] at hv
      exact hv d rfl
    · exact ih hnext (by omega) h

end Labelled

theorem answer_checked_unless_second_hit (services : Services ε) (ms : List Mutation)
    (edits : List Edit) (tree : Tree) (target : Nat) (hlabel : services.Labels)
    (hl : ∀ f ∈ (Repository.empty.run ms).state.files, f.Local) :
    let x : Indexer :=
      ⟨Repository.empty.run ms, edits.foldl (Documents.edit services) Documents.empty⟩
    (∀ d y, resolve services x tree target = (some d, y) →
        AnswersFrom services x tree target d y) ∧
      ((∀ uri, x.repository.state.isVerified uri = false → services.accepts uri = true) →
        ∀ n, x.repository.state.unverified.size ≤ n → ∀ d y,
          resolve services (asked services tree target n x) tree target = (some d, y) →
          y.repository.state.isVerified d.uri = true) := by
  intro x
  have hf : x.documents.Faithful services := Documents.faithful_edits services edits
  have hc : x.repository.state.Consistent := Repository.consistent_run_empty ms
  refine ⟨fun d y h => ?_, fun ha n hn d y h => verified_of_asked hlabel ⟨hf, hc, ha⟩ hn h⟩
  have hresolves := resolves services x tree target
  rw [h] at hresolves
  exact hresolves.answersFrom hlabel hf hc (hc.filed hl)

def restoredTwice (word : String) : List Mutation :=
  [.restore ⟨snapshotVersion, [wordRecord "file:///a.php" word, wordRecord "file:///b.php" word]⟩]

theorem answer_checked_unless_second_hit_twice :
    let x : Indexer := ⟨Repository.empty.run (restoredTwice "same"), .empty⟩
    let tree := wordTree "file:///c.php" "same"
    ∃ d y, resolve wordServices (asked wordServices tree 1 2 x) tree 1 = (some d, y) ∧
      d.uri = "file:///b.php" ∧ y.repository.state.isVerified d.uri = true ∧
      ∃ first z, resolve wordServices x tree 1 = (some first, z) ∧ first.uri = "file:///b.php" ∧
        ∃ f, z.repository.state.file? first.uri = some f ∧ first ∈ f.definitions := by
  intro x tree
  have hl : ∀ f ∈ (Repository.empty.run (restoredTwice "same")).state.files, f.Local := by
    rw [Repository.files_run_empty]
    decide +kernel
  have haccepted : ∀ uri, x.repository.state.isVerified uri = false →
      wordServices.accepts uri = true := by
    intro uri hu
    by_contra hno
    obtain rfl : uri = "file:///s.txt" := by simpa [wordServices] using hno
    rw [show x.repository.state.isVerified "file:///s.txt" = true by decide +kernel] at hu
    cases hu
  obtain ⟨hanswer, hasked⟩ :=
    answer_checked_unless_second_hit wordServices (restoredTwice "same") [] tree 1 labels_wordServices hl
  generalize hlast : resolve wordServices (asked wordServices tree 1 2 x) tree 1 = last
  generalize hnow : resolve wordServices x tree 1 = now
  have hlasturi : last.1.map Definition.uri = some "file:///b.php" := by
    rw [← hlast]
    decide +kernel
  have hnowuri : now.1.map Definition.uri = some "file:///b.php" := by
    rw [← hnow]
    decide +kernel
  obtain ⟨found, y⟩ := last
  obtain ⟨found', z⟩ := now
  obtain ⟨d, rfl, hd⟩ := Option.map_eq_some_iff.mp hlasturi
  obtain ⟨first, rfl, hfirst⟩ := Option.map_eq_some_iff.mp hnowuri
  have hsize : x.repository.state.unverified.size ≤ 2 := by decide +kernel
  exact ⟨d, y, rfl, hd, hasked haccepted 2 hsize d y hlast, first, z, rfl, hfirst,
    (hanswer first z hnow).declared⟩

theorem answer_from_unchecked_file :
    let x : Indexer := ⟨Repository.empty.run (restoredTwice "old"), .empty⟩
    let done := resolve wordServices x (wordTree "file:///c.php" "old") 1
    done.1.map Definition.uri = some "file:///b.php" ∧
      done.2.repository.state.isVerified "file:///b.php" = false ∧
      (done.2.repository.state.file? "file:///b.php").map File.contentHash = some "old" ∧
      (done.2.source wordServices "file:///b.php").toOption = some "same" := by
  decide +kernel

end Server

end SemanticIndex
