import SemanticIndex.Proofs.Sweep.Repetition
import SemanticIndex.Sync.Watch

namespace SemanticIndex

variable {ε : Type} {services : Services ε} {x y z : Indexer} {d : Documents}
  {uri u text : String}

structure Services.Reliable (services : Services ε) : Prop where
  digest_injective : Function.Injective services.digest
  parse_ok : ∀ uri text, ∃ tree, services.parse uri text = .ok tree ∧ tree.uri = uri

theorem Services.Reliable.label (hr : services.Reliable) {tree : Tree}
    (hp : services.parse uri text = .ok tree) : tree.uri = uri := by
  obtain ⟨other, hother, huri⟩ := hr.parse_ok uri text
  obtain rfl := Except.ok.inj (hp.symm.trans hother)
  exact huri

def Services.reading (services : Services ε) (read : String → Except ε String) : Services ε :=
  { services with read := read }

theorem Services.Reliable.reading (hr : services.Reliable) (read : String → Except ε String) :
    (services.reading read).Reliable :=
  ⟨hr.digest_injective, hr.parse_ok⟩

structure Indexer.Owned (services : Services ε) (x : Indexer) : Prop where
  faithful : x.documents.Faithful services
  certified : ∀ {uri f}, x.repository.state.file? uri = some f →
    f.uri = uri ∧ Sweep.Certified services f
  fresh : ∀ {uri text}, services.accepts uri = true → x.documents.text? uri = some text →
    Sweep.Fresh services x uri text

namespace Sweep

theorem Fresh.congr (h : Fresh services y uri text)
    (hv : z.repository.state.view uri = y.repository.state.view uri) :
    Fresh services z uri text := by
  obtain ⟨f, tree, hview, hrest⟩ := h
  exact ⟨f, tree, hv.trans hview, hrest⟩

theorem Fresh.certified (hr : services.Reliable) (h : Fresh services y uri text) {f : File}
    (hf : y.repository.state.file? uri = some f) : f.uri = uri ∧ Certified services f := by
  obtain ⟨g, tree, hview, hp, hdigest, hbody⟩ := h
  obtain rfl : g = f := Option.some.inj ((congrArg Prod.fst hview).symm.trans hf)
  have huri : g.uri = uri := (congrArg File.uri hbody).trans (hr.label hp)
  exact ⟨huri, text, tree, by rwa [huri], hdigest.symm, hbody⟩

theorem index_settled (hx : Sound services x) (hd : x.documents.Faithful services) (uri : String) :
    Settled services x (x.index services uri).2 uri (x.index services uri).1 ∧
      SameTexts services x (x.index services uri).2 ∧
      ∀ u ≠ uri, (x.index services uri).2.repository.state.view u = x.repository.state.view u := by
  obtain ⟨actions, hrun⟩ := run?_index services 1 x uri [] []
  have hbegin : Going services x [uri] ⟨x, [uri], [], []⟩ :=
    ⟨by simp, ⟨hd, fun _ => rfl⟩, fun _ _ => rfl, by simp, by simp⟩
  have hend := run?_induction (fun hstep ht => ht.step hx (List.nodup_singleton uri) hstep)
    hbegin hrun
  exact ⟨hend.settled (uri, _) (by simp), hend.documents, fun u hu => hend.untouched u (by simpa)⟩

end Sweep

namespace Indexer

open Sweep

theorem source_of_text? (h : x.documents.text? uri = some text) :
    x.source services uri = .ok text := by
  rw [source_eq, h]

theorem text?_of_source_error {e : ε} (h : x.source services uri = .error e) :
    x.documents.text? uri = none := by
  rw [source_eq] at h
  cases ht : x.documents.text? uri with
  | none => rfl
  | some text => simp [ht] at h

theorem owned_reading {read : String → Except ε String} :
    Owned (services.reading read) x ↔ Owned services x :=
  ⟨fun h => ⟨h.faithful, h.certified, h.fresh⟩, fun h => ⟨h.faithful, h.certified, h.fresh⟩⟩

namespace Owned

theorem sound (h : Owned services x) (hr : services.Reliable) : Sound services x :=
  ⟨hr.digest_injective, hr.parse_ok, h.certified⟩

theorem congr (h : Owned services x) (hd : SameTexts services x y)
    (hs : y.repository.state = x.repository.state) : Owned services y where
  faithful := hd.faithful
  certified hf := h.certified (hs ▸ hf)
  fresh ha ht := (h.fresh ha ((hd.texts _).symm.trans ht)).congr (by rw [hs])

theorem of_repository {r : Repository} (h : Owned services x) (hs : r.state = x.repository.state) :
    Owned services { x with repository := r } :=
  h.congr ⟨h.faithful, fun _ => rfl⟩ hs

theorem index_edited (hr : services.Reliable) (h : Owned services x)
    (hd : d.Faithful services) (ht : ∀ u ≠ uri, d.text? u = x.documents.text? u) :
    Owned services (index { x with documents := d } services uri).2 := by
  obtain ⟨hsettled, htexts, hothers⟩ :=
    index_settled (x := { x with documents := d }) ⟨hr.digest_injective, hr.parse_ok, h.certified⟩
      hd uri
  generalize (index { x with documents := d } services uri).2 = y at hsettled htexts hothers ⊢
  have hcases := hsettled.fresh_or_untouched
  refine ⟨htexts.faithful, fun {u f} hf => ?_, fun {u text} ha htext => ?_⟩
  · by_cases hu : u = uri
    · subst hu
      rcases hcases with ⟨-, text, -, hfresh⟩ | ⟨-, hview⟩
      · exact hfresh.certified hr hf
      · exact h.certified ((congrArg Prod.fst hview).symm.trans hf)
    · exact h.certified ((congrArg Prod.fst (hothers u hu)).symm.trans hf)
  · rw [htexts.texts] at htext
    by_cases hu : u = uri
    · subst hu
      have hs : source { x with documents := d } services u = .ok text := source_of_text? htext
      rcases hcases with ⟨-, other, hother, hfresh⟩ | ⟨hno, -⟩
      · obtain rfl := Except.ok.inj (hs.symm.trans hother)
        exact hfresh
      · exact absurd ⟨ha, readable_iff.mpr ⟨text, hs⟩⟩ hno
    · exact (h.fresh ha ((ht u hu).symm.trans htext)).congr (hothers u hu)

theorem index (hr : services.Reliable) (h : Owned services x) (uri : String) :
    Owned services (x.index services uri).2 :=
  h.index_edited hr h.faithful fun _ _ => rfl

theorem remove_edited (h : Owned services x) (hd : d.Faithful services)
    (ht : ∀ u ≠ uri, d.text? u = x.documents.text? u) (hclosed : d.text? uri = none) :
    Owned services (remove { x with documents := d } uri) := by
  have hothers {u : String} (hu : u ≠ uri) : (x.repository.state.remove uri).view u = _ :=
    IndexState.view_remove x.repository.state (Ne.symm hu)
  refine ⟨hd, fun {u f} hf => ?_, fun {u text} ha htext => ?_⟩
  · have hu : u ≠ uri := by
      rintro rfl
      cases (IndexState.file?_remove_self x.repository.state u).symm.trans hf
    exact h.certified ((congrArg Prod.fst (hothers hu)).symm.trans hf)
  · have hopen : d.text? u = some text := htext
    have hu : u ≠ uri := by
      rintro rfl
      cases hclosed.symm.trans hopen
    exact (h.fresh ha ((ht u hu).symm.trans hopen)).congr (hothers hu)

theorem remove (h : Owned services x) (hclosed : x.documents.text? uri = none) :
    Owned services (x.remove uri) :=
  h.remove_edited h.faithful (fun _ _ => rfl) hclosed

theorem removeAll (h : Owned services x) {uris : List String}
    (hclosed : ∀ u ∈ uris, x.documents.text? u = none) : Owned services (x.removeAll uris) := by
  induction uris generalizing x with
  | nil => exact h
  | cons u uris ih =>
    exact ih (h.remove (hclosed u List.mem_cons_self))
      fun v hv => hclosed v (List.mem_cons_of_mem u hv)

theorem ensureFresh (hr : services.Reliable) (h : Owned services x) (uri : String) :
    Owned services (x.ensureFresh services uri) := by
  have hindex := h.index hr uri
  obtain ⟨hsettled, htexts, -⟩ := index_settled (h.sound hr) h.faithful uri
  unfold Indexer.ensureFresh
  split
  · exact h
  · split
    · next heq => simpa only [heq] using hindex
    · next e y heq =>
      simp only [heq] at hindex hsettled htexts
      exact hindex.remove ((htexts.texts uri).trans (text?_of_source_error hsettled.2.1))

theorem tree (hr : services.Reliable) (h : Owned services x) (uri : String) :
    Owned services (x.tree services uri).2 := by
  cases hs : x.source services uri with
  | ok text =>
    obtain ⟨tree, hp, -⟩ := hr.parse_ok uri text
    obtain ⟨d, htree, hd, ht⟩ := tree_eq h.faithful hs hp
    rw [htree]
    exact h.congr ⟨hd, ht⟩ rfl
  | error e =>
    have htree : x.tree services uri = (.error e, x) := by
      unfold source at hs
      unfold Indexer.tree
      split at hs
      · cases hs
      · simp only [hs]
    rwa [htree]

theorem markVerified (h : Owned services x) (uri : String) :
    Owned services { x with repository := x.repository.markVerified uri } := by
  refine ⟨h.faithful, h.certified, fun {u text} ha ht => ?_⟩
  obtain ⟨f, tree, hview, hrest⟩ := h.fresh ha ht
  have hmarked : (x.repository.state.markVerified uri).view u = _ :=
    IndexState.view_markVerified x.repository.state uri u
  split at hmarked
  · exact ⟨f, tree, hmarked.trans (congrArg (·, true) (congrArg Prod.fst hview)), hrest⟩
  · exact ⟨f, tree, hmarked.trans hview, hrest⟩

theorem publish (hr : services.Reliable) (h : Owned services x) {tree : Tree}
    (hs : x.source services uri = .ok text) (hp : services.parse uri text = .ok tree) :
    Owned services (x.publish tree (services.digest text)).2 := by
  have hfresh : Fresh services (x.publish tree (services.digest text)).2 uri text :=
    fresh_publish (h.sound hr) hp
  have hothers {u : String} (hu : u ≠ uri) := (view_publish x tree (services.digest text) u).trans
    (if_neg fun he => hu (he.symm.trans (hr.label hp)))
  refine ⟨h.faithful, fun {u f} hf => ?_, fun {u other} ha ht => ?_⟩
  · by_cases hu : u = uri
    · subst hu
      exact hfresh.certified hr hf
    · exact h.certified ((congrArg Prod.fst (hothers hu)).symm.trans hf)
  · by_cases hu : u = uri
    · subst hu
      obtain rfl := Except.ok.inj (hs.symm.trans (source_of_text? ht))
      exact hfresh
    · exact (h.fresh ha ht).congr (hothers hu)

theorem follow (hr : services.Reliable) (h : Owned services x) (w : Watch) (change : Change)
    (path : String) : Owned services (w.follow services change x path) := by
  unfold Watch.follow
  split
  · exact h
  · next uri _ =>
    split
    · exact h
    · next hclosed =>
      split
      · exact h.index hr uri
      · refine h.remove ?_
        simpa [Documents.isOpen_eq] using hclosed
      · exact h

theorem followAll (hr : services.Reliable) (h : Owned services x) (w : Watch) (change : Change)
    (paths : List String) : Owned services (w.followAll services change paths x) := by
  unfold Watch.followAll
  induction paths generalizing x with
  | nil => exact h
  | cons path paths ih => exact ih (h.follow hr w change path)

theorem work_goesOn {phase next : Phase} (h : Owned services y) (hk : Knows services y uri phase)
    (hwork : work services y uri phase = (.goesOn next, z)) : Owned services z := by
  obtain ⟨-, hrepo, hd⟩ := knows_of_goesOn h.faithful hk hwork
  exact h.congr hd (by rw [hrepo])

theorem work_ends (hr : services.Reliable) {phase : Phase} {outcome : Except ε Outcome}
    (h : Owned services y) (hk : Knows services y uri phase)
    (hwork : work services y uri phase = (.ends outcome, z)) : Owned services z := by
  cases phase with
  | queued =>
    simp only [work] at hwork
    split at hwork
    · cases hwork
      exact h
    · split at hwork <;> cases hwork
      exact h
  | loaded text =>
    simp only [work] at hwork
    split at hwork <;> cases hwork
  | matching =>
    cases hwork
    exact h.markVerified uri
  | differing text =>
    have htree := h.tree hr uri
    simp only [work] at hwork
    split at hwork
    · next heq =>
      cases hwork
      simpa only [heq] using htree
    · cases hwork
  | parsed tree digest =>
    obtain ⟨-, text, hs, hp, rfl⟩ := hk
    cases hwork
    exact h.publish hr hs hp

theorem sweep_step (hr : services.Reliable) {limit : Nat} {s s' : State ε}
    (hset : Settling services x s) (h : Owned services s.indexer)
    (hstep : Step services limit s s') : Owned services s'.indexer := by
  cases hstep with
  | start => exact h
  | @goOn y z waiting front rest uri phase next outcomes hwork =>
    exact h.work_goesOn (hset.knows (uri, phase) (by simp)) hwork
  | @finish y z waiting front rest uri phase outcomes outcome hwork =>
    exact h.work_ends hr (hset.knows (uri, phase) (by simp)) hwork

theorem conclude {s : State ε} (h : Owned services s.indexer) :
    Owned services (Sweep.conclude s).indexer := by
  have hclosed : ∀ u ∈ s.indexer.stale (s.outcomes.map Prod.fst),
      s.indexer.documents.text? u = none := fun u hu => by
    simpa [Documents.isOpen_eq] using (mem_stale.mp hu).2.2
  exact (h.removeAll hclosed).of_repository (Repository.state_markComplete _)

theorem sweeps (hr : services.Reliable) (h : Owned services x) {limit : Nat} {found : List String}
    {swept : Swept ε} (hsweep : Sweeps services limit x found swept) :
    Owned services swept.indexer := by
  obtain ⟨actions, s, hrun, -, rfl⟩ := hsweep
  have hbegin : Owned services (begin x found : State ε).indexer :=
    h.of_repository (Repository.state_beginIndexing _)
  have hend : Settling services x s ∧ Owned services s.indexer :=
    run?_induction (P := fun s => Settling services x s ∧ Owned services s.indexer)
      (fun hstep ht => ⟨ht.1.step (fun _ _ _ => hr.label) hstep, ht.2.sweep_step hr ht.1 hstep⟩)
      ⟨settling_begin h.faithful, hbegin⟩ hrun
  exact hend.2.conclude

end Owned

end Indexer

end SemanticIndex
