import SemanticIndex.Proofs.Sync.Locking

namespace SemanticIndex.Locking

open Sweep (Certified Fresh)

variable {ε : Type} {services : Services ε} {x y : Indexer} {disk : String → Except ε String}
  {uri : String} {found : Except ε String} {s s' : State ε} {a : Action ε}
  {actions : List (Action ε)}

def Heeds (services : Services ε) (x : Indexer) (uri : String) (found : Except ε String) :
    Option Stage → Prop
  | some .locked => True
  | some (.loaded source) | some (.differing source) => found = .ok source.text
  | some (.matching text) | some (.parsed text _) => found = .ok text
  | some .published | none => ∃ text, found = .ok text ∧ Fresh services x uri text

theorem Heeds.congr {held : Option Stage} (h : Heeds services x uri found held)
    (hv : y.repository.state.view uri = x.repository.state.view uri) :
    Heeds services y uri found held := by
  cases held with
  | none =>
    obtain ⟨text, hfound, hfresh⟩ := h
    exact ⟨text, hfound, hfresh.congr hv⟩
  | some stage =>
    cases stage with
    | published =>
      obtain ⟨text, hfound, hfresh⟩ := h
      exact ⟨text, hfound, hfresh.congr hv⟩
    | _ => exact h

theorem heeds_of_work (hx : Sweep.Sound services x) {stage : Stage} {next : Option Stage}
    (hk : Knows services x uri stage) (hfound : x.source (services.reading disk) uri = found)
    (hreadable : ∃ text, found = .ok text) (h : Heeds services x uri found (some stage))
    (hwork : work services disk x uri stage = (next, y)) : Heeds services y uri found next := by
  cases stage with
  | locked =>
    have hsource := (map_text_load services x disk uri).trans hfound
    simp only [work] at hwork
    split at hwork
    · next hload =>
      obtain ⟨text, rfl⟩ := hreadable
      rw [hload] at hsource
      cases hsource
    · next source hload =>
      cases hwork
      rw [hload] at hsource
      exact hsource.symm
  | loaded source =>
    simp only [work] at hwork
    split at hwork <;> cases hwork <;> exact h
  | matching text =>
    cases hwork
    exact ⟨text, h, Sweep.fresh_markVerified hx rfl hk⟩
  | differing source =>
    obtain ⟨tree, hp, -⟩ := hx.parse_ok uri source.text
    simp only [work, Source.tree_eq hk, hp] at hwork
    cases hwork
    exact h
  | parsed text tree =>
    cases hwork
    exact ⟨text, h, Sweep.fresh_publish hx hk⟩
  | published =>
    cases hwork
    exact h

def Latest (services : Services ε) (s : State ε) (uri : String) : Prop :=
  uri ∈ s.queued ∨ Heeds services s.indexer uri (s.source services uri) (s.locks uri)

theorem Latest.step (hr : services.Reliable) (hs : Sound services s) (hstep : Step services a s s')
    (hsame : s'.source services uri = s.source services uri)
    (hreadable : ∃ text, s.source services uri = .ok text) (h : Latest services s uri) :
    Latest services s' uri := by
  unfold Latest at h ⊢
  rw [hsame]
  cases hstep with
  | edit e => exact h.imp_right fun hh => hh.congr rfl
  | write u found => exact h
  | start ha => exact h.imp_left (List.mem_append_left _)
  | skip ha => exact h
  | @acquire x disk queued locks u hqueued hfree =>
    dsimp only at h ⊢
    by_cases he : uri = u
    · subst he
      refine .inr ?_
      rw [Function.update_self]
      trivial
    · rw [Function.update_of_ne he]
      exact h.imp_left (List.mem_erase_of_ne he).mpr
  | @advance x y disk queued locks u stage next hheld hwork =>
    have hk := hs.knows hheld
    dsimp only at h ⊢
    by_cases he : uri = u
    · subst he
      rw [hheld] at h
      rw [Function.update_self]
      exact h.imp_right fun hh => heeds_of_work (hs.indexer hr) hk rfl hreadable hh hwork
    · rw [Function.update_of_ne he]
      exact h.imp_right fun hh => hh.congr ((work_frame hr hk hwork).2 uri he)

def StaysReadable (services : Services ε) (s : State ε) (uri : String)
    (actions : List (Action ε)) : Prop :=
  ∀ front t, front <+: actions → run? services s front = some t →
    ∃ text, t.source services uri = .ok text

def ChangesFollowed (services : Services ε) (s : State ε) (uri : String)
    (actions : List (Action ε)) : Prop :=
  ∀ front a rest t t', actions = front ++ a :: rest → run? services s front = some t →
    step? services t a = some t' → t'.source services uri ≠ t.source services uri →
    .start uri ∈ rest

theorem ChangesFollowed.front (h : ChangesFollowed services s uri (actions ++ [a]))
    (ha : a ≠ .start uri) : ChangesFollowed services s uri actions := by
  rintro front b rest t t' rfl hrun hstep hne
  have hmem := h front b (rest ++ [a]) t t' (by simp) hrun hstep hne
  rcases List.mem_append.mp hmem with hmem | hmem
  · exact hmem
  · exact absurd (List.mem_singleton.mp hmem).symm ha

theorem latest_run? (hr : services.Reliable) (haccepts : services.accepts uri = true)
    (hs : Sound services s) (hrun : run? services s actions = some s')
    (hreadable : StaysReadable services s uri actions)
    (hfollowed : ChangesFollowed services s uri actions) (hstart : .start uri ∈ actions) :
    Latest services s' uri := by
  induction actions using List.reverseRecOn generalizing s' with
  | nil => cases hstart
  | append_singleton front a ih =>
    obtain ⟨t, ht, hstep?⟩ := run?_concat.mp hrun
    have hstep := step_of_step? hstep?
    by_cases ha : a = .start uri
    · subst ha
      cases hstep with
      | start => exact .inl (by simp)
      | skip hrejects =>
        rw [haccepts] at hrejects
        cases hrejects
    · have hsame : s'.source services uri = t.source services uri := by
        by_contra hne
        cases hfollowed front a [] t s' rfl ht hstep? hne
      have hmem : .start uri ∈ front := by simpa [Ne.symm ha] using hstart
      have hlatest : Latest services t uri :=
        ih ht (fun f u hf => hreadable f u (hf.trans (List.prefix_append front [a])))
          (hfollowed.front ha) hmem
      exact hlatest.step hr (hs.run? hr ht) hstep hsame
        (hreadable front t (List.prefix_append front [a]) ht)

theorem last_write_wins (services : Services ε) (ms : List Mutation) (edits : List Edit)
    (disk : String → Except ε String) (uri : String)
    (hdigest : Function.Injective services.digest)
    (hparse : ∀ uri text, ∃ tree, services.parse uri text = .ok tree ∧ tree.uri = uri)
    (hcert : ∀ f ∈ (Repository.empty.run ms).state.files, Certified services f)
    (haccepts : services.accepts uri = true) :
    let x : Indexer :=
      ⟨Repository.empty.run ms, edits.foldl (Documents.edit services) Documents.empty⟩
    (∃ actions, run? services (begin x disk) actions =
        some (begin (x.index (services.reading disk) uri).2 disk)) ∧
      ∀ actions s, run? services (begin x disk) actions = some s →
        StaysReadable services (begin x disk) uri actions →
        ChangesFollowed services (begin x disk) uri actions →
        .start uri ∈ actions → uri ∉ s.queued → s.locks uri = none →
        ∃ text tree f, s.source services uri = .ok text ∧ services.parse uri text = .ok tree ∧
          s.indexer.repository.state.file? uri = some f ∧
          s.indexer.repository.state.isVerified uri = true ∧
          f.body = (collect tree "" 0).body := by
  intro x
  have hr : services.Reliable := ⟨hdigest, hparse⟩
  have hbegin : Sound services (begin x disk) :=
    sound_begin (Sweep.sound_run hdigest hparse hcert) (Documents.faithful_edits services edits) disk
  refine ⟨exists_run?_index services x disk uri, ?_⟩
  intro actions s hrun hreadable hfollowed hstart hqueued hfree
  obtain hmem | hheeds := latest_run? hr haccepts hbegin hrun hreadable hfollowed hstart
  · exact absurd hmem hqueued
  · rw [hfree] at hheeds
    obtain ⟨text, hsource, f, tree, hview, hp, -, hbody⟩ := hheeds
    exact ⟨text, tree, f, hsource, hp, congrArg Prod.fst hview, congrArg Prod.snd hview, hbody⟩

theorem last_write_wins_overtaken :
    let uri := "file:///a.php"
    let kept := Sweep.wordRecord uri "old"
    let x : Indexer :=
      ⟨Repository.empty.run [.restore ⟨snapshotVersion, [kept]⟩], Documents.empty⟩
    let actions : List (Action String) :=
      [.start uri, .acquire uri, .advance uri, .write uri (.ok "newer"), .start uri, .advance uri,
       .advance uri, .advance uri, .acquire uri, .advance uri, .edit (.put uri 1 "newest"),
       .advance uri, .start uri, .advance uri, .advance uri, .advance uri, .acquire uri,
       .advance uri, .advance uri, .advance uri, .advance uri, .advance uri]
    ∃ s f, run? Sweep.wordServices (begin x fun _ => .ok "old") actions = some s ∧
      s.indexer.repository.state.file? uri = some f ∧
      f.definitions.map Definition.name = ["newest"] := by
  intro uri kept x actions
  let s₀ : State String := begin x fun _ => .ok "old"
  let run (actions : List (Action String)) := run? Sweep.wordServices s₀ actions
  have hfinal : (run actions).map (fun s =>
      (s.queued, (s.locks uri).isNone, s.source Sweep.wordServices uri)) =
      some ([], true, .ok "newest") := by decide +kernel
  obtain ⟨s, hrun, hs⟩ := Option.map_eq_some_iff.mp hfinal
  simp only [Prod.mk.injEq, Option.isNone_iff_eq_none] at hs
  obtain ⟨hqueued, hfree, hsource⟩ := hs
  have hreadable : StaysReadable Sweep.wordServices s₀ uri actions := by
    have hall : ∀ n ≤ actions.length, ((run (actions.take n)).map fun t =>
        (t.source Sweep.wordServices uri).isOk) = some true := by decide +kernel
    intro front t hfront ht
    have hok := hall front.length hfront.length_le
    rw [← List.prefix_iff_eq_take.mp hfront, show run front = some t from ht] at hok
    cases hfound : t.source Sweep.wordServices uri with
    | ok text => exact ⟨text, rfl⟩
    | error e => simp [hfound, Except.isOk, Except.toBool] at hok
  have hfollowed : ChangesFollowed Sweep.wordServices s₀ uri actions := by
    have hall : ∀ n < actions.length, .start uri ∈ actions.drop (n + 1) ∨
        ((run (actions.take n)).bind fun t => (run (actions.take (n + 1))).map fun t' =>
          decide (t'.source Sweep.wordServices uri = t.source Sweep.wordServices uri)) =
          some true := by decide +kernel
    intro front a rest t t' hactions ht hstep hne
    have hnext : run (front ++ [a]) = some t' := run?_concat.mpr ⟨t, ht, hstep⟩
    have hcheck := hall front.length (by rw [hactions]; simp)
    rw [hactions, List.take_left, ← List.singleton_append, ← List.append_assoc,
      show front.length + 1 = (front ++ [a]).length by simp, List.take_left, List.drop_left,
      hnext, show run front = some t from ht] at hcheck
    rcases hcheck with hmem | hsame
    · exact hmem
    · exact absurd (by simpa using hsame) hne
  have hcert : ∀ f ∈ (Repository.empty.run [.restore ⟨snapshotVersion, [kept]⟩]).state.files,
      Certified Sweep.wordServices f := by
    have hfiles : (Repository.empty.run [.restore ⟨snapshotVersion, [kept]⟩]).state.files =
        [kept] := by
      rw [Repository.files_run_empty]
      decide +kernel
    rw [hfiles, List.forall_mem_singleton]
    exact ⟨"old", _, rfl, rfl, rfl⟩
  obtain ⟨-, hlast⟩ := last_write_wins Sweep.wordServices
    [.restore ⟨snapshotVersion, [kept]⟩] [] (fun _ => .ok "old") uri Function.injective_id
    (fun uri text => ⟨Sweep.wordTree uri text, rfl, rfl⟩) hcert (by decide)
  obtain ⟨text, tree, f, htext, hp, hfile, -, hbody⟩ :=
    hlast actions s hrun hreadable hfollowed (by decide) (by simp [hqueued]) hfree
  obtain rfl := Except.ok.inj (htext.symm.trans hsource)
  cases hp
  refine ⟨s, f, hrun, hfile, ?_⟩
  rw [show f.definitions = f.body.definitions from rfl, hbody]
  decide +kernel

end SemanticIndex.Locking
