import Mathlib.Data.List.Induction
import Mathlib.Logic.Function.Basic
import SemanticIndex.Proofs.Sync.Overlay

namespace SemanticIndex.Locking

open Sweep (Certified Fresh)

variable {ε : Type} {services : Services ε} {x y : Indexer} {disk : String → Except ε String}
  {uri : String}

inductive Source where
  | overlay (stored : Document)
  | disk (text : String)

namespace Source

def text : Source → String
  | .overlay stored => stored.text
  | .disk text => text

def tree (parse : String → Except ε Tree) : Source → Except ε Tree
  | .overlay stored =>
      match stored.tree with
      | some tree => .ok tree
      | none => parse stored.text
  | .disk text => parse text

def Faithful (services : Services ε) (uri : String) : Source → Prop
  | .overlay stored => ∀ tree, stored.tree = some tree → services.parse uri stored.text = .ok tree
  | .disk _ => True

theorem tree_eq {source : Source} (h : source.Faithful services uri) :
    source.tree (services.parse uri) = services.parse uri source.text := by
  cases source with
  | overlay stored =>
    cases htree : stored.tree with
    | none => simp only [Source.tree, htree, Source.text]
    | some tree => simp only [Source.tree, htree, Source.text, h tree htree]
  | disk text => rfl

end Source

inductive Stage where
  | locked
  | loaded (source : Source)
  | matching (text : String)
  | differing (source : Source)
  | parsed (text : String) (tree : Tree)
  | published

def load (x : Indexer) (disk : String → Except ε String) (uri : String) : Except ε Source :=
  match x.documents.get? uri with
  | some stored => .ok (.overlay stored)
  | none => (disk uri).map .disk

def work (services : Services ε) (disk : String → Except ε String) (x : Indexer) (uri : String) :
    Stage → Option Stage × Indexer
  | .locked =>
      match load x disk uri with
      | .error _ => (none, x)
      | .ok source => (some (.loaded source), x)
  | .loaded source =>
      if x.isCurrent uri (services.digest source.text) then (some (.matching source.text), x)
      else (some (.differing source), x)
  | .matching _ => (some .published, { x with repository := x.repository.markVerified uri })
  | .differing source =>
      match source.tree (services.parse uri) with
      | .error _ => (none, x)
      | .ok tree => (some (.parsed source.text tree), x)
  | .parsed text tree => (some .published, (x.publish tree (services.digest text)).2)
  | .published => (none, x)

structure State (ε : Type) where
  indexer : Indexer
  disk : String → Except ε String
  queued : List String
  locks : String → Option Stage

def begin (x : Indexer) (disk : String → Except ε String) : State ε := ⟨x, disk, [], fun _ => none⟩

def State.source (services : Services ε) (s : State ε) (uri : String) : Except ε String :=
  s.indexer.source (services.reading s.disk) uri

inductive Action (ε : Type) where
  | edit (e : Edit)
  | write (uri : String) (found : Except ε String)
  | start (uri : String)
  | acquire (uri : String)
  | advance (uri : String)
  deriving DecidableEq

def step? (services : Services ε) (s : State ε) : Action ε → Option (State ε)
  | .edit e =>
      some { s with indexer := { s.indexer with documents := s.indexer.documents.edit services e } }
  | .write uri found => some { s with disk := Function.update s.disk uri found }
  | .start uri => some (if services.accepts uri then { s with queued := s.queued ++ [uri] } else s)
  | .acquire uri =>
      if uri ∈ s.queued ∧ (s.locks uri).isNone then
        some { s with
          queued := s.queued.erase uri
          locks := Function.update s.locks uri (some .locked) }
      else none
  | .advance uri =>
      (s.locks uri).map fun stage =>
        let (next, x) := work services s.disk s.indexer uri stage
        { s with indexer := x, locks := Function.update s.locks uri next }

def run? (services : Services ε) (s : State ε) (actions : List (Action ε)) : Option (State ε) :=
  actions.foldlM (step? services) s

inductive Step (services : Services ε) : Action ε → State ε → State ε → Prop where
  | edit {x : Indexer} {disk : String → Except ε String} {queued : List String}
      {locks : String → Option Stage} (e : Edit) :
      Step services (.edit e) ⟨x, disk, queued, locks⟩
        ⟨{ x with documents := x.documents.edit services e }, disk, queued, locks⟩
  | write {x : Indexer} {disk : String → Except ε String} {queued : List String}
      {locks : String → Option Stage} (uri : String) (found : Except ε String) :
      Step services (.write uri found) ⟨x, disk, queued, locks⟩
        ⟨x, Function.update disk uri found, queued, locks⟩
  | start {x : Indexer} {disk : String → Except ε String} {queued : List String}
      {locks : String → Option Stage} {uri : String} (haccepts : services.accepts uri = true) :
      Step services (.start uri) ⟨x, disk, queued, locks⟩ ⟨x, disk, queued ++ [uri], locks⟩
  | skip {s : State ε} {uri : String} (hrejects : services.accepts uri = false) :
      Step services (.start uri) s s
  | acquire {x : Indexer} {disk : String → Except ε String} {queued : List String}
      {locks : String → Option Stage} {uri : String} (hqueued : uri ∈ queued)
      (hfree : locks uri = none) :
      Step services (.acquire uri) ⟨x, disk, queued, locks⟩
        ⟨x, disk, queued.erase uri, Function.update locks uri (some .locked)⟩
  | advance {x y : Indexer} {disk : String → Except ε String} {queued : List String}
      {locks : String → Option Stage} {uri : String} {stage : Stage} {next : Option Stage}
      (hheld : locks uri = some stage) (hwork : work services disk x uri stage = (next, y)) :
      Step services (.advance uri) ⟨x, disk, queued, locks⟩
        ⟨y, disk, queued, Function.update locks uri next⟩

theorem step_of_step? {s s' : State ε} {a : Action ε} (h : step? services s a = some s') :
    Step services a s s' := by
  obtain ⟨x, disk, queued, locks⟩ := s
  cases a with
  | edit e =>
    cases h
    exact .edit e
  | write uri found =>
    cases h
    exact .write uri found
  | start uri =>
    simp only [step?] at h
    split at h <;> cases h
    · next ha => exact .start ha
    · next ha => exact .skip (by simpa using ha)
  | acquire uri =>
    simp only [step?] at h
    split at h <;> cases h
    next hfree => exact .acquire hfree.1 (by simpa using hfree.2)
  | advance uri =>
    obtain ⟨stage, hheld, rfl⟩ := Option.map_eq_some_iff.mp h
    exact .advance hheld rfl

theorem run?_concat {s s' : State ε} {a : Action ε} {actions : List (Action ε)} :
    run? services s (actions ++ [a]) = some s' ↔
      ∃ t, run? services s actions = some t ∧ step? services t a = some s' := by
  simp [run?, List.foldlM_append, Option.bind_eq_some_iff]

theorem map_text_load (services : Services ε) (x : Indexer) (disk : String → Except ε String)
    (uri : String) :
    (load x disk uri).map Source.text = x.source (services.reading disk) uri := by
  unfold load Indexer.source
  cases x.documents.get? uri with
  | some stored => rfl
  | none =>
    cases hd : disk uri with
    | ok text => simp [Services.reading, hd, Except.map, Source.text]
    | error e => simp [Services.reading, hd, Except.map]

theorem faithful_load (hf : x.documents.Faithful services) {source : Source}
    (h : load x disk uri = .ok source) : source.Faithful services uri := by
  unfold load at h
  split at h
  · next stored hget =>
    cases h
    exact fun tree htree => hf uri stored tree hget htree
  · cases hd : disk uri with
    | ok text =>
      rw [hd] at h
      cases h
      trivial
    | error e =>
      rw [hd] at h
      cases h

def Knows (services : Services ε) (x : Indexer) (uri : String) : Stage → Prop
  | .locked | .published => True
  | .loaded source | .differing source => source.Faithful services uri
  | .matching text => x.isCurrent uri (services.digest text) = true
  | .parsed text tree => services.parse uri text = .ok tree

theorem Knows.congr {stage : Stage} (h : Knows services x uri stage)
    (hv : y.repository.state.view uri = x.repository.state.view uri) :
    Knows services y uri stage := by
  cases stage with
  | matching text => exact (Sweep.isCurrent_congr hv _).trans h
  | _ => exact h

theorem work_cases {stage : Stage} {next : Option Stage}
    (h : work services disk x uri stage = (next, y)) :
    y = x ∨
      (∃ text, stage = .matching text ∧ next = some .published ∧
        y = { x with repository := x.repository.markVerified uri }) ∨
      ∃ text tree, stage = .parsed text tree ∧ next = some .published ∧
        y = (x.publish tree (services.digest text)).2 := by
  cases stage with
  | matching text =>
    cases h
    exact .inr (.inl ⟨text, rfl, rfl, rfl⟩)
  | parsed text tree =>
    cases h
    exact .inr (.inr ⟨text, tree, rfl, rfl, rfl⟩)
  | published =>
    cases h
    exact .inl rfl
  | _ =>
    simp only [work] at h
    split at h <;> cases h <;> exact .inl rfl

theorem work_frame (hr : services.Reliable) {stage : Stage} {next : Option Stage}
    (hk : Knows services x uri stage) (h : work services disk x uri stage = (next, y)) :
    y.documents = x.documents ∧
      ∀ u ≠ uri, y.repository.state.view u = x.repository.state.view u := by
  obtain rfl | ⟨text, rfl, -, rfl⟩ | ⟨text, tree, rfl, -, rfl⟩ := work_cases h
  · exact ⟨rfl, fun _ _ => rfl⟩
  · refine ⟨rfl, fun u hu => ?_⟩
    exact (IndexState.view_markVerified _ uri u).trans (if_neg (Ne.symm hu))
  · refine ⟨rfl, fun u hu => ?_⟩
    exact (Sweep.view_publish x tree _ u).trans (if_neg fun he => hu (he.symm.trans (hr.label hk)))

theorem knows_of_work (hf : x.documents.Faithful services) {stage next : Stage}
    (hk : Knows services x uri stage) (h : work services disk x uri stage = (some next, y)) :
    Knows services y uri next := by
  cases stage with
  | locked =>
    simp only [work] at h
    split at h
    · cases h
    · next source hload =>
      cases h
      exact faithful_load hf hload
  | loaded source =>
    simp only [work] at h
    split at h
    · next hc =>
      cases h
      exact hc
    · cases h
      exact hk
  | matching text =>
    cases h
    trivial
  | differing source =>
    simp only [work] at h
    split at h
    · cases h
    · next tree htree =>
      cases h
      exact (Source.tree_eq hk).symm.trans htree
  | parsed text tree =>
    cases h
    trivial
  | published => cases h

structure Sound (services : Services ε) (s : State ε) : Prop where
  faithful : s.indexer.documents.Faithful services
  certified : ∀ {uri f}, s.indexer.repository.state.file? uri = some f →
    f.uri = uri ∧ Certified services f
  knows : ∀ {uri stage}, s.locks uri = some stage → Knows services s.indexer uri stage

section Soundness

variable {s s' : State ε} {a : Action ε}

theorem Sound.indexer (h : Sound services s) (hr : services.Reliable) :
    Sweep.Sound services s.indexer :=
  ⟨hr.digest_injective, hr.parse_ok, h.certified⟩

theorem certified_of_work (hr : services.Reliable) (hx : Sweep.Sound services x) {stage : Stage}
    {next : Option Stage} (hk : Knows services x uri stage)
    (h : work services disk x uri stage = (next, y)) {u : String} {f : File}
    (hf : y.repository.state.file? u = some f) : f.uri = u ∧ Certified services f := by
  by_cases hu : u = uri
  · subst hu
    obtain rfl | ⟨text, rfl, -, rfl⟩ | ⟨text, tree, rfl, -, rfl⟩ := work_cases h
    · exact hx.certified hf
    · exact hx.certified hf
    · exact (Sweep.fresh_publish hx hk).certified hr hf
  · have hview := (work_frame hr hk h).2 u hu
    exact hx.certified ((congrArg Prod.fst hview).symm.trans hf)

theorem Sound.step (hr : services.Reliable) (h : Sound services s) (hs : Step services a s s') :
    Sound services s' := by
  cases hs with
  | edit e => exact ⟨h.faithful.edit e, h.certified, fun hu => (h.knows hu).congr rfl⟩
  | write u found => exact ⟨h.faithful, h.certified, h.knows⟩
  | start ha => exact ⟨h.faithful, h.certified, h.knows⟩
  | skip ha => exact h
  | @acquire x disk queued locks uri hqueued hfree =>
    refine ⟨h.faithful, h.certified, fun {u stage} hu => ?_⟩
    by_cases he : u = uri
    · subst he
      obtain rfl : Stage.locked = stage := by simpa using hu
      trivial
    · exact h.knows (by simpa [he] using hu)
  | @advance x y disk queued locks uri stage next hheld hwork =>
    have hk := h.knows hheld
    obtain ⟨hdocuments, hothers⟩ := work_frame hr hk hwork
    refine ⟨hdocuments ▸ h.faithful, certified_of_work hr (h.indexer hr) hk hwork,
      fun {u stage'} hu => ?_⟩
    by_cases he : u = uri
    · subst he
      obtain rfl : next = some stage' := by simpa using hu
      exact knows_of_work h.faithful hk hwork
    · exact (h.knows (by simpa [he] using hu)).congr (hothers u he)

theorem sound_begin (hx : Sweep.Sound services x) (hd : x.documents.Faithful services)
    (disk : String → Except ε String) : Sound services (begin x disk) :=
  ⟨hd, hx.certified, fun h => by cases h⟩

theorem Sound.run? (hr : services.Reliable) (h : Sound services s) {actions : List (Action ε)}
    (hrun : run? services s actions = some s') : Sound services s' := by
  induction actions using List.reverseRecOn generalizing s' with
  | nil =>
    cases hrun
    exact h
  | append_singleton actions a ih =>
    obtain ⟨t, ht, hstep⟩ := run?_concat.mp hrun
    exact (ih ht).step hr (step_of_step? hstep)

end Soundness

section Alone

def alone (x : Indexer) (disk : String → Except ε String) (uri : String) (held : Option Stage) :
    State ε :=
  ⟨x, disk, [], Function.update (fun _ => none) uri held⟩

theorem alone_none (x : Indexer) (disk : String → Except ε String) (uri : String) :
    alone x disk uri none = begin x disk := by
  have hlocks : Function.update (fun _ => none) uri none = fun _ => (none : Option Stage) :=
    Function.update_eq_self uri _
  rw [alone, hlocks, begin]

theorem run?_alone {stage : Stage} {next : Option Stage} {actions : List (Action ε)}
    (h : work services disk x uri stage = (next, y)) :
    run? services (alone x disk uri (some stage)) (.advance uri :: actions) =
      run? services (alone y disk uri next) actions := by
  simp [run?, step?, alone, h]

theorem run?_begin (haccepts : services.accepts uri = true) (actions : List (Action ε)) :
    run? services (begin x disk) (.start uri :: .acquire uri :: actions) =
      run? services (alone x disk uri (some .locked)) actions := by
  simp [run?, step?, begin, alone, haccepts]

theorem tree_load {source : Source} (h : load x disk uri = .ok source) :
    x.tree (services.reading disk) uri = (source.tree (services.parse uri),
      { x with documents := x.documents.edit services (.parse uri) }) := by
  unfold load at h
  cases hget : x.documents.get? uri with
  | some stored =>
    simp only [hget] at h
    cases h
    cases htree : stored.tree with
    | some tree =>
      simp only [Indexer.tree, hget, Documents.edit, Documents.tree?, Documents.tree, Source.tree,
        htree]
    | none =>
      cases hp : services.parse uri stored.text <;>
        simp only [Indexer.tree, hget, Documents.edit, Documents.tree?, Documents.tree,
          Source.tree, Services.reading, htree, hp]
  | none =>
    simp only [hget] at h
    cases hd : disk uri with
    | error e =>
      rw [hd] at h
      cases h
    | ok text =>
      rw [hd] at h
      cases h
      simp only [Indexer.tree, hget, Documents.edit, Documents.tree?, Source.tree,
        Services.reading, hd]

theorem index_load (haccepts : services.accepts uri = true) {source : Source}
    (h : load x disk uri = .ok source) :
    (x.index (services.reading disk) uri).2 =
      if x.isCurrent uri (services.digest source.text) then
        { x with repository := x.repository.markVerified uri }
      else
        let z := { x with documents := x.documents.edit services (.parse uri) }
        match source.tree (services.parse uri) with
        | .error _ => z
        | .ok tree => (z.publish tree (services.digest source.text)).2 := by
  have hsource := map_text_load services x disk uri
  rw [h, Except.map] at hsource
  have ha : (services.reading disk).accepts uri = true := haccepts
  have hd : (services.reading disk).digest = services.digest := rfl
  simp only [Indexer.index, ha, hd, ← hsource, tree_load h, Bool.not_true, Bool.false_eq_true,
    if_false]
  split
  · rfl
  · cases source.tree (services.parse uri) <;> rfl

theorem exists_run?_index (services : Services ε) (x : Indexer) (disk : String → Except ε String)
    (uri : String) :
    ∃ actions, run? services (begin x disk) actions =
      some (begin (x.index (services.reading disk) uri).2 disk) := by
  cases ha : services.accepts uri with
  | false => exact ⟨[], by simp [run?, Indexer.index, Services.reading, ha]⟩
  | true =>
    cases hload : load x disk uri with
    | error e =>
      have hsource := map_text_load services x disk uri
      rw [hload, Except.map] at hsource
      have hindex : (x.index (services.reading disk) uri).2 = x := by
        simp only [Indexer.index, ← hsource]
        split <;> rfl
      have hwork : work services disk x uri .locked = (none, x) := by simp only [work, hload]
      refine ⟨[.start uri, .acquire uri, .advance uri], ?_⟩
      rw [run?_begin ha, run?_alone hwork, hindex, alone_none]
      rfl
    | ok source =>
      rw [index_load ha hload]
      have hlocked : work services disk x uri .locked = (some (.loaded source), x) := by
        simp only [work, hload]
      split
      · next hc =>
        have hloaded : work services disk x uri (.loaded source) =
            (some (.matching source.text), x) := by simp only [work, hc, if_pos]
        refine ⟨[.start uri, .acquire uri, .advance uri, .advance uri, .advance uri,
          .advance uri], ?_⟩
        rw [run?_begin ha, run?_alone hlocked, run?_alone hloaded, run?_alone rfl, run?_alone rfl,
          alone_none]
        rfl
      · next hc =>
        have hloaded : work services disk x uri (.loaded source) =
            (some (.differing source), x) := by simp only [work, hc]; rfl
        let z : Indexer := { x with documents := x.documents.edit services (.parse uri) }
        have hkept (actions : List (Action ε)) :
            run? services (alone x disk uri (some (.differing source)))
              (.edit (.parse uri) :: actions) =
            run? services (alone z disk uri (some (.differing source))) actions := rfl
        cases htree : source.tree (services.parse uri) with
        | error e =>
          have hdiffering : work services disk z uri (.differing source) = (none, z) := by
            simp only [work, htree]
          refine ⟨[.start uri, .acquire uri, .advance uri, .advance uri, .edit (.parse uri),
            .advance uri], ?_⟩
          rw [run?_begin ha, run?_alone hlocked, run?_alone hloaded, hkept,
            run?_alone hdiffering, alone_none]
          rfl
        | ok tree =>
          have hdiffering : work services disk z uri (.differing source) =
              (some (.parsed source.text tree), z) := by simp only [work, htree]
          refine ⟨[.start uri, .acquire uri, .advance uri, .advance uri, .edit (.parse uri),
            .advance uri, .advance uri, .advance uri], ?_⟩
          rw [run?_begin ha, run?_alone hlocked, run?_alone hloaded, hkept,
            run?_alone hdiffering, run?_alone rfl, run?_alone rfl, alone_none]
          rfl

end Alone

end SemanticIndex.Locking
