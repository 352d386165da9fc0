import Mathlib.Algebra.GroupWithZero.Nat
import SemanticIndex.Sync.Sweep

namespace SemanticIndex.Sweep

variable {ε : Type} {services : Services ε} {limit : Nat}

inductive Phase where
  | queued
  | loaded (text : String)
  | matching
  | differing (text : String)
  | parsed (tree : Tree) (digest : String)

inductive Progress (ε : Type) where
  | goesOn (phase : Phase)
  | ends (outcome : Except ε Outcome)

def work (services : Services ε) (x : Indexer) (uri : String) : Phase → Progress ε × Indexer
  | .queued =>
      if !services.accepts uri then (.ends (.ok .skipped), x)
      else
        match x.source services uri with
        | .error e => (.ends (.error e), x)
        | .ok text => (.goesOn (.loaded text), x)
  | .loaded text =>
      if x.isCurrent uri (services.digest text) then (.goesOn .matching, x)
      else (.goesOn (.differing text), x)
  | .matching =>
      (.ends (.ok .unchanged), { x with repository := x.repository.markVerified uri })
  | .differing text =>
      match x.tree services uri with
      | (.error e, x) => (.ends (.error e), x)
      | (.ok tree, x) => (.goesOn (.parsed tree (services.digest text)), x)
  | .parsed tree digest =>
      let (outcome, x) := x.publish tree digest
      (.ends (.ok outcome), x)

structure State (ε : Type) where
  indexer : Indexer
  waiting : List String
  running : List (String × Phase)
  outcomes : List (String × Except ε Outcome)

inductive Action where
  | start
  | advance (place : Nat)
  deriving DecidableEq, Repr

def step? (services : Services ε) (limit : Nat) (s : State ε) : Action → Option (State ε)
  | .start =>
      match s.waiting with
      | [] => none
      | uri :: rest =>
          if s.running.length < max limit 1 then
            some { s with waiting := rest, running := s.running ++ [(uri, .queued)] }
          else none
  | .advance i =>
      match s.running[i]? with
      | none => none
      | some (uri, phase) =>
          match work services s.indexer uri phase with
          | (.goesOn next, x) =>
              some { s with indexer := x, running := s.running.set i (uri, next) }
          | (.ends outcome, x) =>
              some
                { s with
                  indexer := x
                  running := s.running.eraseIdx i
                  outcomes := s.outcomes ++ [(uri, outcome)] }

def run? (services : Services ε) (limit : Nat) (s : State ε) (actions : List Action) :
    Option (State ε) :=
  actions.foldlM (step? services limit) s

def begin (x : Indexer) (found : List String) : State ε :=
  ⟨{ x with repository := x.repository.beginIndexing }, found, [], []⟩

def State.Finished (s : State ε) : Prop := s.waiting = [] ∧ s.running = []

def conclude (s : State ε) : Indexer.Swept ε :=
  let stale := s.indexer.stale (s.outcomes.map Prod.fst)
  let x := s.indexer.removeAll stale
  { outcomes := s.outcomes
    report := Indexer.reportOf s.outcomes stale.length
    indexer := { x with repository := x.repository.markComplete } }

inductive Step (services : Services ε) (limit : Nat) : State ε → State ε → Prop where
  | start {x : Indexer} {uri : String} {rest : List String} {running : List (String × Phase)}
      {outcomes : List (String × Except ε Outcome)} (hroom : running.length < max limit 1) :
      Step services limit ⟨x, uri :: rest, running, outcomes⟩
        ⟨x, rest, running ++ [(uri, .queued)], outcomes⟩
  | goOn {x y : Indexer} {waiting : List String} {front rest : List (String × Phase)}
      {uri : String} {phase next : Phase} {outcomes : List (String × Except ε Outcome)}
      (hwork : work services x uri phase = (.goesOn next, y)) :
      Step services limit ⟨x, waiting, front ++ (uri, phase) :: rest, outcomes⟩
        ⟨y, waiting, front ++ (uri, next) :: rest, outcomes⟩
  | finish {x y : Indexer} {waiting : List String} {front rest : List (String × Phase)}
      {uri : String} {phase : Phase} {outcomes : List (String × Except ε Outcome)}
      {outcome : Except ε Outcome} (hwork : work services x uri phase = (.ends outcome, y)) :
      Step services limit ⟨x, waiting, front ++ (uri, phase) :: rest, outcomes⟩
        ⟨y, waiting, front ++ rest, outcomes ++ [(uri, outcome)]⟩

theorem step_of_step? {s s' : State ε} {a : Action} (h : step? services limit s a = some s') :
    Step services limit s s' := by
  obtain ⟨x, waiting, running, outcomes⟩ := s
  cases a with
  | start =>
    cases waiting with
    | nil => cases h
    | cons uri rest =>
      simp only [step?] at h
      split at h
      · next hroom =>
        cases h
        exact .start hroom
      · cases h
  | advance i =>
    cases hi : running[i]? with
    | none => simp [step?, hi] at h
    | some p =>
      obtain ⟨uri, phase⟩ := p
      obtain ⟨hlt, hget⟩ := List.getElem?_eq_some_iff.mp hi
      obtain ⟨front, rest, rfl, rfl⟩ :
          ∃ front rest, running = front ++ (uri, phase) :: rest ∧ front.length = i := by
        refine ⟨running.take i, running.drop (i + 1), ?_, by simp; omega⟩
        rw [← hget, ← List.drop_eq_getElem_cons hlt, List.take_append_drop]
      simp only [step?, hi] at h
      split at h
      · next next y hwork =>
        have hset : (front ++ (uri, phase) :: rest).set front.length (uri, next) =
            front ++ (uri, next) :: rest := by simp
        rw [hset] at h
        cases h
        exact .goOn hwork
      · next outcome y hwork =>
        have herase : (front ++ (uri, phase) :: rest).eraseIdx front.length = front ++ rest := by
          simp [List.eraseIdx_append]
        rw [herase] at h
        cases h
        exact .finish hwork

def Phase.left : Phase → Nat
  | .queued => 4
  | .loaded _ => 3
  | .matching => 1
  | .differing _ => 2
  | .parsed _ _ => 1

def State.left (s : State ε) : Nat :=
  5 * s.waiting.length + (s.running.map fun p => p.2.left).sum

theorem left_of_goesOn {x y : Indexer} {uri : String} {phase next : Phase}
    (h : work services x uri phase = (.goesOn next, y)) : next.left < phase.left := by
  cases phase with
  | queued =>
    simp only [work] at h
    split at h
    · cases h
    · split at h <;> cases h
      simp [Phase.left]
  | loaded text =>
    simp only [work] at h
    split at h <;> cases h <;> simp [Phase.left]
  | matching => cases h
  | differing text =>
    simp only [work] at h
    split at h <;> cases h
    simp [Phase.left]
  | parsed tree digest => cases h

theorem Phase.left_pos (phase : Phase) : 0 < phase.left := by
  cases phase <;> simp [left]

theorem Step.left_lt {s s' : State ε} (h : Step services limit s s') : s'.left < s.left := by
  cases h with
  | start =>
    simp only [State.left, List.length_cons, List.map_append, List.sum_append, List.map_cons,
      List.map_nil, List.sum_cons, List.sum_nil, Phase.left]
    omega
  | goOn hwork =>
    have hlt := left_of_goesOn hwork
    simp only [State.left, List.map_append, List.sum_append, List.map_cons, List.sum_cons]
    omega
  | @finish _ _ _ _ _ _ phase _ _ hwork =>
    have hpos := phase.left_pos
    simp only [State.left, List.map_append, List.sum_append, List.map_cons, List.sum_cons]
    omega

theorem exists_step? {s : State ε} (h : ¬s.Finished) :
    ∃ a s', step? services limit s a = some s' := by
  obtain ⟨x, waiting, running, outcomes⟩ := s
  cases running with
  | cons p running =>
    obtain ⟨uri, phase⟩ := p
    refine ⟨.advance 0, ?_⟩
    simp only [step?, List.getElem?_cons_zero]
    split
    · exact ⟨_, rfl⟩
    · exact ⟨_, rfl⟩
  | nil =>
    cases waiting with
    | nil => exact absurd ⟨rfl, rfl⟩ h
    | cons uri rest =>
      refine ⟨.start, ⟨x, rest, [(uri, .queued)], outcomes⟩, ?_⟩
      simp only [step?, List.length_nil]
      exact if_pos (by omega)

theorem run?_cons {s s' : State ε} {a : Action} {actions : List Action} :
    run? services limit s (a :: actions) = some s' ↔
      ∃ t, step? services limit s a = some t ∧ run? services limit t actions = some s' := by
  simp [run?, List.foldlM_cons, Option.bind_eq_some_iff]

theorem run?_induction {P : State ε → Prop} {s s' : State ε} {actions : List Action}
    (hstep : ∀ {t t' : State ε}, Step services limit t t' → P t → P t') (hs : P s)
    (h : run? services limit s actions = some s') : P s' := by
  induction actions generalizing s with
  | nil =>
    cases h
    exact hs
  | cons a actions ih =>
    obtain ⟨t, hstep?, hrest⟩ := run?_cons.mp h
    exact ih (hstep (step_of_step? hstep?) hs) hrest

theorem length_le_left {s s' : State ε} {actions : List Action}
    (h : run? services limit s actions = some s') : actions.length ≤ s.left := by
  induction actions generalizing s with
  | nil => exact Nat.zero_le _
  | cons a actions ih =>
    obtain ⟨t, hstep?, hrest⟩ := run?_cons.mp h
    have hlt := (step_of_step? hstep?).left_lt
    have hle := ih hrest
    rw [List.length_cons]
    omega

def State.uris (s : State ε) : List String :=
  s.waiting ++ s.running.map Prod.fst ++ s.outcomes.map Prod.fst

section Places

variable {x y : Indexer} {uri : String} {waiting : List String}
  {running front rest : List (String × Phase)} {phase : Phase}
  {outcomes : List (String × Except ε Outcome)} {outcome : Except ε Outcome}

theorem perm_uris_start :
    (State.uris ⟨x, waiting, running ++ [(uri, phase)], outcomes⟩).Perm
      (State.uris ⟨y, uri :: waiting, running, outcomes⟩) := by
  refine List.perm_iff_count.mpr fun u => ?_
  simp only [State.uris, List.map_append, List.map_cons, List.map_nil, List.count_append,
    List.count_cons, List.count_nil]
  omega

theorem perm_uris_finish :
    (State.uris ⟨x, waiting, front ++ rest, outcomes ++ [(uri, outcome)]⟩).Perm
      (State.uris ⟨y, waiting, front ++ (uri, phase) :: rest, outcomes⟩) := by
  refine List.perm_iff_count.mpr fun u => ?_
  simp only [State.uris, List.map_append, List.map_cons, List.map_nil, List.count_append,
    List.count_cons, List.count_nil]
  omega

end Places

theorem Step.perm_uris {s s' : State ε} (h : Step services limit s s') :
    s'.uris.Perm s.uris := by
  cases h with
  | start => exact perm_uris_start
  | goOn => simp [State.uris]
  | finish => exact perm_uris_finish

theorem perm_uris_of_run? {x : Indexer} {found : List String} {s : State ε}
    {actions : List Action} (h : run? services limit (begin x found) actions = some s) :
    s.uris.Perm found :=
  run?_induction (fun hstep ht => hstep.perm_uris.trans ht) (by simp [State.uris, begin]) h

theorem perm_outcomes_of_run? {x : Indexer} {found : List String} {s : State ε}
    {actions : List Action} (h : run? services limit (begin x found) actions = some s)
    (hf : s.Finished) : (s.outcomes.map Prod.fst).Perm found := by
  simpa [State.uris, hf.1, hf.2] using perm_uris_of_run? h

section Alone

variable {x y : Indexer} {uri : String} {phase next : Phase} {waiting : List String}
  {outcomes : List (String × Except ε Outcome)} {outcome : Except ε Outcome} {s : State ε}

theorem run?_ends (h : work services x uri phase = (.ends outcome, y)) :
    ∃ actions, run? services limit ⟨x, waiting, [(uri, phase)], outcomes⟩ actions =
      some ⟨y, waiting, [], outcomes ++ [(uri, outcome)]⟩ := by
  refine ⟨[.advance 0], run?_cons.mpr ⟨_, ?_, rfl⟩⟩
  simp [step?, h]

theorem run?_goesOn (h : work services x uri phase = (.goesOn next, y))
    (hrest : ∃ actions, run? services limit ⟨y, waiting, [(uri, next)], outcomes⟩ actions =
      some s) :
    ∃ actions, run? services limit ⟨x, waiting, [(uri, phase)], outcomes⟩ actions = some s := by
  obtain ⟨actions, hrest⟩ := hrest
  refine ⟨.advance 0 :: actions, run?_cons.mpr ⟨_, ?_, hrest⟩⟩
  simp [step?, h]

theorem run?_start
    (hrest : ∃ actions, run? services limit ⟨x, waiting, [(uri, .queued)], outcomes⟩ actions =
      some s) :
    ∃ actions, run? services limit ⟨x, uri :: waiting, [], outcomes⟩ actions = some s := by
  obtain ⟨actions, hrest⟩ := hrest
  refine ⟨.start :: actions, run?_cons.mpr ⟨_, ?_, hrest⟩⟩
  simp only [step?, List.length_nil, List.nil_append]
  exact if_pos (by omega)

end Alone

theorem run?_index (services : Services ε) (limit : Nat) (x : Indexer) (uri : String)
    (waiting : List String) (outcomes : List (String × Except ε Outcome)) :
    ∃ actions, run? services limit ⟨x, uri :: waiting, [], outcomes⟩ actions =
      some ⟨(x.index services uri).2, waiting, [],
        outcomes ++ [(uri, (x.index services uri).1)]⟩ := by
  refine run?_start ?_
  unfold Indexer.index
  split
  · next ha => exact run?_ends (by simp only [work, ha, if_true])
  · next ha =>
    have ha : services.accepts uri = true := by simpa using ha
    cases hs : x.source services uri with
    | error e => exact run?_ends (by simp [work, ha, hs])
    | ok text =>
      have hload : work services x uri .queued = (.goesOn (.loaded text), x) := by
        simp [work, ha, hs]
      refine run?_goesOn hload ?_
      dsimp only
      split
      · next hc =>
        have hmatch : work services x uri (.loaded text) = (.goesOn .matching, x) := by
          simp [work, hc]
        exact run?_goesOn hmatch (run?_ends rfl)
      · next hc =>
        have hdiffer : work services x uri (.loaded text) = (.goesOn (.differing text), x) := by
          simp [work, hc]
        refine run?_goesOn hdiffer ?_
        split
        · next e y ht => exact run?_ends (by simp [work, ht])
        · next tree y ht =>
          have hparse : work services x uri (.differing text) =
              (.goesOn (.parsed tree (services.digest text)), y) := by simp [work, ht]
          exact run?_goesOn hparse (run?_ends rfl)

theorem run?_append {s t u : State ε} {before after : List Action}
    (h : run? services limit s before = some t) (h' : run? services limit t after = some u) :
    run? services limit s (before ++ after) = some u := by
  rw [run?, List.foldlM_append]
  exact Option.bind_eq_some_iff.mpr ⟨t, h, h'⟩

theorem run?_indexAll (services : Services ε) (limit : Nat) (x : Indexer) (found : List String)
    (outcomes : List (String × Except ε Outcome)) :
    ∃ actions, run? services limit ⟨x, found, [], outcomes⟩ actions =
      some ⟨(x.indexAll services found).2, [], [], outcomes ++ (x.indexAll services found).1⟩ := by
  induction found generalizing x outcomes with
  | nil => exact ⟨[], by simp [run?, Indexer.indexAll]⟩
  | cons uri found ih =>
    obtain ⟨first, hfirst⟩ := run?_index services limit x uri found outcomes
    obtain ⟨rest, hrest⟩ := ih (x.index services uri).2
      (outcomes ++ [(uri, (x.index services uri).1)])
    refine ⟨first ++ rest, ?_⟩
    simpa [Indexer.indexAll] using run?_append hfirst hrest

theorem map_fst_indexAll (x : Indexer) (services : Services ε) (found : List String) :
    (x.indexAll services found).1.map Prod.fst = found := by
  induction found generalizing x with
  | nil => rfl
  | cons uri found ih => simp [Indexer.indexAll, ih]

theorem exists_run?_sweep (x : Indexer) (services : Services ε) (limit : Nat)
    (found : List String) :
    ∃ actions s, run? services limit (begin x found) actions = some s ∧ s.Finished ∧
      conclude s = x.sweep services found := by
  obtain ⟨actions, h⟩ := run?_indexAll services limit
    { x with repository := x.repository.beginIndexing } found []
  refine ⟨actions, _, h, ⟨rfl, rfl⟩, ?_⟩
  simp [conclude, Indexer.sweep, map_fst_indexAll]

end SemanticIndex.Sweep
