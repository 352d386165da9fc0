import SemanticIndex.Proofs.Server.Handling

namespace SemanticIndex.Handling

open Server

namespace Call

def Begins (readers : Readers) : Call → Prop
  | .request method params => method = "initialize" ∧ ∃ c, readers.client params = .ok c
  | .notification _ _ => False

def Asks : Call → Prop
  | .request method _ => method ≠ "initialize"
  | .notification _ _ => False

def Stops : Call → Prop
  | .request method _ => method = "shutdown"
  | .notification _ _ => False

def Tells : Call → Prop
  | .request _ _ => False
  | .notification _ _ => True

def Makes (readers : Readers) (r : Request) : Call → Prop
  | .request method params => method ≠ "initialize" ∧ Request.of readers method params = .ok r
  | .notification _ _ => False

variable {readers : Readers} {call : Call} {r : Request}

theorem Begins.not_asks (h : call.Begins readers) : ¬ call.Asks := by
  cases call with
  | request method params => exact not_not_intro h.1
  | notification method params => exact h.elim

theorem Begins.not_tells (h : call.Begins readers) : ¬ call.Tells := by
  cases call with
  | request method params => exact id
  | notification method params => exact h.elim

theorem Asks.not_tells (h : call.Asks) : ¬ call.Tells := by
  cases call with
  | request method params => exact id
  | notification method params => exact h.elim

theorem Stops.asks (h : call.Stops) : call.Asks := by
  cases call with
  | request method params =>
    obtain rfl : method = "shutdown" := h
    simp [Asks]
  | notification method params => exact h.elim

theorem Makes.asks (h : call.Makes readers r) : call.Asks := by
  cases call with
  | request method params => exact h.1
  | notification method params => exact h.elim

theorem of_eq_shutdown {method : String} {params : Json} :
    Request.of readers method params = .ok .shutdown ↔ method = "shutdown" := by
  have hread {α : Type} {reader : Json → Except String α} {build : α → Request}
      (hbuild : ∀ a, build a ≠ .shutdown) : Request.read reader params build ≠ .ok .shutdown := by
    unfold Request.read
    split
    · next a _ => simpa using hbuild a
    · simp
  constructor
  · intro h
    unfold Request.of at h
    split at h
    · rfl
    all_goals first | exact absurd h (hread (by simp)) | cases h
  · rintro rfl
    rfl

theorem Makes.stops_iff (h : call.Makes readers r) : call.Stops ↔ r = .shutdown := by
  cases call with
  | request method params =>
    rw [Stops, ← of_eq_shutdown, h.2, Except.ok.injEq]
  | notification method params => exact h.elim

end Call

namespace Stage

def Claiming : Stage → Prop
  | .claimed _ => True
  | .configured _ _ => True
  | .restored _ _ => True
  | _ => False

def Begun : Stage → Prop
  | .installed _ => True
  | .answered (.result _) => True
  | _ => False

def Accepting : Stage → Prop
  | .stopping _ => True
  | .answered (.result _) => True
  | _ => False

end Stage

namespace State

variable (readers : Readers) (s : State) (k : Nat)

def Has (call : Call → Prop) (stage : Stage → Prop) : Prop :=
  ∃ t, s.tasks[k]? = some t ∧ call t.call ∧ stage t.stage

def HasClaimed : Prop := s.Has k (Call.Begins readers) fun stage => stage.Claiming ∨ stage.Begun

def HasSucceeded : Prop :=
  s.Has k (Call.Begins readers) fun stage => ∃ value, stage.answer? = some (.result value)

def HasAccepted : Prop := s.Has k Call.Stops Stage.Accepting

end State

def Fits (readers : Readers) (v : Server) (call : Call) : Stage → Prop
  | .received => True
  | .refused fault => ¬ call.Tells ∧ (call.Begins readers → fault.code = -32600) ∧
      (call.Asks → fault.code = -32002 ∨ v.workspace.isSome = true)
  | .dropped => call.Tells
  | .claimed _ => call.Begins readers ∧ v.claimed = true ∧ v.workspace = none
  | .configured _ _ => call.Begins readers ∧ v.claimed = true ∧ v.workspace = none
  | .restored _ _ => call.Begins readers ∧ v.claimed = true ∧ v.workspace = none
  | .installed _ => call.Begins readers ∧ v.claimed = true ∧ v.workspace.isSome = true
  | .serving _ r => call.Makes readers r ∧ v.workspace.isSome = true
  | .stopping _ => call.Stops ∧ v.stopped = true ∧ v.workspace.isSome = true
  | .answered answer => ¬ call.Tells ∧ v.workspace.isSome = true ∧
      (call.Begins readers → v.claimed = true ∧ ∃ value, answer = .result value) ∧
      (call.Stops → v.stopped = true ∧ ∃ value, answer = .result value)
  | .hearing _ => call.Tells ∧ v.workspace.isSome = true
  | .heard => call.Tells ∧ v.workspace.isSome = true

structure Follows (v v' : Server) : Prop where
  claimed : v.claimed = true → v'.claimed = true
  workspace : v.workspace.isSome = true → v'.workspace.isSome = true
  stopped : v.stopped = true → v'.stopped = true

section Fits

variable {readers : Readers} {v v' : Server} {call : Call} {stage : Stage}

theorem Fits.claiming (h : Fits readers v call stage) (hstage : stage.Claiming) :
    call.Begins readers ∧ v.claimed = true ∧ v.workspace = none := by
  cases stage with
  | claimed c => exact h
  | configured root config => exact h
  | restored root config => exact h
  | _ => exact hstage.elim

theorem Fits.early (h : Fits readers v call stage) (hworkspace : v.workspace = none)
    (hcall : ¬ call.Begins readers) :
    stage = .received ∨ (∃ fault, stage = .refused fault) ∨ stage = .dropped := by
  have hunset : ¬ v.workspace.isSome = true := by simp [hworkspace]
  cases stage with
  | received => exact .inl rfl
  | refused fault => exact .inr (.inl ⟨fault, rfl⟩)
  | dropped => exact .inr (.inr rfl)
  | claimed c => exact absurd h.1 hcall
  | configured root config => exact absurd h.1 hcall
  | restored root config => exact absurd h.1 hcall
  | installed root => exact absurd h.1 hcall
  | serving w r => exact absurd h.2 hunset
  | stopping w => exact absurd h.2.2 hunset
  | answered answer => exact absurd h.2.1 hunset
  | hearing notice => exact absurd h.2 hunset
  | heard => exact absurd h.2 hunset

theorem Fits.mono (h : Fits readers v call stage) (hfollows : Follows v v')
    (hnew : stage.Claiming → v'.workspace = none) : Fits readers v' call stage := by
  cases stage with
  | received => trivial
  | refused fault => exact ⟨h.1, h.2.1, fun hcall => (h.2.2 hcall).imp_right hfollows.workspace⟩
  | dropped => exact h
  | claimed c => exact ⟨h.1, hfollows.claimed h.2.1, hnew trivial⟩
  | configured root config => exact ⟨h.1, hfollows.claimed h.2.1, hnew trivial⟩
  | restored root config => exact ⟨h.1, hfollows.claimed h.2.1, hnew trivial⟩
  | installed root => exact ⟨h.1, hfollows.claimed h.2.1, hfollows.workspace h.2.2⟩
  | serving w r => exact ⟨h.1, hfollows.workspace h.2⟩
  | stopping w => exact ⟨h.1, hfollows.stopped h.2.1, hfollows.workspace h.2.2⟩
  | answered answer =>
    obtain ⟨hcall, hw, hbegins, hstops⟩ := h
    exact ⟨hcall, hfollows.workspace hw, fun hc => (hbegins hc).imp_left hfollows.claimed,
      fun hc => (hstops hc).imp_left hfollows.stopped⟩
  | hearing notice => exact ⟨h.1, hfollows.workspace h.2⟩
  | heard => exact ⟨h.1, hfollows.workspace h.2⟩

theorem claiming_eq (v : Server) (stage : Stage) :
    (claiming v stage).workspace = v.workspace ∧ (claiming v stage).stopped = v.stopped := by
  cases stage <;> exact ⟨rfl, rfl⟩

theorem fits_enter (hclaimed : v.workspace.isSome = true → v.claimed = true) (call : Call) :
    Fits readers (claiming v (enter readers v call)) call (enter readers v call) := by
  cases call with
  | request method params =>
    simp only [enter]
    split
    · next hmethod =>
      split
      · next hparams => exact ⟨id, fun hcall => by simp [Call.Begins, hparams] at hcall,
          fun hcall => absurd hmethod hcall⟩
      · next c hparams =>
        split
        · exact ⟨id, fun _ => rfl, fun hcall => absurd hmethod hcall⟩
        · next hfree =>
          have hunset : v.workspace = none := by simpa using mt hclaimed hfree
          exact ⟨⟨hmethod, c, hparams⟩, rfl, hunset⟩
    · next hmethod =>
      split
      · exact ⟨id, fun hcall => absurd hcall.1 hmethod, fun _ => .inl rfl⟩
      · next w hw =>
        have hset : v.workspace.isSome = true := Option.isSome_of_eq_some hw
        split
        · exact ⟨id, fun _ => rfl, fun _ => .inr hset⟩
        · split
          · exact ⟨id, fun hcall => absurd hcall.1 hmethod, fun _ => .inr hset⟩
          · next r hr => exact ⟨⟨hmethod, hr⟩, hset⟩
  | notification method params =>
    simp only [enter]
    split
    · exact trivial
    · next hset =>
      split
      · exact trivial
      · exact ⟨trivial, by simpa [claiming, Option.isSome_iff_ne_none] using hset⟩

theorem claimed_of_enter (h : (enter readers v call).Claiming ∨ (enter readers v call).Begun) :
    v.claimed = false := by
  unfold enter at h
  split at h
  · split at h
    · split at h
      · exact (h.elim id id).elim
      · split at h
        · exact (h.elim id id).elim
        · next hfree => simpa using hfree
    · split at h
      · exact (h.elim id id).elim
      · split at h
        · exact (h.elim id id).elim
        · split at h <;> exact (h.elim id id).elim
  · split at h
    · exact (h.elim id id).elim
    · split at h <;> exact (h.elim id id).elim

end Fits

namespace Acts

variable {readers : Readers} {call : Call} {stage stage' : Stage} {h h' : ServerHost}

theorem follows (ha : Acts readers call stage h stage' h') : Follows h.server h'.server := by
  cases ha with
  | enter =>
    generalize Handling.enter readers h.server call = stage'
    cases stage' <;> exact ⟨by simp [claiming], id, id⟩
  | configure => exact ⟨id, id, id⟩
  | restore => exact ⟨id, id, id⟩
  | install =>
    unfold Handling.install
    split
    · exact ⟨id, id, id⟩
    · exact ⟨id, fun _ => rfl, id⟩
  | launch => exact ⟨id, id, id⟩
  | stop => exact ⟨id, id, fun _ => rfl⟩
  | save now => exact ⟨id, id, id⟩
  | serve hr answer x => exact ⟨id, id, id⟩
  | hear x => exact ⟨id, id, id⟩

theorem workspace_eq (ha : Acts readers call stage h stage' h') (hstage : ¬ stage.Claiming) :
    h'.server.workspace = h.server.workspace := by
  cases ha with
  | enter => exact (claiming_eq _ _).1
  | install => exact absurd trivial hstage
  | _ => rfl

theorem stopped_eq (ha : Acts readers call stage h stage' h') :
    h'.server.stopped = h.server.stopped ∨ ∃ w, stage' = .stopping w := by
  cases ha with
  | enter => exact .inl (claiming_eq _ _).2
  | install => unfold Handling.install; split <;> exact .inl rfl
  | stop => exact .inr ⟨_, rfl⟩
  | _ => exact .inl rfl

theorem accepting (ha : Acts readers call stage h stage' h') (hstage : stage.Accepting) :
    stage'.Accepting := by
  cases ha with
  | save now => trivial
  | _ => exact hstage.elim

theorem fits (ha : Acts readers call stage h stage' h') (hf : Fits readers h.server call stage)
    (hclaimed : h.server.workspace.isSome = true → h.server.claimed = true) :
    Fits readers h'.server call stage' := by
  cases ha with
  | enter => exact fits_enter hclaimed call
  | configure => exact hf
  | restore => exact hf
  | install =>
    obtain ⟨hcall, hc, hw⟩ := hf
    rw [Handling.install, if_neg (by simp [hw])]
    exact ⟨hcall, hc, rfl⟩
  | launch =>
    obtain ⟨hcall, hc, hw⟩ := hf
    exact ⟨hcall.not_tells, hw, fun _ => ⟨hc, _, rfl⟩,
      fun hstops => absurd hstops.asks hcall.not_asks⟩
  | stop =>
    obtain ⟨hcall, hw⟩ := hf
    exact ⟨hcall.stops_iff.mpr rfl, rfl, hw⟩
  | save now =>
    obtain ⟨hcall, hs, hw⟩ := hf
    exact ⟨hcall.asks.not_tells, hw, fun hbegins => absurd hcall.asks hbegins.not_asks,
      fun _ => ⟨hs, _, rfl⟩⟩
  | serve hr answer x =>
    obtain ⟨hcall, hw⟩ := hf
    exact ⟨hcall.asks.not_tells, hw, fun hbegins => absurd hcall.asks hbegins.not_asks,
      fun hstops => absurd (hcall.stops_iff.mp hstops) hr⟩
  | hear x => exact hf

end Acts

section Tasks

variable {tasks : List Task} {k j : Nat} {t u : Task}

theorem getElem?_set_cases (h : (tasks.set k t)[j]? = some u) :
    j = k ∧ u = t ∨ j ≠ k ∧ tasks[j]? = some u := by
  rw [List.getElem?_set] at h
  split at h
  · next hjk =>
    split at h
    · exact .inl ⟨hjk.symm, (Option.some.inj h).symm⟩
    · cases h
  · next hjk => exact .inr ⟨Ne.symm hjk, h⟩

theorem getElem?_set_of_some (h : tasks[k]? = some t) :
    (tasks.set k u)[k]? = some u := by
  obtain ⟨hk, -⟩ := List.getElem?_eq_some_iff.mp h
  rw [List.getElem?_set_self hk]

theorem getElem?_append_cases (h : (tasks ++ [t])[j]? = some u) :
    tasks[j]? = some u ∨ j = tasks.length ∧ u = t := by
  rcases Nat.lt_trichotomy j tasks.length with hlt | rfl | hgt
  · exact .inl (by rwa [List.getElem?_append_left hlt] at h)
  · exact .inr ⟨rfl, by simpa using h.symm⟩
  · rw [List.getElem?_eq_none (by rw [List.length_append]; exact hgt)] at h
    cases h

end Tasks

structure Orderly (readers : Readers) (s : State) : Prop where
  fits : ∀ (k : Nat) (t : Task), s.tasks[k]? = some t → Fits readers s.host.server t.call t.stage
  one_claim : ∀ j k, s.HasClaimed readers j → s.HasClaimed readers k → j = k
  accepted : s.host.server.stopped = true → ∃ k, s.HasAccepted k
  claimed_of_workspace : s.host.server.workspace.isSome = true → s.host.server.claimed = true
  workspace_of_stopped : s.host.server.stopped = true → s.host.server.workspace.isSome = true

theorem orderly_start (readers : Readers) (defaults : Config) (disk : FileTree) :
    Orderly readers (start defaults disk) where
  fits k t ht := by cases ht
  one_claim j k hj := by
    obtain ⟨t, ht, -⟩ := hj
    cases ht
  accepted hstopped := by cases hstopped
  claimed_of_workspace hset := by cases hset
  workspace_of_stopped hstopped := by cases hstopped

namespace Orderly

variable {readers : Readers} {s s' : State}

theorem claimed (ho : Orderly readers s) {k : Nat} (h : s.HasClaimed readers k) :
    s.host.server.claimed = true := by
  obtain ⟨⟨call, stage⟩, ht, hcall, hstage⟩ := h
  have hf := ho.fits k _ ht
  rcases hstage with hstage | hstage
  · exact (hf.claiming hstage).2.1
  · cases stage with
    | installed root => exact hf.2.1
    | answered answer => exact (hf.2.2.1 hcall).1
    | _ => exact hstage.elim

theorem of_indexer (ho : Orderly readers s) (x : Indexer) (disk : FileTree) :
    Orderly readers ⟨⟨{ s.host.server with indexer := x }, disk⟩, s.tasks⟩ := by
  refine ⟨fun k t ht => ?_, ho.one_claim, ho.accepted, ho.claimed_of_workspace,
    ho.workspace_of_stopped⟩
  have hf := ho.fits k t ht
  exact hf.mono ⟨id, id, id⟩ fun hstage => (hf.claiming hstage).2.2

theorem arrive (ho : Orderly readers s) (call : Call) :
    Orderly readers { s with tasks := s.tasks ++ [⟨call, .received⟩] } where
  fits k t ht := by
    rcases getElem?_append_cases ht with ht | ⟨-, rfl⟩
    · exact ho.fits k t ht
    · trivial
  one_claim j k hj hk := by
    have hold {k : Nat} :
        State.HasClaimed readers { s with tasks := s.tasks ++ [⟨call, .received⟩] } k →
          s.HasClaimed readers k := by
      rintro ⟨t, ht, hcall, hstage⟩
      rcases getElem?_append_cases ht with ht | ⟨-, rfl⟩
      · exact ⟨t, ht, hcall, hstage⟩
      · exact (hstage.elim id id).elim
    exact ho.one_claim j k (hold hj) (hold hk)
  accepted hstopped := by
    obtain ⟨k, t, ht, hk⟩ := ho.accepted hstopped
    obtain ⟨hlt, -⟩ := List.getElem?_eq_some_iff.mp ht
    exact ⟨k, t, by rwa [List.getElem?_append_left hlt], hk⟩
  claimed_of_workspace := ho.claimed_of_workspace
  workspace_of_stopped := ho.workspace_of_stopped

section Turn

variable {k : Nat} {t : Task} {stage : Stage} {h : ServerHost}

theorem claims (ho : Orderly readers s) (ht : s.tasks[k]? = some t)
    (hacts : Acts readers t.call t.stage s.host stage h) (hcall : t.call.Begins readers)
    (hstage : stage.Claiming ∨ stage.Begun) :
    s.HasClaimed readers k ∨ s.host.server.claimed = false := by
  have hf := ho.fits k t ht
  obtain ⟨call, old⟩ := t
  cases hacts with
  | enter => exact .inr (claimed_of_enter hstage)
  | configure => exact .inl ⟨_, ht, hcall, .inl trivial⟩
  | restore => exact .inl ⟨_, ht, hcall, .inl trivial⟩
  | install => exact .inl ⟨_, ht, hcall, .inl trivial⟩
  | launch => exact .inl ⟨_, ht, hcall, .inr trivial⟩
  | stop => exact (hstage.elim id id).elim
  | save now => exact absurd hf.1.asks hcall.not_asks
  | serve hr answer x => exact absurd hf.1.asks hcall.not_asks
  | hear x => exact (hstage.elim id id).elim

theorem claimed_of_turn (ho : Orderly readers s) (ht : s.tasks[k]? = some t)
    (hacts : Acts readers t.call t.stage s.host stage h) {j : Nat}
    (hj : State.HasClaimed readers ⟨h, s.tasks.set k ⟨t.call, stage⟩⟩ j) :
    s.HasClaimed readers j ∨ j = k ∧ s.host.server.claimed = false := by
  obtain ⟨u, hu, hcall, hstage⟩ := hj
  rcases getElem?_set_cases hu with ⟨rfl, rfl⟩ | ⟨-, hu⟩
  · exact (ho.claims ht hacts hcall hstage).imp_right fun hfree => ⟨rfl, hfree⟩
  · exact .inl ⟨u, hu, hcall, hstage⟩

theorem fits_turn (ho : Orderly readers s) (ht : s.tasks[k]? = some t)
    (hacts : Acts readers t.call t.stage s.host stage h) {j : Nat} {u : Task} (hjk : j ≠ k)
    (hu : s.tasks[j]? = some u) : Fits readers h.server u.call u.stage := by
  have hf := ho.fits j u hu
  refine hf.mono hacts.follows fun hstage => ?_
  -- only a task that holds the server sets the workspace, and `j` holds it
  have hothers : ¬ t.stage.Claiming := fun hclaiming =>
    hjk (ho.one_claim j k ⟨u, hu, (hf.claiming hstage).1, .inl hstage⟩
      ⟨t, ht, ((ho.fits k t ht).claiming hclaiming).1, .inl hclaiming⟩)
  rw [hacts.workspace_eq hothers]
  exact (hf.claiming hstage).2.2

theorem accepted_turn (ht : s.tasks[k]? = some t)
    (hacts : Acts readers t.call t.stage s.host stage h) {j : Nat} (hj : s.HasAccepted j) :
    State.HasAccepted ⟨h, s.tasks.set k ⟨t.call, stage⟩⟩ j := by
  obtain ⟨u, hu, hcall, hstage⟩ := hj
  by_cases hjk : j = k
  · subst hjk
    obtain rfl := Option.some.inj (ht.symm.trans hu)
    exact ⟨_, getElem?_set_of_some ht, hcall, hacts.accepting hstage⟩
  · exact ⟨u, by rwa [List.getElem?_set_ne (Ne.symm hjk)], hcall, hstage⟩

theorem turn (ho : Orderly readers s) (ht : s.tasks[k]? = some t)
    (hacts : Acts readers t.call t.stage s.host stage h) :
    Orderly readers ⟨h, s.tasks.set k ⟨t.call, stage⟩⟩ := by
  have hfollows := hacts.follows
  have hold := ho.fits k t ht
  have hnew : Fits readers h.server t.call stage := hacts.fits hold ho.claimed_of_workspace
  constructor
  case fits =>
    intro j u hu
    rcases getElem?_set_cases hu with ⟨-, rfl⟩ | ⟨hjk, hu⟩
    · exact hnew
    · exact ho.fits_turn ht hacts hjk hu
  case one_claim =>
    intro i j hi hj
    rcases ho.claimed_of_turn ht hacts hi with hi' | ⟨hik, hfree⟩
    · rcases ho.claimed_of_turn ht hacts hj with hj' | ⟨-, hfree⟩
      · exact ho.one_claim i j hi' hj'
      · exact absurd (ho.claimed hi') (by simp [hfree])
    · rcases ho.claimed_of_turn ht hacts hj with hj' | ⟨hjk, -⟩
      · exact absurd (ho.claimed hj') (by simp [hfree])
      · exact hik.trans hjk.symm
  case accepted =>
    intro hstopped
    rcases hacts.stopped_eq with heq | ⟨w, rfl⟩
    · obtain ⟨j, hj⟩ := ho.accepted (heq ▸ hstopped)
      exact ⟨j, accepted_turn ht hacts hj⟩
    · exact ⟨k, _, getElem?_set_of_some ht, hnew.1, trivial⟩
  case claimed_of_workspace =>
    intro hset
    by_cases hclaiming : t.stage.Claiming
    · exact hfollows.claimed (hold.claiming hclaiming).2.1
    · rw [hacts.workspace_eq hclaiming] at hset
      exact hfollows.claimed (ho.claimed_of_workspace hset)
  case workspace_of_stopped =>
    intro hstopped
    rcases hacts.stopped_eq with heq | ⟨w, rfl⟩
    · exact hfollows.workspace (ho.workspace_of_stopped (heq ▸ hstopped))
    · exact hnew.2.2

end Turn

theorem step (ho : Orderly readers s) {e : Event} (hstep : Step readers e s s')
    (hcrash : ∀ k, e ≠ .crash k) : Orderly readers s' := by
  cases hstep with
  | arrive call => exact ho.arrive call
  | turn ht hacts => exact ho.turn ht hacts
  | crash ht hkept r cause => exact absurd rfl (hcrash _)
  | elsewhere hworkspace x => exact ho.of_indexer x s.host.disk
  | files disk => exact ho.of_indexer s.host.server.indexer disk

theorem run (ho : Orderly readers s) {events : List Event} (hrun : Runs readers events s s')
    (hcalm : Calm events) : Orderly readers s' := by
  induction hrun with
  | nil => exact ho
  | cons hstep _ ih => exact ih (ho.step hstep hcalm.head) hcalm.tail

end Orderly

end SemanticIndex.Handling
