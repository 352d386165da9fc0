import SemanticIndex.Proofs.Server.Phases

namespace SemanticIndex.Handling

open Server

variable {readers : Readers} {s s' : State} {k : Nat}

def Stage.Refusing (code : Int) : Stage → Prop
  | .refused fault => fault.code = code
  | _ => False

namespace State

variable (readers : Readers) (s : State) (k : Nat)

def Received (call : Call → Prop) : Prop := s.Has k call fun _ => True

def Reached (stage : Stage → Prop) : Prop := s.Has k (fun _ => True) stage

def TurnedAway (stage : Stage → Prop) : Prop :=
  s.Reached k stage ∨
    s.Reached k (· = .received) ∧ (∃ s', Step readers (.turn k) s s') ∧
      ∀ s', Step readers (.turn k) s s' → s'.host = s.host ∧ s'.Reached k stage

def Refused (code : Int) : Prop := s.TurnedAway readers k (Stage.Refusing code)

def Ignored : Prop := s.TurnedAway readers k (· = .dropped)

end State

theorem turnedAway_of_enter {call : Call} {stage : Stage → Prop}
    (ht : s.tasks[k]? = some ⟨call, .received⟩) (hstage : stage (enter readers s.host.server call))
    (hfree : ∀ c, enter readers s.host.server call ≠ .claimed c) : s.TurnedAway readers k stage := by
  have hsame : claiming s.host.server (enter readers s.host.server call) = s.host.server := by
    generalize enter readers s.host.server call = entered at hfree
    cases entered with
    | claimed c => exact absurd rfl (hfree c)
    | _ => rfl
  refine .inr ⟨⟨_, ht, trivial, rfl⟩, ⟨_, .turn ht .enter⟩, fun s' hstep => ?_⟩
  cases hstep with
  | turn hu hacts =>
    obtain rfl := Option.some.inj (ht.symm.trans hu)
    cases hacts with
    | enter => exact ⟨by rw [hsame], _, getElem?_set_of_some ht, trivial, hstage⟩

theorem refused_of_enter {call : Call} {fault : Rpc.Fault}
    (ht : s.tasks[k]? = some ⟨call, .received⟩)
    (henter : enter readers s.host.server call = .refused fault) : s.Refused readers k fault.code :=
  turnedAway_of_enter ht (henter ▸ rfl) (by simp [henter])

section Admission

variable {v : Server} {call : Call}

theorem enter_begins (hcall : call.Begins readers) (hclaimed : v.claimed = true) :
    enter readers v call = .refused (.invalidRequest "Server is already initialized") := by
  cases call with
  | request method params =>
    obtain ⟨hmethod, c, hc⟩ := hcall
    simp [enter, hmethod, hc, hclaimed]
  | notification method params => exact hcall.elim

theorem enter_asks_early (hcall : call.Asks) (hworkspace : v.workspace = none) :
    enter readers v call = .refused .notInitialized := by
  cases call with
  | request method params =>
    have hmethod : method ≠ "initialize" := hcall
    simp [enter, hmethod, hworkspace]
  | notification method params => exact hcall.elim

theorem enter_asks_late (hcall : call.Asks) (hworkspace : v.workspace.isSome = true)
    (hstopped : v.stopped = true) :
    enter readers v call = .refused (.invalidRequest "Server is shutting down") := by
  cases call with
  | request method params =>
    have hmethod : method ≠ "initialize" := hcall
    obtain ⟨w, hw⟩ := Option.isSome_iff_exists.mp hworkspace
    simp [enter, hmethod, hw, hstopped]
  | notification method params => exact hcall.elim

theorem enter_tells_early (hcall : call.Tells) (hworkspace : v.workspace = none) :
    enter readers v call = .dropped := by
  cases call with
  | request method params => exact hcall.elim
  | notification method params => simp [enter, hworkspace]

end Admission

theorem Acts.keeps {call : Call} {stage stage' : Stage} {h h' : ServerHost}
    (ha : Acts readers call stage h stage' h') (hf : Fits readers h.server call stage)
    (hstage : stage.Claiming ∨ stage.Begun) : stage'.Claiming ∨ stage'.Begun := by
  cases ha with
  | configure => exact .inl trivial
  | restore => exact .inl trivial
  | install =>
    rw [Handling.install, if_neg (by simp [hf.2.2])]
    exact .inr trivial
  | launch => exact .inr trivial
  | _ => exact (hstage.elim id id).elim

theorem Step.follows {e : Event} (hstep : Step readers e s s') (hcrash : ∀ k, e ≠ .crash k) :
    Follows s.host.server s'.host.server := by
  cases hstep with
  | turn ht hacts => exact hacts.follows
  | crash ht hkept r cause => exact absurd rfl (hcrash _)
  | _ => exact ⟨id, id, id⟩

theorem Runs.follows {events : List Event} (hrun : Runs readers events s s') (hcalm : Calm events) :
    Follows s.host.server s'.host.server := by
  induction hrun with
  | nil => exact ⟨id, id, id⟩
  | cons hstep _ ih =>
    have hf := hstep.follows hcalm.head
    have hf' := ih hcalm.tail
    exact ⟨hf'.claimed ∘ hf.claimed, hf'.workspace ∘ hf.workspace, hf'.stopped ∘ hf.stopped⟩

namespace Orderly

theorem refused_of_claimed (ho : Orderly readers s) {j : Nat} (hk : s.HasClaimed readers k)
    (hjk : j ≠ k) (hj : s.Received j (Call.Begins readers)) : s.Refused readers j (-32600) := by
  obtain ⟨⟨call, stage⟩, ht, hcall, -⟩ := hj
  have hf := ho.fits j _ ht
  have hothers : ¬ (stage.Claiming ∨ stage.Begun) := fun hstage =>
    hjk (ho.one_claim j k ⟨_, ht, hcall, hstage⟩ hk)
  cases stage with
  | received => exact refused_of_enter ht (enter_begins hcall (ho.claimed hk))
  | refused fault => exact .inl ⟨_, ht, trivial, hf.2.1 hcall⟩
  | dropped => exact absurd hf hcall.not_tells
  | claimed c => exact absurd (.inl trivial) hothers
  | configured root config => exact absurd (.inl trivial) hothers
  | restored root config => exact absurd (.inl trivial) hothers
  | installed root => exact absurd (.inr trivial) hothers
  | serving w r => exact absurd hf.1.asks hcall.not_asks
  | stopping w => exact absurd hf.1.asks hcall.not_asks
  | answered answer =>
    obtain ⟨value, rfl⟩ := (hf.2.2.1 hcall).2
    exact absurd (.inr trivial) hothers
  | hearing notice => exact absurd hf.1 hcall.not_tells
  | heard => exact absurd hf.1 hcall.not_tells

theorem refused_before (ho : Orderly readers s) (hworkspace : s.host.server.workspace = none)
    (hk : s.Received k Call.Asks) : s.Refused readers k (-32002) := by
  obtain ⟨⟨call, stage⟩, ht, hcall, -⟩ := hk
  have hf := ho.fits k _ ht
  rcases hf.early hworkspace fun hbegins => hbegins.not_asks hcall with rfl | ⟨fault, rfl⟩ | rfl
  · exact refused_of_enter ht (enter_asks_early hcall hworkspace)
  · exact .inl ⟨_, ht, trivial, (hf.2.2 hcall).resolve_right (by simp [hworkspace])⟩
  · exact absurd hf hcall.not_tells

theorem ignored_before (ho : Orderly readers s) (hworkspace : s.host.server.workspace = none)
    (hk : s.Received k Call.Tells) : s.Ignored readers k := by
  obtain ⟨⟨call, stage⟩, ht, hcall, -⟩ := hk
  have hf := ho.fits k _ ht
  rcases hf.early hworkspace fun hbegins => hbegins.not_tells hcall with rfl | ⟨fault, rfl⟩ | rfl
  · have henter : enter readers s.host.server call = .dropped := enter_tells_early hcall hworkspace
    exact turnedAway_of_enter ht henter (by simp [henter])
  · exact absurd hcall hf.1
  · exact .inl ⟨_, ht, trivial, rfl⟩

theorem stopped (ho : Orderly readers s) (hk : s.HasAccepted k) : s.host.server.stopped = true := by
  obtain ⟨⟨call, stage⟩, ht, hcall, hstage⟩ := hk
  have hf := ho.fits k _ ht
  cases stage with
  | stopping w => exact hf.2.1
  | answered answer => exact (hf.2.2.2 hcall).1
  | _ => exact hstage.elim

theorem exitCode_eq_zero (ho : Orderly readers s) : exitCode s.host = 0 ↔ ∃ k, s.HasAccepted k := by
  have hcode : exitCode s.host = 0 ↔ s.host.server.stopped = true := by simp [exitCode]
  rw [hcode]
  exact ⟨ho.accepted, fun ⟨_, hk⟩ => ho.stopped hk⟩

theorem one_success (ho : Orderly readers s) {j : Nat} (hj : s.HasSucceeded readers j)
    (hk : s.HasSucceeded readers k) : j = k := by
  have hclaimed {i : Nat} : s.HasSucceeded readers i → s.HasClaimed readers i := by
    rintro ⟨⟨call, stage⟩, ht, hcall, value, hvalue⟩
    refine ⟨_, ht, hcall, .inr ?_⟩
    cases stage with
    | answered answer =>
      obtain rfl : answer = .result value := Option.some.inj hvalue
      trivial
    | _ => cases hvalue
  exact ho.one_claim j k (hclaimed hj) (hclaimed hk)

theorem claimed_step (ho : Orderly readers s) {e : Event} (hstep : Step readers e s s')
    (hcrash : ∀ k, e ≠ .crash k) (hk : s.HasClaimed readers k) : s'.HasClaimed readers k := by
  obtain ⟨t, ht, hcall, hstage⟩ := hk
  cases hstep with
  | arrive call =>
    obtain ⟨hlt, -⟩ := List.getElem?_eq_some_iff.mp ht
    exact ⟨t, by rwa [List.getElem?_append_left hlt], hcall, hstage⟩
  | @turn _ j u stage h hu hacts =>
    by_cases hjk : j = k
    · subst hjk
      obtain rfl := Option.some.inj (ht.symm.trans hu)
      exact ⟨_, getElem?_set_of_some ht, hcall, hacts.keeps (ho.fits j t ht) hstage⟩
    · exact ⟨t, by rwa [List.getElem?_set_ne hjk], hcall, hstage⟩
  | crash hu hkept r cause => exact absurd rfl (hcrash _)
  | elsewhere hworkspace x => exact ⟨t, ht, hcall, hstage⟩
  | files disk => exact ⟨t, ht, hcall, hstage⟩

theorem claimed_run (ho : Orderly readers s) {events : List Event} (hrun : Runs readers events s s')
    (hcalm : Calm events) (hk : s.HasClaimed readers k) : s'.HasClaimed readers k := by
  induction hrun with
  | nil => exact hk
  | cons hstep _ ih =>
    exact ih (ho.step hstep hcalm.head) hcalm.tail (ho.claimed_step hstep hcalm.head hk)

end Orderly

section Late

def Late (k : Nat) (s : State) : Prop :=
  ∀ t : Task, s.tasks[k]? = some t →
    t.stage = .received ∨ (t.call.Asks → t.stage.Refusing (-32600))

theorem late_turn {t : Task} {stage : Stage} {h : ServerHost}
    (hworkspace : s.host.server.workspace.isSome = true)
    (hstopped : s.host.server.stopped = true) (ht : s.tasks[k]? = some t)
    (hacts : Acts readers t.call t.stage s.host stage h) (hk : Late k s) (hcall : t.call.Asks) :
    stage.Refusing (-32600) := by
  have hold := hk t ht
  obtain ⟨call, old⟩ := t
  rcases hold with rfl | hrefusing
  · cases hacts with
    | enter =>
      rw [enter_asks_late hcall hworkspace hstopped]
      rfl
  · have hold := hrefusing hcall
    cases hacts <;> exact hold.elim

theorem late_step (hworkspace : s.host.server.workspace.isSome = true)
    (hstopped : s.host.server.stopped = true) {e : Event} (hstep : Step readers e s s')
    (hcrash : ∀ k, e ≠ .crash k) (hk : Late k s) : Late k s' := by
  intro t ht
  cases hstep with
  | arrive call =>
    rcases getElem?_append_cases ht with ht | ⟨-, rfl⟩
    · exact hk t ht
    · exact .inl rfl
  | @turn _ _ u stage h hu hacts =>
    rcases getElem?_set_cases ht with ⟨rfl, rfl⟩ | ⟨-, ht⟩
    · exact .inr fun hcall : u.call.Asks => late_turn hworkspace hstopped hu hacts hk hcall
    · exact hk t ht
  | crash hu hkept r cause => exact absurd rfl (hcrash _)
  | elsewhere hworkspace x => exact hk t ht
  | files disk => exact hk t ht

theorem late_run (hworkspace : s.host.server.workspace.isSome = true)
    (hstopped : s.host.server.stopped = true) {events : List Event} (hrun : Runs readers events s s')
    (hcalm : Calm events) (hk : Late k s) : Late k s' := by
  induction hrun with
  | nil => exact hk
  | cons hstep _ ih =>
    have hf := hstep.follows hcalm.head
    exact ih (hf.workspace hworkspace) (hf.stopped hstopped) hcalm.tail
      (late_step hworkspace hstopped hstep hcalm.head hk)

theorem Orderly.refused_after (ho : Orderly readers s) (hk : s.HasAccepted k) {events : List Event}
    (hrun : Runs readers events s s') (hcalm : Calm events) {j : Nat}
    (hj : s.tasks.length ≤ j ∨ s.Reached j (· = .received)) (hcall : s'.Received j Call.Asks) :
    s'.Refused readers j (-32600) := by
  have hstopped := ho.stopped hk
  have hworkspace := ho.workspace_of_stopped hstopped
  have hlate : Late j s := by
    intro t ht
    rcases hj with hlen | ⟨u, hu, -, hstage⟩
    · rw [List.getElem?_eq_none hlen] at ht
      cases ht
    · obtain rfl := Option.some.inj (hu.symm.trans ht)
      exact .inl hstage
  have hf := hrun.follows hcalm
  obtain ⟨⟨call, stage⟩, ht, hcall, -⟩ := hcall
  rcases late_run hworkspace hstopped hrun hcalm hlate _ ht with rfl | hrefusing
  · exact refused_of_enter ht
      (enter_asks_late hcall (hf.workspace hworkspace) (hf.stopped hstopped))
  · exact .inl ⟨_, ht, trivial, hrefusing hcall⟩

end Late

theorem untouched_of_turn (hstep : Step readers (.turn k) s s')
    (hstage : s'.Reached k fun stage => (∃ fault, stage = .refused fault) ∨ stage = .dropped) :
    s.Reached k (· = .received) ∧ s'.host = s.host := by
  obtain ⟨u, hu, -, hstage⟩ := hstage
  cases hstep with
  | @turn _ _ t stage h ht hacts =>
    obtain rfl := Option.some.inj ((getElem?_set_of_some ht).symm.trans hu)
    obtain ⟨call, old⟩ := t
    cases hacts with
    | enter =>
      refine ⟨⟨_, ht, trivial, rfl⟩, ?_⟩
      rcases hstage with ⟨fault, hfault⟩ | hdropped
      · have henter : enter readers s.host.server call = .refused fault := hfault
        rw [henter]
        rfl
      · have henter : enter readers s.host.server call = .dropped := hdropped
        rw [henter]
        rfl
    | install =>
      unfold install at hstage
      split at hstage <;> simp at hstage
    | _ => simp at hstage

structure Lawful (readers : Readers) (s : State) : Prop where
  one_success : ∀ j k, s.HasSucceeded readers j → s.HasSucceeded readers k → j = k
  claimed : ∀ k, s.HasClaimed readers k → ∀ events s', Runs readers events s s' → Calm events →
    ∀ j ≠ k, s'.Received j (Call.Begins readers) → s'.Refused readers j (-32600)
  asked_early : s.host.server.workspace = none →
    ∀ k, s.Received k Call.Asks → s.Refused readers k (-32002)
  told_early : s.host.server.workspace = none → ∀ k, s.Received k Call.Tells → s.Ignored readers k
  asked_late : ∀ k, s.HasAccepted k → ∀ events s', Runs readers events s s' → Calm events →
    ∀ j, s.tasks.length ≤ j ∨ s.Reached j (· = .received) → s'.Received j Call.Asks →
      s'.Refused readers j (-32600)
  exitCode_eq_zero : exitCode s.host = 0 ↔ ∃ k, s.HasAccepted k
  untouched : ∀ k s', Step readers (.turn k) s s' →
    (s'.Reached k fun stage => (∃ fault, stage = .refused fault) ∨ stage = .dropped) →
      s.Reached k (· = .received) ∧ s'.host = s.host

theorem Orderly.lawful (ho : Orderly readers s) : Lawful readers s where
  one_success _ _ := ho.one_success
  claimed _ hk _ _ hrun hcalm _ hjk hj :=
    (ho.run hrun hcalm).refused_of_claimed (ho.claimed_run hrun hcalm hk) hjk hj
  asked_early hworkspace _ := ho.refused_before hworkspace
  told_early hworkspace _ := ho.ignored_before hworkspace
  asked_late _ hk _ _ hrun hcalm _ := ho.refused_after hk hrun hcalm
  exitCode_eq_zero := ho.exitCode_eq_zero
  untouched _ _ := untouched_of_turn

section Alone

variable {call : Call} {stage stage' : Stage} {h h' : ServerHost} {ts : List Task}

inductive Ends (readers : Readers) (call : Call) :
    Stage → ServerHost → Stage → ServerHost → Prop where
  | refl {stage : Stage} {h : ServerHost} : Ends readers call stage h stage h
  | acts {stage stage' stage'' : Stage} {h h' h'' : ServerHost}
      (ha : Acts readers call stage h stage' h') (hrest : Ends readers call stage' h' stage'' h'') : Ends readers call stage h stage'' h''
  | elsewhere {stage stage' : Stage} {h h' : ServerHost}
      (hworkspace : h.server.workspace.isSome = true) (x : Indexer)
      (hrest : Ends readers call stage (withIndexer h x) stage' h') :
      Ends readers call stage h stage' h'

theorem Step.turned (ht : s.tasks[k]? = some ⟨call, stage⟩)
    (ha : Acts readers call stage s.host stage' h) (hts : s.tasks.set k ⟨call, stage'⟩ = ts) :
    Step readers (.turn k) s ⟨h, ts⟩ := by
  subst hts
  exact .turn ht ha

theorem turn_last (ha : Acts readers call stage h stage' h') :
    Step readers (.turn ts.length) ⟨h, ts ++ [⟨call, stage⟩]⟩ ⟨h', ts ++ [⟨call, stage'⟩]⟩ :=
  .turned (by simp) ha (by simp [List.set_append_right])

theorem Ends.runs (he : Ends readers call stage h stage' h') (ts : List Task) :
    ∃ events, Calm events ∧
      Runs readers events ⟨h, ts ++ [⟨call, stage⟩]⟩ ⟨h', ts ++ [⟨call, stage'⟩]⟩ := by
  induction he with
  | refl => exact ⟨[], fun k hk => (by simp at hk), .nil⟩
  | acts ha _ ih =>
    obtain ⟨events, hcalm, hrun⟩ := ih
    exact ⟨.turn ts.length :: events, fun k hk => hcalm k (by simpa using hk),
      .cons (turn_last ha) hrun⟩
  | elsewhere hworkspace x _ ih =>
    obtain ⟨events, hcalm, hrun⟩ := ih
    exact ⟨.elsewhere :: events, fun k hk => hcalm k (by simpa using hk),
      .cons (.elsewhere hworkspace x) hrun⟩

theorem Acts.entered (henter : Handling.enter readers h.server call = stage) :
    Acts readers call .received h stage { h with server := claiming h.server stage } := by
  subst henter
  exact .enter

theorem Ends.entered (henter : enter readers h.server call = stage)
    (hrest : Ends readers call stage { h with server := claiming h.server stage } stage' h') :
    Ends readers call .received h stage' h' :=
  .acts (.entered henter) hrest

theorem Ends.installed {root : Option String} {config : Config}
    (hworkspace : h.server.workspace = none)
    (hrest : Ends readers call (.installed root)
      { h with server := { h.server with
          workspace := some ⟨config, root.bind (Package.load? h.disk), storeOf config root⟩
          indexer := ⟨h.server.indexer.repository, .empty⟩ } } stage' h') :
    Ends readers call (.restored root config) h stage' h' := by
  refine .acts .install ?_
  rwa [install, if_neg (by simp [hworkspace])]

theorem ends_sweepRoot (grammar : Grammar) (root : Option String) (config : Config)
    (hworkspace : h.server.workspace.isSome = true) :
    Ends readers call stage (withRepository h (launched root h.server.indexer.repository)) stage
      (withIndexer h (sweepRoot grammar h.disk config root h.server.indexer)) := by
  unfold launched sweepRoot
  cases root.bind uriOfPath? with
  | none => exact .refl
  | some uri => exact .elsewhere hworkspace _ .refl

theorem ends_begin (grammar : Grammar) {params : Json} {c : Client}
    (hparams : readers.client params = .ok c)
    (hfree : h.server.claimed = false → h.server.workspace = none) :
    ∃ stage, Ends readers (.request "initialize" params) .received h stage
        { h with server := (h.server.begin grammar h.disk c).2 } ∧
      stage.answer? = some (h.server.begin grammar h.disk c).1 := by
  unfold Server.begin
  split
  · next hclaimed => exact ⟨.refused _, .entered (by simp [enter, hparams, hclaimed]) .refl, rfl⟩
  · next hclaimed =>
    have hunset := hfree (by simpa using hclaimed)
    refine ⟨.answered (.result greeting), .entered (by simp [enter, hparams, hclaimed]; rfl)
      (.acts .configure (.acts .restore (.installed hunset (.acts .launch ?_)))), rfl⟩
    exact ends_sweepRoot grammar (Client.rootPath? c) (configOf h (Client.rootPath? c)) rfl

theorem ends_serve (grammar : Grammar) (now : Timestamp) (w : Workspace) (r : Request) :
    Ends readers call (.serving w r) h (.answered (.result (serve grammar now h w r).1))
      (serve grammar now h w r).2 := by
  cases r with
  | shutdown => exact .acts .stop (.acts (.save now) .refl)
  | _ => exact .acts (.serve (by simp) _ _) .refl

theorem ends_request (grammar : Grammar) (now : Timestamp) (method : String) (params : Json)
    (hfree : h.server.claimed = false → h.server.workspace = none) :
    ∃ stage, Ends readers (.request method params) .received h stage
        (request readers grammar now h method params).2 ∧
      stage.answer? = some (request readers grammar now h method params).1 := by
  unfold request
  split
  · next hmethod =>
    subst hmethod
    split
    · next hparams => exact ⟨.refused _, .entered (by simp [enter, hparams]) .refl, rfl⟩
    · next c hparams => exact ends_begin grammar hparams hfree
  · next hmethod =>
    split
    · next hw => exact ⟨.refused _, .entered (by simp [enter, hmethod, hw]) .refl, rfl⟩
    · next w hw =>
      split
      · next hs => exact ⟨.refused _, .entered (by simp [enter, hmethod, hw, hs]) .refl, rfl⟩
      · next hs =>
        split
        · next fault hr =>
          exact ⟨.refused fault, .entered (by simp [enter, hmethod, hw, hs, hr]) .refl, rfl⟩
        · next r hr =>
          exact ⟨_, .entered (by simp [enter, hmethod, hw, hs, hr])
            (ends_serve grammar now w r), rfl⟩

theorem ends_notify (grammar : Grammar) (method : String) (params : Json) :
    ∃ stage, Ends readers (.notification method params) .received h stage
      (notify readers grammar h method params) := by
  unfold notify
  split
  · next hw => exact ⟨.dropped, .entered (by simp [enter, hw]) .refl⟩
  · next hw =>
    split
    · next hn => exact ⟨.dropped, .entered (by simp [enter, hw, hn]) .refl⟩
    · next notice hn =>
      exact ⟨.heard, .entered (by simp [enter, hw, hn]; rfl) (.acts (.hear _) .refl)⟩

def Completes (readers : Readers) (s : State) (call : Call) (stage : Stage) (h : ServerHost) : Prop :=
  ∃ events, Calm events ∧ Runs readers (.arrive call :: events) s ⟨h, s.tasks ++ [⟨call, stage⟩]⟩

theorem Ends.completes (he : Ends readers call .received s.host stage h) :
    Completes readers s call stage h := by
  obtain ⟨events, hcalm, hrun⟩ := he.runs s.tasks
  exact ⟨events, hcalm, .cons (.arrive call) hrun⟩

end Alone

theorem calls_answered_by_phase {readers : Readers} {defaults : Config} {disk : FileTree}
    {events : List Event} (hrun : Runs readers events (start defaults disk) s) (hcalm : Calm events) :
    Lawful readers s ∧
      (∀ grammar now method params, ∃ stage,
        Completes readers s (.request method params) stage
            (request readers grammar now s.host method params).2 ∧
          stage.answer? = some (request readers grammar now s.host method params).1) ∧
      ∀ grammar method params, ∃ stage,
        Completes readers s (.notification method params) stage
          (notify readers grammar s.host method params) := by
  have ho : Orderly readers s := (orderly_start readers defaults disk).run hrun hcalm
  refine ⟨ho.lawful, fun grammar now method params => ?_, fun grammar method params => ?_⟩
  · have hfree : s.host.server.claimed = false → s.host.server.workspace = none := fun hfree => by
      simpa [hfree] using ho.claimed_of_workspace
    obtain ⟨stage, hends, hanswer⟩ := ends_request grammar now method params hfree
    exact ⟨stage, hends.completes, hanswer⟩
  · obtain ⟨stage, hends⟩ := ends_notify (h := s.host) grammar method params
    exact ⟨stage, hends.completes⟩

theorem calls_answered_by_phase_overlapping :
    let readers : Readers := .standard
    let first : Call := .request "initialize" (.object [("capabilities", .object [])])
    let hover : Call := .request "textDocument/hover" .null
    let last : Call := .request "shutdown" .null
    let events : List Event := [.arrive first, .arrive first, .turn 0, .arrive hover, .turn 2,
      .turn 0, .turn 0, .turn 0, .turn 0, .arrive last, .turn 3, .turn 3, .arrive hover]
    ∃ s, Runs readers events (start {} .empty) s ∧ Calm events ∧ s.HasSucceeded readers 0 ∧
      s.Refused readers 1 (-32600) ∧ s.Refused readers 2 (-32002) ∧ s.HasAccepted 3 ∧
      s.Refused readers 4 (-32600) ∧ exitCode s.host = 0 := by
  intro readers first hover last events
  have hparams : Client.ofJson? (.object [("capabilities", .object [])]) = some ⟨none, none⟩ := by
    decide +kernel
  have hclient : readers.client (.object [("capabilities", .object [])]) = .ok ⟨none, none⟩ := by
    simp [readers, Readers.standard, orMalformed, hparams]
  let w : Workspace := ⟨{}, none, none⟩
  let x : Indexer := ⟨Repository.empty.markComplete, .empty⟩
  let claimed : ServerHost := ⟨⟨{}, .empty, none, true, false⟩, .empty⟩
  let installed : ServerHost := ⟨⟨{}, .empty, some w, true, false⟩, .empty⟩
  let ready : ServerHost := ⟨⟨{}, x, some w, true, false⟩, .empty⟩
  let stopped : ServerHost := ⟨⟨{}, x, some w, true, true⟩, .empty⟩
  let second : Task := ⟨first, .received⟩
  let early : Task := ⟨hover, .refused .notInitialized⟩
  let done : Task := ⟨first, .answered (.result greeting)⟩
  let s : State := ⟨stopped, [done, second, early, ⟨last, .stopping w⟩, ⟨hover, .received⟩]⟩
  have hrun : Runs readers events (start {} .empty) s := by
    have hclaim : enter readers (.start {}) first = .claimed ⟨none, none⟩ := by
      simp [first, enter, hclient, Server.start]
    refine .cons (.arrive first) (.cons (.arrive first) ?_)
    refine .cons (p := ⟨claimed, [⟨first, .claimed ⟨none, none⟩⟩, second]⟩)
      (.turned rfl (.entered hclaim) rfl) (.cons (.arrive hover) ?_)
    refine .cons (p := ⟨claimed, [⟨first, .claimed ⟨none, none⟩⟩, second, early]⟩)
      (.turned rfl (.entered rfl) rfl) ?_
    refine .cons (p := ⟨claimed, [⟨first, .configured none {}⟩, second, early]⟩)
      (.turned rfl .configure rfl) ?_
    refine .cons (p := ⟨claimed, [⟨first, .restored none {}⟩, second, early]⟩)
      (.turned rfl .restore rfl) ?_
    refine .cons (p := ⟨installed, [⟨first, .installed none⟩, second, early]⟩)
      (.turned rfl .install rfl) ?_
    refine .cons (p := ⟨ready, [done, second, early]⟩) (.turned rfl .launch rfl) ?_
    refine .cons (.arrive last) ?_
    refine .cons (p := ⟨ready, [done, second, early, ⟨last, .serving w .shutdown⟩]⟩)
      (.turned rfl (.entered rfl) rfl) ?_
    exact .cons (.turned rfl .stop rfl) (.cons (.arrive hover) .nil)
  have hcalm : Calm events := fun k hk => by simp [events] at hk
  have hsucceeded : s.HasSucceeded readers 0 := ⟨done, rfl, ⟨rfl, _, hclient⟩, greeting, rfl⟩
  have hclaimed : s.HasClaimed readers 0 := ⟨done, rfl, ⟨rfl, _, hclient⟩, .inr trivial⟩
  have haccepted : s.HasAccepted 3 := ⟨_, rfl, rfl, trivial⟩
  obtain ⟨hlaw, -, -⟩ := calls_answered_by_phase hrun hcalm
  refine ⟨s, hrun, hcalm, hsucceeded, ?_, .inl ⟨early, rfl, trivial, rfl⟩, haccepted, ?_,
    hlaw.exitCode_eq_zero.mpr ⟨3, haccepted⟩⟩
  · exact hlaw.claimed 0 hclaimed [] s .nil (fun k hk => by cases hk) 1 (by decide)
      ⟨second, rfl, ⟨rfl, _, hclient⟩, trivial⟩
  · exact hlaw.asked_late 3 haccepted [] s .nil (fun k hk => by cases hk) 4
      (.inr ⟨_, rfl, trivial, rfl⟩) ⟨_, rfl, by simp [hover, Call.Asks], trivial⟩

end SemanticIndex.Handling
