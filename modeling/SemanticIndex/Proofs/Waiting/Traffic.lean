import SemanticIndex.Index.Waiter

namespace SemanticIndex

namespace Waiter

inductive Move (r : Repository) : Waiter → Waiter → Prop where
  | found {names : List String} {n : Nat} {d : Definition}
      (h : r.state.lookup? names = some d) :
      Move r ⟨names, n, .looking⟩ ⟨names, n, .answered (some d)⟩
  | missed {names : List String} {n : Nat} (h : r.state.lookup? names = none) :
      Move r ⟨names, n, .looking⟩ ⟨names, n, .checking⟩
  | complete {names : List String} {n : Nat} (h : r.status = .complete) :
      Move r ⟨names, n, .checking⟩ ⟨names, n, .lastLook⟩
  | incomplete {names : List String} {n : Nat} (h : r.status ≠ .complete) :
      Move r ⟨names, n, .checking⟩ ⟨names, n, .receiving⟩
  | settled {names : List String} {n : Nat} :
      Move r ⟨names, n, .lastLook⟩ ⟨names, n, .answered (r.state.lookup? names)⟩
  | received {names : List String} {n k : Nat} (h : n + k ≤ r.channel.sent) :
      Move r ⟨names, n, .receiving⟩ ⟨names, n + k, .looking⟩

theorem move_of_step? {r : Repository} {w w' : Waiter} (h : w.step? r = some w') :
    Move r w w' := by
  obtain ⟨names, n, phase⟩ := w
  cases phase with
  | looking =>
    cases hl : r.state.lookup? names with
    | some d =>
      simp only [step?, hl, Option.some.injEq] at h
      subst h
      exact .found hl
    | none =>
      simp only [step?, hl, Option.some.injEq] at h
      subst h
      exact .missed hl
  | checking =>
    simp only [step?, Option.some.injEq] at h
    subst h
    split
    · next hc => exact .complete hc
    · next hc => exact .incomplete hc
  | lastLook =>
    simp only [step?, Option.some.injEq] at h
    subst h
    exact .settled
  | receiving =>
    cases hr : r.channel.receive n with
    | nothing => simp [step?, hr] at h
    | lagged missed =>
      simp only [step?, hr, Option.some.injEq] at h
      subst h
      exact .received (Channel.receive_lagged hr).2
    | event e =>
      simp only [step?, hr, Option.some.injEq] at h
      subst h
      exact .received (Channel.receive_event hr)
  | answered a => simp [step?] at h

def Blocked (r : Repository) (w : Waiter) : Prop :=
  w.phase = .receiving ∧ r.channel.receive w.cursor = .nothing

end Waiter

structure Writer where
  names : List String
  told : Nat
  deriving DecidableEq, Repr

def Writer.Silent (w : Writer) : Prop := w.names ≠ [] ∧ w.told = 0

inductive Action where
  | upsert (f : File)
  | remove (uri : String)
  | send (writer : Nat)
  | markVerified (uri : String)
  | beginIndexing
  | markComplete
  | restore (s : Snapshot)
  | subscribe (candidates : List String)
  | advance (waiter : Nat)
  deriving DecidableEq, Repr

structure Traffic where
  repo : Repository
  writers : List Writer
  waiters : List Waiter
  log : List IndexEvent

namespace Traffic

def start : Traffic := ⟨.empty, [], [], []⟩

def step? (c : Traffic) : Action → Option Traffic
  | .upsert f => some { c with
      repo := { c.repo with state := c.repo.state.replace f }
      writers := c.writers ++ [⟨c.repo.state.replaceChanges f, 0⟩] }
  | .remove uri => some { c with
      repo := { c.repo with state := c.repo.state.remove uri }
      writers := c.writers ++ [⟨c.repo.state.removeChanges uri, 0⟩] }
  | .send i => do
      let w ← c.writers[i]?
      let name ← w.names[w.told]?
      some { c with
        repo := { c.repo with channel := c.repo.channel.send (.added name) }
        writers := c.writers.set i { w with told := w.told + 1 }
        log := c.log ++ [.added name] }
  | .markVerified uri => some { c with repo := c.repo.markVerified uri }
  | .beginIndexing => some { c with repo := c.repo.beginIndexing }
  | .markComplete => some { c with
      repo := c.repo.markComplete
      log := if c.repo.status = .complete then c.log else c.log ++ [.complete] }
  | .restore s =>
      if c.waiters.all (·.answer?.isSome) then some { c with repo := c.repo.restore s } else none
  | .subscribe candidates => some { c with
      waiters := c.waiters ++ [.start c.repo candidates] }
  | .advance i => do
      let w ← c.waiters[i]?
      let w' ← w.step? c.repo
      some { c with waiters := c.waiters.set i w' }

def run? (c : Traffic) (as : List Action) : Option Traffic := as.foldlM step? c

theorem run?_append {c d : Traffic} {as bs : List Action} :
    c.run? (as ++ bs) = some d ↔ ∃ p, c.run? as = some p ∧ p.run? bs = some d := by
  rw [run?, List.foldlM_append, Option.bind_eq_bind, Option.bind_eq_some_iff]
  rfl

theorem run?_concat {c d : Traffic} {as : List Action} {a : Action} :
    c.run? (as ++ [a]) = some d ↔ ∃ p, c.run? as = some p ∧ p.step? a = some d := by
  rw [run?, List.foldlM_append, Option.bind_eq_bind, Option.bind_eq_some_iff]
  simp [run?]

theorem step?_send {c d : Traffic} {i : Nat} (h : c.step? (.send i) = some d) :
    ∃ w name, c.writers[i]? = some w ∧ w.names[w.told]? = some name ∧
      d = { c with
        repo := { c.repo with channel := c.repo.channel.send (.added name) }
        writers := c.writers.set i { w with told := w.told + 1 }
        log := c.log ++ [.added name] } := by
  simp only [step?, Option.bind_eq_bind, Option.bind_eq_some_iff, Option.some.injEq] at h
  obtain ⟨w, hw, name, hn, rfl⟩ := h
  exact ⟨w, name, hw, hn, rfl⟩

theorem step?_advance {c d : Traffic} {i : Nat} (h : c.step? (.advance i) = some d) :
    ∃ w w', c.waiters[i]? = some w ∧ w.Move c.repo w' ∧
      d = { c with waiters := c.waiters.set i w' } := by
  simp only [step?, Option.bind_eq_bind, Option.bind_eq_some_iff, Option.some.injEq] at h
  obtain ⟨w, hw, w', hs, rfl⟩ := h
  exact ⟨w, w', hw, Waiter.move_of_step? hs, rfl⟩

theorem step?_restore {c d : Traffic} {s : Snapshot} (h : c.step? (.restore s) = some d) :
    (∀ w ∈ c.waiters, ∃ a, w.phase = .answered a) ∧ d = { c with repo := c.repo.restore s } := by
  simp only [step?] at h
  split at h
  · next ha =>
    cases h
    refine ⟨fun w hw => ?_, rfl⟩
    have hs := List.all_eq_true.mp ha w hw
    unfold Waiter.answer? at hs
    split at hs
    · next a hp => exact ⟨a, hp⟩
    · cases hs
  · cases h

end Traffic

end SemanticIndex
