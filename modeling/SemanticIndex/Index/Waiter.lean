import SemanticIndex.Index.Repository

namespace SemanticIndex

inductive WaiterPhase where
  | looking
  | checking
  | lastLook
  | receiving
  | answered (answer : Option Definition)
  deriving DecidableEq, Repr

structure Waiter where
  candidates : List String
  cursor : Nat
  phase : WaiterPhase
  deriving DecidableEq, Repr

namespace Waiter

def start (r : Repository) (candidates : List String) : Waiter :=
  ⟨candidates, r.channel.sent, .looking⟩

def step? (r : Repository) (w : Waiter) : Option Waiter :=
  match w.phase with
  | .looking =>
      match r.state.lookup? w.candidates with
      | some d => some { w with phase := .answered (some d) }
      | none => some { w with phase := .checking }
  | .checking =>
      some { w with phase := if r.status = .complete then .lastLook else .receiving }
  | .lastLook => some { w with phase := .answered (r.state.lookup? w.candidates) }
  | .receiving =>
      match r.channel.receive w.cursor with
      | .nothing => none
      | .lagged missed => some { w with cursor := w.cursor + missed, phase := .looking }
      | .event _ => some { w with cursor := w.cursor + 1, phase := .looking }
  | .answered _ => none

def rank : WaiterPhase → Nat
  | .looking => 3
  | .checking => 2
  | .lastLook => 1
  | .receiving => 1
  | .answered _ => 0

def stepsLeft (r : Repository) (w : Waiter) : Nat :=
  4 * (r.channel.sent - w.cursor) + rank w.phase

theorem stepsLeft_lt {r : Repository} {w w' : Waiter} (h : w.step? r = some w') :
    w'.stepsLeft r < w.stepsLeft r := by
  unfold step? at h
  split at h
  · next hp => split at h <;> simp only [Option.some.injEq] at h <;> subst h <;> simp [stepsLeft, rank, hp]
  · next hp =>
      simp only [Option.some.injEq] at h
      subst h
      by_cases hc : r.status = .complete <;> simp [stepsLeft, rank, hp, hc]
  · next hp => simp only [Option.some.injEq] at h; subst h; simp [stepsLeft, rank, hp]
  · next hp =>
      split at h
      · simp at h
      · next hr =>
          have := Channel.receive_lagged hr
          simp only [Option.some.injEq] at h
          subst h
          simp only [stepsLeft, rank, hp]
          omega
      · next hr =>
          have := Channel.receive_event hr
          simp only [Option.some.injEq] at h
          subst h
          simp only [stepsLeft, rank, hp]
          omega
  · simp at h

def poll (r : Repository) (w : Waiter) : Waiter :=
  match _h : w.step? r with
  | none => w
  | some w' => w'.poll r
termination_by w.stepsLeft r
decreasing_by exact stepsLeft_lt _h

def answer? (w : Waiter) : Option (Option Definition) :=
  match w.phase with
  | .answered a => some a
  | _ => none

end Waiter

end SemanticIndex
