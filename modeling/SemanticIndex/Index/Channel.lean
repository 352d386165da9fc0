namespace SemanticIndex

structure Channel (α : Type) where
  dropped : Nat
  kept : List α
  deriving DecidableEq, Repr

inductive Received (α : Type) where
  | nothing
  | lagged (missed : Nat)
  | event (e : α)
  deriving DecidableEq, Repr

namespace Channel

variable {α : Type}

def capacity : Nat := 1024

def empty : Channel α := ⟨0, []⟩

def sent (c : Channel α) : Nat := c.dropped + c.kept.length

def send (c : Channel α) (e : α) : Channel α :=
  if c.kept.length < capacity then { c with kept := c.kept ++ [e] }
  else ⟨c.dropped + 1, c.kept.drop 1 ++ [e]⟩

def sendAll (c : Channel α) (es : List α) : Channel α :=
  es.foldl send c

def receive (c : Channel α) (cursor : Nat) : Received α :=
  if cursor < c.dropped then .lagged (c.dropped - cursor)
  else
    match c.kept[cursor - c.dropped]? with
    | some e => .event e
    | none => .nothing

def drain (c : Channel α) (cursor : Nat) : List (Received α) :=
  (if cursor < c.dropped then [.lagged (c.dropped - cursor)] else []) ++
    (c.kept.drop (cursor - c.dropped)).map .event

@[simp] theorem sent_send (c : Channel α) (e : α) : (c.send e).sent = c.sent + 1 := by
  unfold send sent
  split
  · simp; omega
  · next h =>
      simp only [List.length_append, List.length_drop, List.length_singleton]
      have : 0 < capacity := by decide
      omega

theorem sent_sendAll (c : Channel α) (es : List α) : (c.sendAll es).sent = c.sent + es.length := by
  induction es generalizing c with
  | nil => rfl
  | cons e es ih =>
      have := ih (c.send e)
      simp only [sendAll, List.foldl_cons, List.length_cons] at *
      rw [this, sent_send]
      omega

theorem receive_lagged {c : Channel α} {cursor missed : Nat} (h : c.receive cursor = .lagged missed) :
    0 < missed ∧ cursor + missed ≤ c.sent := by
  unfold receive at h
  split at h
  · simp only [Received.lagged.injEq] at h
    simp only [sent]
    omega
  · split at h <;> simp at h

theorem receive_event {c : Channel α} {cursor : Nat} {e : α} (h : c.receive cursor = .event e) :
    cursor < c.sent := by
  unfold receive at h
  split at h
  · simp at h
  · split at h
    · next hk =>
        have := (List.getElem?_eq_some_iff.1 hk).1
        simp only [sent]
        omega
    · simp at h

end Channel

end SemanticIndex
