import SemanticIndex.Proofs.Waiting.Wakeup

namespace SemanticIndex

theorem Channel.receive_sent {α : Type} (c : Channel α) : c.receive c.sent = .nothing := by
  have hn : ¬c.sent < c.dropped := by simp [sent]
  have hk : c.kept[c.sent - c.dropped]? = none := by simp [sent]
  rw [receive, if_neg hn, hk]

namespace Waiter

variable {r : Repository} {names : List String} {n : Nat}

theorem poll_of_step? {w w' : Waiter} (h : w.step? r = some w') : w.poll r = w'.poll r := by
  rw [poll]
  split
  · next hn => rw [h] at hn; cases hn
  · next hs =>
    rw [h] at hs
    cases hs
    rfl

theorem poll_of_stuck {w : Waiter} (h : w.step? r = none) : w.poll r = w := by
  rw [poll]
  split
  · rfl
  · next hs => rw [h] at hs; cases hs

theorem poll_of_answered {w : Waiter} {a : Option Definition} (h : w.phase = .answered a) :
    w.poll r = w :=
  poll_of_stuck (by simp [step?, h])

theorem poll_found {d : Definition} (hl : r.state.lookup? names = some d) :
    poll r ⟨names, n, .looking⟩ = ⟨names, n, .answered (some d)⟩ := by
  have hfound : step? r ⟨names, n, .looking⟩ = some ⟨names, n, .answered (some d)⟩ := by
    simp [step?, hl]
  rw [poll_of_step? hfound]
  exact poll_of_answered rfl

theorem step?_missed (hl : r.state.lookup? names = none) :
    step? r ⟨names, n, .looking⟩ = some ⟨names, n, .checking⟩ := by
  simp [step?, hl]

theorem poll_complete (hl : r.state.lookup? names = none) (hc : r.status = .complete) :
    poll r ⟨names, n, .looking⟩ = ⟨names, n, .answered none⟩ := by
  have hchecked : step? r ⟨names, n, .checking⟩ = some ⟨names, n, .lastLook⟩ := by
    simp [step?, hc]
  have hlast : step? r ⟨names, n, .lastLook⟩ = some ⟨names, n, .answered none⟩ := by
    simp [step?, hl]
  rw [poll_of_step? (step?_missed hl), poll_of_step? hchecked, poll_of_step? hlast]
  exact poll_of_answered rfl

theorem poll_receiving (names : List String) (h : n < r.channel.sent) :
    ∃ m, n < m ∧ m ≤ r.channel.sent ∧
      poll r ⟨names, n, .receiving⟩ = poll r ⟨names, m, .looking⟩ := by
  cases hr : r.channel.receive n with
  | nothing =>
    have := Channel.sent_le_of_receive_nothing hr
    omega
  | lagged missed =>
    have := Channel.receive_lagged hr
    exact ⟨n + missed, by omega, by omega, poll_of_step? (by simp [step?, hr])⟩
  | event e => exact ⟨n + 1, by omega, by omega, poll_of_step? (by simp [step?, hr])⟩

theorem poll_drained (r : Repository) (names : List String) :
    poll r ⟨names, r.channel.sent, .receiving⟩ = ⟨names, r.channel.sent, .receiving⟩ :=
  poll_of_stuck (by simp [step?, Channel.receive_sent])

-- Each round takes at least one event, so the induction is on how many are left.
theorem poll_missed (hl : r.state.lookup? names = none) (hs : r.status ≠ .complete)
    (hn : n ≤ r.channel.sent) :
    poll r ⟨names, n, .looking⟩ = ⟨names, r.channel.sent, .receiving⟩ := by
  induction hk : r.channel.sent - n using Nat.strong_induction_on generalizing n with
  | _ k ih =>
    have hchecked : step? r ⟨names, n, .checking⟩ = some ⟨names, n, .receiving⟩ := by
      simp [step?, hs]
    rw [poll_of_step? (step?_missed hl), poll_of_step? hchecked]
    by_cases hlt : n < r.channel.sent
    · obtain ⟨m, hnm, hm, he⟩ := poll_receiving names hlt
      rw [he]
      exact ih (r.channel.sent - m) (by omega) hm rfl
    · have he : n = r.channel.sent := by omega
      subst he
      exact poll_drained r names

def Settled (r : Repository) (names : List String) (w : Waiter) : Prop :=
  match r.state.lookup? names with
  | some d => w.phase = .answered (some d)
  | none => w = ⟨names, r.channel.sent, .receiving⟩

theorem settled_poll_looking (hs : r.status ≠ .complete) (hn : n ≤ r.channel.sent) :
    Settled r names (poll r ⟨names, n, .looking⟩) := by
  unfold Settled
  split
  · next d hl => rw [poll_found hl]
  · next hl => exact poll_missed hl hs hn

theorem settled_poll_start (names : List String) (hs : r.status ≠ .complete) :
    Settled r names ((start r names).poll r) :=
  settled_poll_looking hs (Nat.le_refl _)

theorem settled_poll_upsert (h : r.state.Consistent) (hs : r.status ≠ .complete)
    (hl : r.state.lookup? names = none) (f : File) :
    Settled (r.upsert f) names (poll (r.upsert f) ⟨names, r.channel.sent, .receiving⟩) := by
  have hsent : (r.upsert f).channel.sent = r.channel.sent + (r.state.replaceChanges f).length := by
    simp [Repository.upsert, Repository.announce, Channel.sent_sendAll]
  cases hc : r.state.replaceChanges f with
  | nil =>
    have hl' : (r.upsert f).state.lookup? names = none :=
      (h.extends_of_replaceChanges_nil hc).lookup?_eq_none hl
    rw [hc, List.length_nil, Nat.add_zero] at hsent
    simp only [Settled, hl', ← hsent]
    exact poll_drained (r.upsert f) names
  | cons name rest =>
    rw [hc, List.length_cons] at hsent
    have hlt : r.channel.sent < (r.upsert f).channel.sent := by omega
    obtain ⟨m, -, hm, he⟩ := poll_receiving names hlt
    rw [he]
    exact settled_poll_looking hs hm

theorem poll_markComplete (hs : r.status ≠ .complete) (hl : r.state.lookup? names = none) :
    (poll r.markComplete ⟨names, r.channel.sent, .receiving⟩).answer? = some none := by
  have hsent : r.markComplete.channel.sent = r.channel.sent + 1 := by
    simp [Repository.markComplete, hs]
  have hstate : r.markComplete.state = r.state := by simp [Repository.markComplete, hs]
  have hstatus : r.markComplete.status = .complete := by simp [Repository.markComplete, hs]
  have hlt : r.channel.sent < r.markComplete.channel.sent := by omega
  obtain ⟨m, -, -, he⟩ := poll_receiving names hlt
  rw [he, poll_complete (hstate ▸ hl) hstatus]
  rfl

end Waiter

end SemanticIndex
