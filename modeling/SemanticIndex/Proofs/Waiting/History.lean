import SemanticIndex.Proofs.Waiting.Wakeup
import Mathlib.Data.List.Induction

namespace SemanticIndex

theorem IndexStatus.rank_le_two (s : IndexStatus) : s.rank ≤ 2 := by
  cases s <;> decide

namespace Traffic

theorem waiter_origin {c d : Traffic} {a : Action} (h : c.step? a = some d) {i : Nat} {w : Waiter}
    (hw : d.waiters[i]? = some w) :
    c.waiters[i]? = some w ∨ w.phase = .looking ∨
      a = .advance i ∧ ∃ v, c.waiters[i]? = some v ∧ v.Move c.repo w := by
  cases a with
  | upsert f => cases h; exact .inl hw
  | remove uri => cases h; exact .inl hw
  | send j =>
    obtain ⟨writer, name, -, -, rfl⟩ := step?_send h
    exact .inl hw
  | markVerified uri => cases h; exact .inl hw
  | beginIndexing => cases h; exact .inl hw
  | markComplete => cases h; exact .inl hw
  | restore s =>
    obtain ⟨-, rfl⟩ := step?_restore h
    exact .inl hw
  | subscribe names =>
    cases h
    by_cases hi : i < c.waiters.length
    · rw [List.getElem?_append_left hi] at hw
      exact .inl hw
    · rw [List.getElem?_append_right (Nat.le_of_not_lt hi)] at hw
      have hm := List.mem_of_getElem? hw
      rw [List.mem_singleton.mp hm]
      exact .inr (.inl rfl)
  | advance j =>
    obtain ⟨v, v', hv, hm, rfl⟩ := step?_advance h
    by_cases hij : j = i
    · subst hij
      rw [List.getElem?_set_self (List.getElem?_eq_some_iff.mp hv).1] at hw
      cases hw
      exact .inr (.inr ⟨rfl, v, hv, hm⟩)
    · rw [List.getElem?_set_ne hij] at hw
      exact .inl hw

theorem arrival {as : List Action} {c : Traffic} (h : start.run? as = some c) {i : Nat} {w : Waiter}
    (hw : c.waiters[i]? = some w) (hp : w.phase ≠ .looking) :
    ∃ before after p v, as = before ++ .advance i :: after ∧ start.run? before = some p ∧
      p.waiters[i]? = some v ∧ v.Move p.repo w := by
  induction as using List.reverseRecOn generalizing c with
  | nil =>
    cases h
    cases hw
  | append_singleton as a ih =>
    obtain ⟨p, hr, hs⟩ := run?_concat.mp h
    rcases waiter_origin hs hw with hw | hl | ⟨rfl, v, hv, hm⟩
    · obtain ⟨before, after, q, v, rfl, hq, hv, hm⟩ := ih hr hw
      exact ⟨before, after ++ [a], q, v, by simp, hq, hv, hm⟩
    · exact absurd hl hp
    · exact ⟨as, [], p, v, rfl, hr, hv, hm⟩

def GaveUp (as : List Action) (i : Nat) (w : Waiter) : Prop :=
  ∃ before between after p q, as = before ++ .advance i :: between ++ .advance i :: after ∧
    start.run? before = some p ∧ p.waiters[i]? = some { w with phase := .checking } ∧
    p.repo.status = .complete ∧
    start.run? (before ++ .advance i :: between) = some q ∧
    q.waiters[i]? = some { w with phase := .lastLook } ∧
    q.repo.state.lookup? w.candidates = none

def Found (as : List Action) (i : Nat) (w : Waiter) (d : Definition) : Prop :=
  ∃ before after q phase, as = before ++ .advance i :: after ∧
    start.run? before = some q ∧ q.waiters[i]? = some { w with phase := phase } ∧
    (phase = .looking ∨ phase = .lastLook) ∧
    q.repo.state.lookup? w.candidates = some d

theorem gaveUp_of_answered {as : List Action} {c : Traffic} (h : start.run? as = some c) {i : Nat}
    {w : Waiter} (hw : c.waiters[i]? = some w) (ha : w.phase = .answered none) :
    GaveUp as i w := by
  obtain ⟨earlier, after, q, v, rfl, hq, hv, hm⟩ := arrival h hw (by simp [ha])
  cases hm with
  | settled =>
    obtain ⟨before, between, p, v, rfl, hp, hv', hm⟩ := arrival hq hv (by simp)
    cases hm with
    | complete hc =>
      exact ⟨before, between, after, p, q, rfl, hp, hv', hc, hq, hv, WaiterPhase.answered.inj ha⟩
  | _ => cases ha

theorem found_of_answered {as : List Action} {c : Traffic} (h : start.run? as = some c) {i : Nat}
    {w : Waiter} (hw : c.waiters[i]? = some w) {d : Definition}
    (ha : w.phase = .answered (some d)) : Found as i w d := by
  obtain ⟨before, after, q, v, rfl, hq, hv, hm⟩ := arrival h hw (by simp [ha])
  cases hm with
  | found hl =>
    cases ha
    exact ⟨before, after, q, _, rfl, hq, hv, .inl rfl, hl⟩
  | settled => exact ⟨before, after, q, _, rfl, hq, hv, .inr rfl, WaiterPhase.answered.inj ha⟩
  | _ => cases ha

theorem rank_le_step {c d : Traffic} {a : Action} (h : c.step? a = some d) :
    c.repo.status.rank ≤ d.repo.status.rank := by
  cases a with
  | upsert f => cases h; exact Nat.le_refl _
  | remove uri => cases h; exact Nat.le_refl _
  | send i =>
    obtain ⟨writer, name, -, -, rfl⟩ := step?_send h
    exact Nat.le_refl _
  | markVerified uri => cases h; exact Nat.le_refl _
  | beginIndexing =>
    cases h
    simp only [Repository.beginIndexing]
    split
    · next hn => simp [hn, IndexStatus.rank]
    · exact Nat.le_refl _
  | markComplete =>
    cases h
    simp only [Repository.markComplete]
    split
    · exact Nat.le_refl _
    · exact c.repo.status.rank_le_two
  | restore s =>
    obtain ⟨-, rfl⟩ := step?_restore h
    exact Nat.le_refl _
  | subscribe names => cases h; exact Nat.le_refl _
  | advance i =>
    obtain ⟨v, v', -, -, rfl⟩ := step?_advance h
    exact Nat.le_refl _

theorem rank_le_run {c d : Traffic} {as : List Action} (h : c.run? as = some d) :
    c.repo.status.rank ≤ d.repo.status.rank := by
  induction as using List.reverseRecOn generalizing d with
  | nil =>
    cases h
    exact Nat.le_refl _
  | append_singleton as a ih =>
    obtain ⟨p, hr, hs⟩ := run?_concat.mp h
    exact (ih hr).trans (rank_le_step hs)

theorem Sound.lookup?_of_blocked {c : Traffic} (h : c.Sound) {w : Waiter} (hw : w ∈ c.waiters)
    (hb : w.Blocked c.repo) :
    c.repo.status ≠ .complete ∧
      ((∀ writer ∈ c.writers, ¬writer.Silent) → c.repo.state.lookup? w.candidates = none) := by
  obtain ⟨hp, hr⟩ := hb
  have hi := h.informed w hw
  have hsent := Channel.sent_le_of_receive_nothing hr
  constructor
  · exact (hi.not_complete hp).resolve_left (by omega)
  · intro hquiet
    rcases hi.lookup_none (.inr hp) with hlt | ⟨writer, hm, hs⟩ | hl
    · omega
    · exact absurd hs (hquiet writer hm)
    · exact hl

theorem waiting_misses_nothing {as : List Action} {c : Traffic} (h : start.run? as = some c) :
    (∀ w ∈ c.waiters, w.Blocked c.repo → c.repo.status ≠ .complete ∧
      ((∀ writer ∈ c.writers, ¬writer.Silent) → c.repo.state.lookup? w.candidates = none)) ∧
    (∀ i w, c.waiters[i]? = some w → w.phase = .answered none → GaveUp as i w) ∧
    (∀ i w d, c.waiters[i]? = some w → w.phase = .answered (some d) → Found as i w d) ∧
    (∀ before after, as = before ++ after →
      ∃ p, start.run? before = some p ∧ p.repo.status.rank ≤ c.repo.status.rank) ∧
    c.repo.channel = Channel.empty.sendAll c.log ∧ c.log.count .complete ≤ 1 := by
  have hs := sound_start.run h
  refine ⟨fun w hw => hs.lookup?_of_blocked hw, fun i w hw => gaveUp_of_answered h hw,
    fun i w d hw => found_of_answered h hw, ?_, hs.channel_eq, ?_⟩
  · rintro before after rfl
    obtain ⟨p, hp, hr⟩ := run?_append.mp h
    exact ⟨p, hp, rank_le_run hr⟩
  · rw [hs.complete_once]
    split <;> omega

def lateTraffic : List Action :=
  [.beginIndexing, .subscribe ["A"], .subscribe ["B"], .advance 0, .advance 0, .advance 1,
   .advance 1, .upsert (.outline "file:///a.php" ["A"] []), .send 0, .advance 0, .advance 0,
   .advance 1, .advance 1, .advance 1, .markComplete, .advance 1, .advance 1, .advance 1,
   .advance 1]

theorem waiting_misses_nothing_late : ∃ c, start.run? lateTraffic = some c ∧
    c.log = [.added "A", .complete] ∧
    (∃ w d, c.waiters[0]? = some w ∧ d.fqn = "A" ∧ Found lateTraffic 0 w d) ∧
    ∃ w, c.waiters[1]? = some w ∧ GaveUp lateTraffic 1 w := by
  obtain ⟨c, hc⟩ : ∃ c, start.run? lateTraffic = some c :=
    Option.isSome_iff_exists.mp (by decide)
  have hlog : (start.run? lateTraffic).map log = some [.added "A", .complete] := by decide
  have hfound : (start.run? lateTraffic).bind (·.waiters[0]?) = some ⟨["A"], 1, .answered
      (File.outline "file:///a.php" ["A"] []).definitions.head?⟩ := by decide
  have hmissed : (start.run? lateTraffic).bind (·.waiters[1]?) =
      some ⟨["B"], 2, .answered none⟩ := by decide
  rw [hc] at hlog hfound hmissed
  obtain ⟨-, hnone, hsome, -⟩ := waiting_misses_nothing hc
  exact ⟨c, hc, Option.some.inj hlog, ⟨_, _, hfound, rfl, hsome 0 _ _ hfound rfl⟩,
    ⟨_, hmissed, hnone 1 _ hmissed rfl⟩⟩

end Traffic

end SemanticIndex
