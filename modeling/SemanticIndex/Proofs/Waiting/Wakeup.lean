import SemanticIndex.Proofs.Index.Announcement
import SemanticIndex.Proofs.Index.Refinement
import SemanticIndex.Proofs.Waiting.Traffic

namespace SemanticIndex

theorem Channel.sendAll_concat {α : Type} (c : Channel α) (es : List α) (e : α) :
    c.sendAll (es ++ [e]) = (c.sendAll es).send e :=
  List.foldl_concat _ c e es

theorem Channel.sent_le_of_receive_nothing {α : Type} {c : Channel α} {cursor : Nat}
    (h : c.receive cursor = .nothing) : c.sent ≤ cursor := by
  unfold receive at h
  split at h
  · cases h
  · split at h
    · cases h
    · next hk =>
      have := List.getElem?_eq_none_iff.mp hk
      simp only [sent]
      omega

def IndexStatus.rank : IndexStatus → Nat
  | .notStarted => 0
  | .indexing => 1
  | .complete => 2

namespace Traffic

structure Informed (c : Traffic) (w : Waiter) : Prop where
  cursor_le : w.cursor ≤ c.repo.channel.sent
  lookup_none : w.phase = .checking ∨ w.phase = .receiving → w.cursor < c.repo.channel.sent ∨
    (∃ writer ∈ c.writers, writer.Silent) ∨ c.repo.state.lookup? w.candidates = none
  not_complete : w.phase = .receiving →
    w.cursor < c.repo.channel.sent ∨ c.repo.status ≠ .complete

structure Sound (c : Traffic) : Prop where
  consistent : c.repo.state.Consistent
  informed : ∀ w ∈ c.waiters, c.Informed w
  channel_eq : c.repo.channel = Channel.empty.sendAll c.log
  complete_once : c.log.count .complete = if c.repo.status = .complete then 1 else 0

theorem sound_start : Sound start where
  consistent := IndexState.consistent_empty
  informed _ hw := absurd hw List.not_mem_nil
  channel_eq := rfl
  complete_once := rfl

theorem Informed.of_same_repo {c d : Traffic} {w : Waiter} (h : c.Informed w)
    (hr : d.repo = c.repo) (hw : d.writers = c.writers) : d.Informed w := by
  obtain ⟨hc, hl, hn⟩ := h
  rw [← hr] at hc hl hn
  rw [← hw] at hl
  exact ⟨hc, hl, hn⟩

theorem Informed.of_sent {c d : Traffic} {w : Waiter} (h : c.Informed w)
    (hs : d.repo.channel.sent = c.repo.channel.sent + 1) : d.Informed w where
  cursor_le := by have := h.cursor_le; omega
  lookup_none _ := .inl (by have := h.cursor_le; omega)
  not_complete _ := .inl (by have := h.cursor_le; omega)

theorem Informed.of_swap {c : Traffic} {w : Waiter} (h : c.Informed w) (t : IndexState)
    (names : List String) (hn : names = [] → t.Extends c.repo.state) :
    Informed { c with
      repo := { c.repo with state := t }
      writers := c.writers ++ [⟨names, 0⟩] } w where
  cursor_le := h.cursor_le
  lookup_none hp := by
    cases names with
    | cons name names =>
      exact .inr (.inl ⟨_, List.mem_append_right _ (List.mem_singleton_self _), by simp, rfl⟩)
    | nil =>
      rcases h.lookup_none hp with hc | ⟨writer, hw, hs⟩ | hl
      · exact .inl hc
      · exact .inr (.inl ⟨writer, List.mem_append_left _ hw, hs⟩)
      · exact .inr (.inr ((hn rfl).lookup?_eq_none hl))
  not_complete := h.not_complete

theorem informed_start (c : Traffic) (names : List String) :
    c.Informed (.start c.repo names) where
  cursor_le := Nat.le_refl _
  lookup_none hp := by rcases hp with hp | hp <;> cases hp
  not_complete hp := by cases hp

theorem Informed.of_move {c : Traffic} {w w' : Waiter} (h : c.Informed w)
    (hm : w.Move c.repo w') : c.Informed w' := by
  cases hm with
  | found hl => exact ⟨h.cursor_le, by simp, by simp⟩
  | missed hl => exact ⟨h.cursor_le, fun _ => .inr (.inr hl), by simp⟩
  | complete hc => exact ⟨h.cursor_le, by simp, by simp⟩
  | incomplete hc => exact ⟨h.cursor_le, fun _ => h.lookup_none (.inl rfl), fun _ => .inr hc⟩
  | settled => exact ⟨h.cursor_le, by simp, by simp⟩
  | received hk => exact ⟨hk, by simp, by simp⟩

theorem Sound.step {c d : Traffic} (h : c.Sound) {a : Action} (hs : c.step? a = some d) :
    d.Sound := by
  cases a with
  | upsert f =>
    cases hs
    refine ⟨h.consistent.replace f, fun w hw => ?_, h.channel_eq, h.complete_once⟩
    exact (h.informed w hw).of_swap _ _ h.consistent.extends_of_replaceChanges_nil
  | remove uri =>
    cases hs
    refine ⟨h.consistent.remove uri, fun w hw => ?_, h.channel_eq, h.complete_once⟩
    exact (h.informed w hw).of_swap _ _ h.consistent.extends_of_removeChanges_nil
  | send i =>
    obtain ⟨writer, name, -, -, rfl⟩ := step?_send hs
    refine ⟨h.consistent, fun w hw => ?_, ?_, ?_⟩
    · exact (h.informed w hw).of_sent (Channel.sent_send _ _)
    · rw [Channel.sendAll_concat, ← h.channel_eq]
    · simpa using h.complete_once
  | markVerified uri =>
    cases hs
    refine ⟨h.consistent.markVerified uri, fun w hw => ?_, h.channel_eq, h.complete_once⟩
    have hi := h.informed w hw
    exact ⟨hi.cursor_le, hi.lookup_none, hi.not_complete⟩
  | beginIndexing =>
    cases hs
    unfold Repository.beginIndexing
    split
    · next hn =>
      refine ⟨h.consistent, fun w hw => ?_, h.channel_eq, ?_⟩
      · have hi := h.informed w hw
        exact ⟨hi.cursor_le, hi.lookup_none, fun _ => .inr (by simp)⟩
      · simpa [hn] using h.complete_once
    · exact h
  | markComplete =>
    cases hs
    unfold Repository.markComplete
    split
    · exact h
    · next hn =>
      refine ⟨h.consistent, fun w hw => ?_, ?_, ?_⟩
      · exact (h.informed w hw).of_sent (Channel.sent_send _ _)
      · rw [Channel.sendAll_concat, ← h.channel_eq]
      · simpa [hn] using h.complete_once
  | restore s =>
    obtain ⟨hanswered, rfl⟩ := step?_restore hs
    refine ⟨Repository.consistent_apply h.consistent (.restore s), fun w hw => ?_, h.channel_eq,
      h.complete_once⟩
    obtain ⟨a, ha⟩ := hanswered w hw
    exact ⟨(h.informed w hw).cursor_le, by simp [ha], by simp [ha]⟩
  | subscribe names =>
    cases hs
    refine ⟨h.consistent, fun w hw => ?_, h.channel_eq, h.complete_once⟩
    rcases List.mem_append.mp hw with hw | hw
    · exact (h.informed w hw).of_same_repo rfl rfl
    · rw [List.mem_singleton.mp hw]
      exact (informed_start c names).of_same_repo rfl rfl
  | advance i =>
    obtain ⟨w, w', hw, hm, rfl⟩ := step?_advance hs
    refine ⟨h.consistent, fun v hv => ?_, h.channel_eq, h.complete_once⟩
    rcases List.mem_or_eq_of_mem_set hv with hv | rfl
    · exact (h.informed v hv).of_same_repo rfl rfl
    · exact ((h.informed w (List.mem_of_getElem? hw)).of_move hm).of_same_repo rfl rfl

theorem Sound.run {c d : Traffic} (h : c.Sound) {as : List Action} (hr : c.run? as = some d) :
    d.Sound := by
  induction as generalizing c with
  | nil =>
    cases hr
    exact h
  | cons a as ih =>
    obtain ⟨p, hp, hr⟩ := run?_append.mp (show c.run? ([a] ++ as) = some d from hr)
    exact ih (h.step (by simpa [run?] using hp)) hr

end Traffic

end SemanticIndex
