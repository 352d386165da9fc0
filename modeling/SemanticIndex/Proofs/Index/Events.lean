import SemanticIndex.Proofs.Index.Announcement
import SemanticIndex.Proofs.Index.Refinement

namespace SemanticIndex

namespace Channel

variable {α : Type} {c : Channel α} {log : List α}

structure Carries (c : Channel α) (log : List α) : Prop where
  dropped_eq : c.dropped = log.length - capacity
  kept_eq : c.kept = log.drop c.dropped

theorem Carries.sent_eq (h : c.Carries log) : c.sent = log.length := by
  rw [sent, h.kept_eq, List.length_drop, h.dropped_eq]
  omega

theorem Carries.send (h : c.Carries log) (e : α) : (c.send e).Carries (log ++ [e]) := by
  have hlength : c.kept.length = log.length - c.dropped := by rw [h.kept_eq, List.length_drop]
  have hdropped := h.dropped_eq
  have hroom : 0 < capacity := by decide
  unfold Channel.send
  split
  · next hfree =>
    refine ⟨?_, ?_⟩
    · rw [List.length_append, List.length_singleton]
      dsimp only
      omega
    · rw [List.drop_append_of_le_length (by dsimp only; omega), ← h.kept_eq]
  · next hfull =>
    refine ⟨?_, ?_⟩
    · rw [List.length_append, List.length_singleton]
      dsimp only
      omega
    · rw [List.drop_append_of_le_length (by dsimp only; omega), h.kept_eq, List.drop_drop]

theorem Carries.sendAll (h : c.Carries log) (es : List α) : (c.sendAll es).Carries (log ++ es) := by
  induction es generalizing c log with
  | nil => rwa [List.append_nil]
  | cons e es ih =>
    have hrest := ih (h.send e)
    rwa [List.append_assoc, List.singleton_append] at hrest

theorem Carries.drain_sendAll (h : c.Carries log) (es : List α) :
    (c.sendAll es).drain c.sent =
      (if capacity < es.length then [.lagged (es.length - capacity)] else []) ++
        (es.drop (es.length - capacity)).map .event := by
  have hafter := h.sendAll es
  have hdropped := hafter.dropped_eq
  rw [List.length_append] at hdropped
  have hkept : (c.sendAll es).kept.drop (log.length - (c.sendAll es).dropped) =
      es.drop (es.length - capacity) := by
    have hfirst : log.length - (c.sendAll es).dropped + (c.sendAll es).dropped - log.length =
        es.length - capacity := by omega
    rw [hafter.kept_eq, List.drop_drop, Nat.add_comm, List.drop_append,
      List.drop_eq_nil_of_le (by omega), List.nil_append, hfirst]
  have hmissed : (c.sendAll es).dropped - log.length = es.length - capacity := by omega
  have hlag : log.length < (c.sendAll es).dropped ↔ capacity < es.length := by omega
  rw [drain, h.sent_eq, hkept, hmissed]
  simp only [hlag]

end Channel

namespace FileList

variable {fs : List File} {f : File} {fqn uri : String}

theorem owner?_put_of_undeclared (hf : declares fqn f = false)
    (hold : ∀ a ∈ fs, a.uri = f.uri → declares fqn a = false) :
    owner? (put fs f) fqn = owner? fs fqn := by
  unfold owner? put
  split
  · next hany =>
    clear hany
    induction fs with
    | nil => rfl
    | cons a fs ih =>
      have ih := ih fun b hb => hold b (List.mem_cons_of_mem a hb)
      rw [List.map_cons, List.find?_cons, List.find?_cons, ih]
      by_cases hu : a.uri = f.uri
      · simp [hu, hf, hold a List.mem_cons_self hu]
      · simp [hu]
  · rw [List.find?_append, List.find?_cons_of_neg (by simp [hf]), List.find?_nil, Option.or_none]

theorem owner?_erase_of_undeclared (hold : ∀ a ∈ fs, a.uri = uri → declares fqn a = false) :
    owner? (erase fs uri) fqn = owner? fs fqn := by
  induction fs with
  | nil => rfl
  | cons a fs ih =>
    have ih := ih fun b hb => hold b (List.mem_cons_of_mem a hb)
    unfold owner? erase at *
    by_cases hu : a.uri = uri
    · rw [List.filter_cons_of_neg (by simp [hu]), ih,
        List.find?_cons_of_neg (by simp [hold a List.mem_cons_self hu])]
    · rw [List.filter_cons_of_pos (by simp [hu]), List.find?_cons, List.find?_cons, ih]

end FileList

namespace IndexState.Consistent

variable {s : IndexState} {f : File} {fqn uri : String}

theorem definition?_isSome (h : Consistent s) :
    (s.definition? fqn).isSome = (s.owner? fqn).isSome := by
  rw [h.owner?_isSome, Bool.eq_iff_iff, Option.isSome_iff_ne_none, h.definition?_eq, ne_eq,
    FileList.definition?_eq_none_iff, List.any_eq_true]
  simp

theorem owner?_of_mem_replaceChanges (hm : fqn ∈ s.replaceChanges f) :
    ((s.replace f).owner? fqn).isSome = true := by
  rcases List.mem_append.mp hm with hown | hgone
  · rw [beq_iff_eq.mp (List.mem_filter.mp hown).2]
    rfl
  · exact (Bool.and_eq_true_iff.mp (List.mem_filter.mp hgone).2).1

theorem owner?_of_mem_removeChanges (hm : fqn ∈ s.removeChanges uri) :
    ((s.remove uri).owner? fqn).isSome = true := by
  unfold removeChanges at hm
  split at hm
  · cases hm
  · exact (List.mem_filter.mp hm).2

theorem mem_replaceChanges_declared (hm : fqn ∈ s.replaceChanges f) :
    fqn ∈ declaredNames f ∨ ∃ old, s.file? f.uri = some old ∧ fqn ∈ declaredNames old := by
  rcases List.mem_append.mp hm with hown | hgone
  · exact .inl (List.mem_filter.mp hown).1
  · have hgone := (List.mem_filter.mp hgone).1
    split at hgone
    · next old hold =>
      exact .inr ⟨old, hold, List.mem_eraseDups.mp (List.mem_filter.mp hgone).1⟩
    · cases hgone

theorem mem_removeChanges_declared (hm : fqn ∈ s.removeChanges uri) :
    ∃ old, s.file? uri = some old ∧ fqn ∈ declaredNames old := by
  unfold removeChanges at hm
  split at hm
  · cases hm
  · next old hold => exact ⟨old, hold, (List.mem_filter.mp (List.mem_filter.mp hm).1).1⟩

theorem undeclared_of_file? (h : Consistent s)
    (hold : ∀ g, s.file? uri = some g → fqn ∉ declaredNames g) :
    ∀ a ∈ s.files, a.uri = uri → FileList.declares fqn a = false := by
  rintro a ha rfl
  rw [← Bool.not_eq_true, FileList.declares_iff]
  exact hold a (h.mem_files.mp ha)

theorem definition?_replace_of_undeclared (h : Consistent s) (hf : fqn ∉ declaredNames f)
    (hold : ∀ g, s.file? f.uri = some g → fqn ∉ declaredNames g) :
    (s.replace f).definition? fqn = s.definition? fqn := by
  rw [(h.replace f).definition?_eq, h.definition?_eq, h.files_replace, FileList.definition?,
    FileList.definition?, FileList.owner?_put_of_undeclared _ (h.undeclared_of_file? hold)]
  rwa [← Bool.not_eq_true, FileList.declares_iff]

theorem definition?_remove_of_undeclared (h : Consistent s)
    (hold : ∀ g, s.file? uri = some g → fqn ∉ declaredNames g) :
    (s.remove uri).definition? fqn = s.definition? fqn := by
  rw [(h.remove uri).definition?_eq, h.definition?_eq, h.files_remove, FileList.definition?,
    FileList.definition?, FileList.owner?_erase_of_undeclared (h.undeclared_of_file? hold)]

end IndexState.Consistent

namespace Repository

open IndexState

variable {r : Repository}

structure AnnouncesExactly (before after : Repository) (uri : String) (names : List String) :
    Prop where
  sent : after.channel = before.channel.sendAll (names.map .added)
  heard : after.channel.drain before.channel.sent =
    (if Channel.capacity < names.length then [.lagged (names.length - Channel.capacity)] else []) ++
      (names.drop (names.length - Channel.capacity)).map fun fqn => .event (.added fqn)
  status_eq : after.status = before.status
  changed : ∀ fqn d, after.state.definition? fqn = some d →
    before.state.definition? fqn ≠ some d → fqn ∈ names
  live : ∀ fqn ∈ names, (after.state.definition? fqn).isSome = true
  untouched : ∀ fqn, (∀ f, before.state.file? uri = some f ∨ after.state.file? uri = some f →
      fqn ∉ declaredNames f) →
    fqn ∉ names ∧ after.state.definition? fqn = before.state.definition? fqn

theorem channel_apply (r : Repository) (m : Mutation) :
    ∃ es, (r.apply m).channel = r.channel.sendAll es := by
  cases m with
  | upsert f => exact ⟨_, rfl⟩
  | remove uri => exact ⟨_, rfl⟩
  | restore s => exact ⟨[], rfl⟩
  | markVerified uri => exact ⟨[], rfl⟩
  | beginIndexing =>
    refine ⟨[], ?_⟩
    rw [apply, beginIndexing]
    split <;> rfl
  | markComplete =>
    rw [apply, markComplete]
    split
    · exact ⟨[], rfl⟩
    · exact ⟨[.complete], rfl⟩

theorem carries_run {log : List IndexEvent} (h : r.channel.Carries log) (ms : List Mutation) :
    ∃ log, (r.run ms).channel.Carries log := by
  induction ms generalizing r log with
  | nil => exact ⟨log, h⟩
  | cons m ms ih =>
    obtain ⟨es, hes⟩ := r.channel_apply m
    have hm := h.sendAll es
    rw [← hes] at hm
    exact ih hm

theorem drain_announce {log : List IndexEvent} (h : r.channel.Carries log) (names : List String) :
    (r.channel.sendAll (names.map IndexEvent.added)).drain r.channel.sent =
      (if Channel.capacity < names.length then [.lagged (names.length - Channel.capacity)]
        else []) ++
        (names.drop (names.length - Channel.capacity)).map fun fqn => .event (.added fqn) := by
  rw [h.drain_sendAll, List.length_map, ← List.map_drop, List.map_map]
  rfl

theorem announcesExactly_upsert {log : List IndexEvent} (h : r.state.Consistent)
    (hlog : r.channel.Carries log) (f : File) :
    AnnouncesExactly r (r.upsert f) f.uri (r.state.replaceChanges f) where
  sent := rfl
  heard := drain_announce hlog _
  status_eq := rfl
  changed fqn d hafter hbefore := by
    by_contra hn
    exact hbefore (h.definition?_of_not_mem_replaceChanges hn hafter)
  live fqn hm := (h.replace f).definition?_isSome.trans (Consistent.owner?_of_mem_replaceChanges hm)
  untouched fqn hundeclared := by
    have hf : fqn ∉ declaredNames f := by
      refine hundeclared f (.inr ?_)
      exact file?_eq_some_iff.mpr ⟨_, by simp [upsert, announce, slots_replace]; rfl⟩
    refine ⟨fun hm => ?_, h.definition?_replace_of_undeclared hf fun g hg => hundeclared g (.inl hg)⟩
    rcases Consistent.mem_replaceChanges_declared hm with hm | ⟨old, hold, hm⟩
    · exact hf hm
    · exact hundeclared old (.inl hold) hm

theorem announcesExactly_remove {log : List IndexEvent} (h : r.state.Consistent)
    (hlog : r.channel.Carries log) (uri : String) :
    AnnouncesExactly r (r.remove uri) uri (r.state.removeChanges uri) where
  sent := rfl
  heard := drain_announce hlog _
  status_eq := rfl
  changed fqn d hafter hbefore := by
    by_contra hn
    exact hbefore (h.definition?_of_not_mem_removeChanges hn hafter)
  live fqn hm := (h.remove uri).definition?_isSome.trans (Consistent.owner?_of_mem_removeChanges hm)
  untouched fqn hundeclared := by
    have hold : ∀ g, r.state.file? uri = some g → fqn ∉ declaredNames g :=
      fun g hg => hundeclared g (.inl hg)
    refine ⟨fun hm => ?_, h.definition?_remove_of_undeclared hold⟩
    obtain ⟨old, hfile, hm⟩ := Consistent.mem_removeChanges_declared hm
    exact hold old hfile hm

theorem announcements_are_exact (ms : List Mutation) :
    let r := empty.run ms
    (∀ f, AnnouncesExactly r (r.upsert f) f.uri (r.state.replaceChanges f)) ∧
      ∀ uri, AnnouncesExactly r (r.remove uri) uri (r.state.removeChanges uri) := by
  intro r
  have h : r.state.Consistent := consistent_run_empty ms
  have hstart : empty.channel.Carries [] := ⟨rfl, rfl⟩
  obtain ⟨log, hlog⟩ := carries_run hstart ms
  exact ⟨announcesExactly_upsert h hlog, announcesExactly_remove h hlog⟩

def sharedNames : List Mutation :=
  [.upsert (.outline "file:///first.php" ["A", "B"] []),
   .upsert (.outline "file:///second.php" ["A"] [])]

theorem announcements_are_exact_promoted :
    let r := empty.run sharedNames
    let f := File.outline "file:///first.php" ["B", "C"] []
    (r.upsert f).channel.drain r.channel.sent =
        [.event (.added "B"), .event (.added "C"), .event (.added "A")] ∧
      ((r.upsert f).state.definition? "A").map Definition.uri = some "file:///second.php" ∧
      (r.remove "file:///first.php").channel.drain r.channel.sent = [.event (.added "A")] ∧
      (r.remove "file:///first.php").state.definition? "B" = none := by
  intro r f
  obtain ⟨hupsert, hremove⟩ := announcements_are_exact sharedNames
  have hnames : r.state.replaceChanges f = ["B", "C", "A"] := by decide +kernel
  have hpromoted : r.state.removeChanges "file:///first.php" = ["A"] := by decide +kernel
  have hheard := (hupsert f).heard
  have hheard' := (hremove "file:///first.php").heard
  rw [hnames] at hheard
  rw [hpromoted] at hheard'
  exact ⟨hheard, by decide +kernel, hheard', by decide +kernel⟩

end Repository

end SemanticIndex
