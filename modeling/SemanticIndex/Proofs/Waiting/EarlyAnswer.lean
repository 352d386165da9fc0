import SemanticIndex.Proofs.Index.SearchOrder
import SemanticIndex.Proofs.Waiting.Polling
import Mathlib.Data.List.Infix

namespace SemanticIndex

namespace Repository

def index (r : Repository) (fs : List File) : Repository := fs.foldl upsert r

variable {r : Repository}

theorem index_eq_run (r : Repository) (fs : List File) : r.index fs = r.run (fs.map .upsert) := by
  rw [run, List.foldl_map]
  rfl

theorem index_append (r : Repository) (fs gs : List File) :
    r.index (fs ++ gs) = (r.index fs).index gs :=
  List.foldl_append

theorem consistent_index (h : r.state.Consistent) (fs : List File) :
    (r.index fs).state.Consistent := by
  rw [index_eq_run]
  exact consistent_run h _

theorem files_index (h : r.state.Consistent) {fs : List File}
    (hn : ((r.state.files ++ fs).map File.uri).Nodup) :
    (r.index fs).state.files = r.state.files ++ fs := by
  rw [index_eq_run, files_run h, FileList.run, List.foldl_map]
  exact FileList.foldl_put_of_nodup hn

theorem status_index (r : Repository) (fs : List File) : (r.index fs).status = r.status := by
  induction fs generalizing r with
  | nil => rfl
  | cons f fs ih => exact ih (r.upsert f)

theorem extends_index (h : r.state.Consistent) {fs : List File}
    (hn : ((r.state.files ++ fs).map File.uri).Nodup) : r.state.Extends (r.index fs).state := by
  induction fs generalizing r with
  | nil => exact fun _ _ hd => hd
  | cons f fs ih =>
    have hnew : f.uri ∉ r.state.files.map File.uri := by
      rw [List.map_append, List.nodup_append] at hn
      exact fun hm => hn.2.2 _ hm _ (by simp) rfl
    have hfile : r.state.file? f.uri = none := by
      rw [h.file?_eq, List.find?_eq_none]
      intro g hg hu
      exact hnew (List.mem_map.mpr ⟨g, hg, by simpa using hu⟩)
    have hfiles : (r.upsert f).state.files = r.state.files ++ [f] :=
      (h.files_replace f).trans (FileList.put_of_new hnew)
    have hrest := ih (h.replace f : (r.upsert f).state.Consistent) (by rw [hfiles]; simpa using hn)
    exact (h.extends_replace_new hfile).trans hrest

def indexing (fs : List File) : Repository := empty.beginIndexing.index fs

theorem indexing_append (fs gs : List File) : indexing (fs ++ gs) = (indexing fs).index gs :=
  index_append empty.beginIndexing fs gs

theorem consistent_indexing (fs : List File) : (indexing fs).state.Consistent :=
  consistent_index IndexState.consistent_empty fs

theorem status_indexing (fs : List File) : (indexing fs).status = .indexing :=
  status_index empty.beginIndexing fs

theorem files_indexing {fs : List File} (hn : (fs.map File.uri).Nodup) :
    (indexing fs).state.files = fs := by
  have he : empty.beginIndexing.state.files = [] := IndexState.files_empty
  rw [indexing, files_index IndexState.consistent_empty (by rwa [he]), he, List.nil_append]

theorem extends_indexing {fs gs : List File} (hn : ((fs ++ gs).map File.uri).Nodup) :
    (indexing fs).state.Extends (indexing (fs ++ gs)).state := by
  have hfs : (fs.map File.uri).Nodup := by
    rw [List.map_append] at hn
    exact (List.nodup_append.mp hn).1
  rw [indexing_append]
  exact extends_index (consistent_indexing fs) (by rwa [files_indexing hfs])

theorem extends_indexing_of_mem_inits {pre post fs : List File}
    (hn : ((pre ++ post).map File.uri).Nodup) (hm : fs ∈ post.inits) :
    (indexing (pre ++ fs)).state.Extends (indexing (pre ++ post)).state := by
  obtain ⟨gs, rfl⟩ := (List.mem_inits fs post).mp hm
  rw [← List.append_assoc] at hn ⊢
  exact extends_indexing hn

end Repository

namespace Waiter

def watch (w : Waiter) (r : Repository) : List File → Waiter
  | [] => w.poll r.markComplete
  | f :: fs => (w.poll (r.upsert f)).watch (r.upsert f) fs

theorem watch_of_answered {w : Waiter} {a : Option Definition} (h : w.phase = .answered a)
    (r : Repository) (fs : List File) : w.watch r fs = w := by
  induction fs generalizing r with
  | nil => exact poll_of_answered h
  | cons f fs ih =>
    rw [watch, poll_of_answered h]
    exact ih (r.upsert f)

theorem answer?_watch {r : Repository} {names : List String} {w : Waiter}
    (h : r.state.Consistent) (hs : r.status ≠ .complete) (hw : Settled r names w)
    (fs : List File) :
    (w.watch r fs).answer? =
      some (fs.inits.findSome? fun gs => (r.index gs).state.lookup? names) := by
  induction fs generalizing r w with
  | nil =>
    cases hl : r.state.lookup? names with
    | some d =>
      simp only [Settled, hl] at hw
      rw [watch_of_answered hw]
      simp [answer?, hw, Repository.index, hl]
    | none =>
      simp only [Settled, hl] at hw
      subst hw
      simpa [watch, Repository.index, hl] using poll_markComplete hs hl
  | cons f fs ih =>
    have hinits : (f :: fs).inits.findSome? (fun gs => (r.index gs).state.lookup? names) =
        (r.state.lookup? names).or
          (fs.inits.findSome? fun gs => ((r.upsert f).index gs).state.lookup? names) := by
      rw [List.inits_cons, List.findSome?_cons, List.findSome?_map]
      cases hl : r.state.lookup? names <;> simp [Repository.index, hl, Function.comp_def]
    rw [hinits]
    cases hl : r.state.lookup? names with
    | some d =>
      simp only [Settled, hl] at hw
      rw [watch_of_answered hw]
      simp [answer?, hw]
    | none =>
      simp only [Settled, hl] at hw
      subst hw
      rw [Option.none_or]
      exact ih (h.replace f) hs (settled_poll_upsert h hs hl f)

def answerDuring (pre post : List File) (names : List String) : Option (Option Definition) :=
  let r := Repository.indexing pre
  (((start r names).poll r).watch r post).answer?

theorem answerDuring_eq (pre post : List File) (names : List String) :
    answerDuring pre post names = some (post.inits.findSome? fun fs =>
      (Repository.indexing (pre ++ fs)).state.lookup? names) := by
  have hs : (Repository.indexing pre).status ≠ .complete := by simp [Repository.status_indexing]
  have hw := answer?_watch (Repository.consistent_indexing pre) hs
    (settled_poll_start names hs) post
  simpa only [answerDuring, Repository.indexing_append] using hw

theorem answerDuring_eq_none_iff {pre post : List File} (hn : ((pre ++ post).map File.uri).Nodup)
    (names : List String) :
    answerDuring pre post names = some none ↔
      (Repository.indexing (pre ++ post)).state.lookup? names = none := by
  rw [answerDuring_eq, Option.some.injEq, List.findSome?_eq_none_iff]
  constructor
  · intro h
    exact h post ((List.mem_inits post post).mpr List.prefix_rfl)
  · intro hl fs hm
    exact (Repository.extends_indexing_of_mem_inits hn hm).lookup?_eq_none hl

theorem answerDuring_stays_iff {pre post : List File} (hn : ((pre ++ post).map File.uri).Nodup)
    {names : List String} {d : Definition} (hd : answerDuring pre post names = some (some d)) :
    let final := (Repository.indexing (pre ++ post)).state
    final.lookup? names = some d ↔ ∀ name ∈ (final.trail names).takeWhile (· != d.fqn),
      ∀ f ∈ pre ++ post, FileList.declares name f = false := by
  intro final
  rw [answerDuring_eq, Option.some.injEq] at hd
  obtain ⟨fs, hm, hl⟩ := List.exists_of_findSome?_eq_some hd
  have he : (Repository.indexing (pre ++ fs)).state.Extends final :=
    Repository.extends_indexing_of_mem_inits hn hm
  have hundefined (name : String) : final.definition? name = none ↔
      ∀ f ∈ pre ++ post, FileList.declares name f = false := by
    rw [(Repository.consistent_indexing (pre ++ post)).definition?_eq,
      Repository.files_indexing hn, FileList.definition?_eq_none_iff]
  simpa only [hundefined] using he.lookup?_stays_iff hl

theorem answer_during_indexing {pre post : List File}
    (hn : ((pre ++ post).map File.uri).Nodup) (names : List String) :
    let done := (Repository.indexing (pre ++ post)).markComplete
    ∃ a, answerDuring pre post names = some a ∧
      a = post.inits.findSome? (fun fs => (Repository.indexing (pre ++ fs)).state.lookup? names) ∧
      (a = none ↔ done.state.lookup? names = none) ∧
      (a = done.state.lookup? names ↔ ∀ d, a = some d →
        ∀ name ∈ (done.state.trail names).takeWhile (· != d.fqn),
          ∀ f ∈ pre ++ post, FileList.declares name f = false) := by
  intro done
  have hdone : done.state = (Repository.indexing (pre ++ post)).state :=
    Repository.state_markComplete _
  rw [hdone]
  have hnone := answerDuring_eq_none_iff hn names
  obtain ⟨a, ha⟩ : ∃ a, answerDuring pre post names = some a := ⟨_, answerDuring_eq pre post names⟩
  refine ⟨a, ha, Option.some.inj (ha.symm.trans (answerDuring_eq pre post names)), ?_, ?_⟩
  · rw [← hnone, ha, Option.some.injEq]
  · cases a with
    | none => simp [hnone.mp ha]
    | some d =>
      rw [eq_comm]
      refine (answerDuring_stays_iff hn ha).trans ?_
      simp

def globalHelper : File := .outline "file:///global.php" ["helper()"] []

def namespacedHelper : File := .outline "file:///app.php" ["App\\helper()"] []

theorem answer_during_indexing_helper :
    (([globalHelper] ++ [namespacedHelper]).map File.uri).Nodup ∧
      ∃ a, answerDuring [globalHelper] [namespacedHelper] ["App\\helper()", "helper()"] = some a ∧
        a = globalHelper.definitions.head? ∧ a ≠ (Repository.indexing
          ([globalHelper] ++ [namespacedHelper])).markComplete.state.lookup?
            ["App\\helper()", "helper()"] := by
  have hn : (([globalHelper] ++ [namespacedHelper]).map File.uri).Nodup := by decide
  obtain ⟨a, ha, hfirst, -, hfinal⟩ := answer_during_indexing hn ["App\\helper()", "helper()"]
  have hd : a = globalHelper.definitions.head? := hfirst.trans (by decide)
  refine ⟨hn, a, ha, hd, ?_⟩
  rw [Ne, hfinal, hd]
  decide

theorem answer_during_indexing_not_final :
    ¬∀ (pre post : List File) (names : List String), ((pre ++ post).map File.uri).Nodup →
      answerDuring pre post names =
        some ((Repository.indexing (pre ++ post)).markComplete.state.lookup? names) := by
  intro h
  have hclaim := h [globalHelper] [namespacedHelper] ["App\\helper()", "helper()"] (by decide)
  rw [answerDuring_eq, Option.some.injEq] at hclaim
  revert hclaim
  decide

end Waiter

end SemanticIndex
