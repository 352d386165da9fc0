import SemanticIndex.Proofs.Server.Session
import SemanticIndex.Proofs.Sync.Isolation

namespace SemanticIndex

open Indexer Sweep

variable {ε : Type} {services : Services ε} {x y : Indexer} {uri u path : String} {w : Watch}

theorem IndexState.contains_eq_false_iff {s : IndexState} :
    s.contains uri = false ↔ s.file? uri = none := by
  rw [contains_eq]
  cases s.file? uri <;> simp

theorem Indexer.Indexes.eq_of_unreadable {outcome : Except ε Outcome} {e : ε}
    (h : Indexes services x uri outcome y) (hs : x.source services uri = .error e) : y = x := by
  cases h with
  | skipped | unreadable | unparsable => rfl
  | unchanged _ hs' | published _ hs' => cases hs.symm.trans hs'

namespace Watch

theorem agreeAt_follow (hlabel : services.Labels) (hf : x.documents.Faithful services)
    (hclosed : x.documents.text? u = none) {e : ε} (hgone : services.read u = .error e)
    {change : Change} (hc : change ≠ .removed) (w : Watch) (path : String) :
    SameTexts services x (w.follow services change x path) ∧
      x.repository.state.AgreeAt (w.follow services change x path).repository.state u := by
  have hsame : SameTexts services x x ∧ x.repository.state.AgreeAt x.repository.state u :=
    ⟨⟨hf, fun _ => rfl⟩, .refl _ u⟩
  unfold follow
  split
  · exact hsame
  · next uri _ =>
    split
    · exact hsame
    · cases change with
      | removed => exact absurd rfl hc
      | other => exact hsame
      | written =>
        have h := indexes hf uri
        refine ⟨h.sameTexts hf, ?_⟩
        by_cases hu : uri = u
        · subst hu
          have hs : x.source services uri = .error e := by rw [source_eq, hclosed, hgone]
          rw [h.eq_of_unreadable hs]
          exact .refl _ uri
        · exact h.agreeAt hlabel hu

theorem agreeAt_followAll (hlabel : services.Labels) (hf : x.documents.Faithful services)
    (hclosed : x.documents.text? u = none) {e : ε} (hgone : services.read u = .error e)
    {change : Change} (hc : change ≠ .removed) (paths : List String) :
    x.repository.state.AgreeAt (w.followAll services change paths x).repository.state u := by
  unfold followAll
  induction paths generalizing x with
  | nil => exact .refl _ u
  | cons path paths ih =>
    obtain ⟨hsame, hagree⟩ := agreeAt_follow hlabel hf hclosed hgone hc w path
    exact hagree.trans (ih hsame.faithful ((hsame.texts u).trans hclosed))

def concerns (w : Watch) (accepts : String → Bool) (d : Documents) (paths : List String) :
    List String :=
  paths.filterMap fun path => (w.uri? accepts path).filter fun uri => !d.isOpen uri

theorem followAll_removed (paths : List String) : w.followAll services .removed paths x =
    x.removeAll (w.concerns services.accepts x.documents paths) := by
  unfold followAll
  induction paths generalizing x with
  | nil => rfl
  | cons path paths ih =>
    rw [List.foldl_cons, ih]
    cases huri : w.uri? services.accepts path with
    | none => simp [follow, huri, concerns]
    | some uri =>
      cases ho : x.documents.isOpen uri with
      | true => simp [follow, huri, ho, concerns]
      | false =>
        simp only [follow, huri, ho, concerns, List.filterMap_cons, Option.filter_some]
        rfl

theorem file?_followAll_removed (services : Services ε) {paths : List String} (hpath : path ∈ paths)
    (huri : w.uri? services.accepts path = some uri) (hclosed : x.documents.isOpen uri = false) :
    (w.followAll services .removed paths x).repository.state.file? uri = none := by
  rw [followAll_removed]
  refine file?_removeAll (List.mem_filterMap.mpr ⟨path, hpath, ?_⟩)
  simp [huri, hclosed]

end Watch

theorem FileTree.text_of_gone {disk : FileTree} (h : Server.isOnDisk disk uri = false) :
    ∃ e, disk.text uri = .error e := by
  unfold Server.isOnDisk FileTree.isFile at h
  unfold FileTree.text FileTree.read?
  cases hpath : pathOfUri? uri with
  | none => exact ⟨_, rfl⟩
  | some path =>
    have hcontent : disk.content? path = none := by simpa [hpath] using h
    exact ⟨.unreadable path, by simp [hcontent]⟩

namespace Watch

theorem vanished_file_goes_only_when_removed (grammar : Grammar) (disk : FileTree) (w : Watch)
    (r : Repository) (edits : List Edit) (change : Change) (paths : List String)
    {path uri : String} (hpath : path ∈ paths)
    (huri : w.uri? (Services.ofDisk grammar disk).accepts path = some uri)
    (hgone : Server.isOnDisk disk uri = false) :
    let services := Services.ofDisk grammar disk
    let x : Indexer := ⟨r, edits.foldl (Documents.edit services) Documents.empty⟩
    let y := w.followAll services change paths x
    x.documents.isOpen uri = false →
      (y.repository.state.contains uri = false ↔
        change = .removed ∨ r.state.contains uri = false) ∧
      (change ≠ .removed → r.state.AgreeAt y.repository.state uri) := by
  intro services x y hclosed
  have hreliable : services.Reliable := Services.ofDisk_reliable grammar disk
  by_cases hc : change = .removed
  · subst hc
    have hfile : y.repository.state.file? uri = none :=
      file?_followAll_removed services hpath huri hclosed
    exact ⟨by simp [IndexState.contains_eq_false_iff, hfile], fun h => absurd rfl h⟩
  · obtain ⟨e, he⟩ := FileTree.text_of_gone hgone
    have htext : x.documents.text? uri = none := by simpa [Documents.isOpen_eq] using hclosed
    have hagree : r.state.AgreeAt y.repository.state uri :=
      agreeAt_followAll (fun _ _ _ => hreliable.label) (Documents.faithful_edits services edits)
        htext he hc paths
    exact ⟨by simp [hc, hagree.contains_eq], fun _ => hagree⟩

def vanishedRecord : File :=
  collect ((Server.wordGrammar "gone").toTree "file:///w/a.php" "gone") "gone" 0

def leftoverRepository : Repository :=
  Repository.empty.run [.restore ⟨snapshotVersion, [vanishedRecord]⟩]

def leftoverEdits : List Edit := [.put "file:///w/b.php" 1 "edited"]

def leftoverPaths : List String := ["/w/cache/c.php", "/w/b.php", "/w/./a.php"]

def leftoverWatch : Watch := ⟨"/w", ["cache/"]⟩

theorem vanished_file_goes_only_when_removed_with_another :
    let services := Services.ofDisk Server.wordGrammar FileTree.empty
    let x : Indexer :=
      ⟨leftoverRepository, leftoverEdits.foldl (Documents.edit services) Documents.empty⟩
    leftoverWatch.uri? services.accepts "/w/./a.php" = some "file:///w/a.php" ∧
      Server.isOnDisk FileTree.empty "file:///w/a.php" = false ∧
      x.documents.isOpen "file:///w/a.php" = false ∧
      x.repository.state.contains "file:///w/a.php" = true ∧
      (leftoverWatch.followAll services .removed leftoverPaths x).repository.state.contains
        "file:///w/a.php" = false := by
  have huri : leftoverWatch.uri? (Services.ofDisk Server.wordGrammar FileTree.empty).accepts
      "/w/./a.php" = some "file:///w/a.php" := by
    decide +kernel
  have hgone : Server.isOnDisk FileTree.empty "file:///w/a.php" = false := by decide +kernel
  have hpath : "/w/./a.php" ∈ leftoverPaths := by decide
  have hwhen := vanished_file_goes_only_when_removed Server.wordGrammar FileTree.empty
    leftoverWatch leftoverRepository leftoverEdits .removed leftoverPaths hpath huri hgone
  intro services x
  have hclosed : x.documents.isOpen "file:///w/a.php" = false := by decide +kernel
  have hbefore : x.repository.state.contains "file:///w/a.php" = true := by decide +kernel
  exact ⟨huri, hgone, hclosed, hbefore, (hwhen hclosed).1.mpr (.inl rfl)⟩

theorem vanished_file_kept_on_change :
    let w : Watch := ⟨"/w", []⟩
    let services := Services.ofDisk Server.wordGrammar FileTree.empty
    let x : Indexer := ⟨Repository.empty.upsert vanishedRecord, .empty⟩
    let y := w.followAll services .written ["/w/a.php"] x
    w.uri? services.accepts "/w/a.php" = some "file:///w/a.php" ∧
      Server.isOnDisk FileTree.empty "file:///w/a.php" = false ∧
      x.documents.isOpen "file:///w/a.php" = false ∧
      y.repository.state.contains "file:///w/a.php" = true := by
  decide +kernel

end Watch

end SemanticIndex
