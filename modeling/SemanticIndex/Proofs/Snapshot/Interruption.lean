import Mathlib.Logic.Relation
import SemanticIndex.Proofs.Snapshot.RoundTrip

namespace SemanticIndex

namespace SnapshotStore

variable {s : SnapshotStore} {snapshot : DatedSnapshot} {t t' : FileTree}

def NamesFile (s : SnapshotStore) : Prop := Path.endsInName s.path = true

theorem load_of_not_namesFile (h : ¬s.NamesFile) (t : FileTree) : s.load t = .error .missing := by
  rw [NamesFile, Bool.not_eq_true] at h
  rw [load, FileTree.content?_eq, h, Bool.and_false]
  rfl

theorem load_congr (hkeeps : t.Keeps t') (hat : t'.contentAt? s.parts = t.contentAt? s.parts)
    (hfound : t.isFileAt s.parts = true → s.isPresent t = true) : s.load t' = s.load t := by
  rw [load, FileTree.content?_congr hkeeps hat hfound, load]

inductive Phase where
  | making (left : List (List String))
  | clearing
  | writing
  | moving
  | saved
  deriving DecidableEq, Repr

structure Saving where
  disk : FileTree
  phase : Phase

def scratch (s : SnapshotStore) : List (List String) := [s.draft, s.journal, s.writeAhead]

-- An error may come before any step, and while the draft is written the files in `scratch` may hold
-- anything.
inductive Step (s : SnapshotStore) (snapshot : DatedSnapshot) : Saving → Saving → Prop where
  | pass {t : FileTree} {place : List String} {left : List (List String)}
      (h : t.isDirectoryAt place = true) :
      Step s snapshot ⟨t, .making (place :: left)⟩ ⟨t, .making left⟩
  | make {t : FileTree} {place : List String} {left : List (List String)} (h : t.at? place = none) :
      Step s snapshot ⟨t, .making (place :: left)⟩ ⟨t.put place .directory, .making left⟩
  | made {t : FileTree} : Step s snapshot ⟨t, .making []⟩ ⟨t, .clearing⟩
  | clean {t : FileTree} (h : t.at? s.draft = none) :
      Step s snapshot ⟨t, .clearing⟩ ⟨t, .writing⟩
  | clear {t : FileTree} {c : Content} (h : t.at? s.draft = some (.file c)) :
      Step s snapshot ⟨t, .clearing⟩ ⟨t.erase s.draft, .writing⟩
  | write {t : FileTree} {place : List String} {c : Content} (h : place ∈ s.scratch)
      (hfree : t.isDirectoryAt place = false) :
      Step s snapshot ⟨t, .writing⟩ ⟨t.put place (.file c), .writing⟩
  | discard {t : FileTree} {place : List String} (h : place ∈ s.scratch)
      (hfree : t.isDirectoryAt place = false) :
      Step s snapshot ⟨t, .writing⟩ ⟨t.erase place, .writing⟩
  | commit {t : FileTree} (hd : urisDistinct snapshot.files = true)
      (h : t.at? s.draft = some (.file (.database (.ofSnapshot snapshot)))) :
      Step s snapshot ⟨t, .writing⟩ ⟨t, .moving⟩
  | move {t : FileTree} (hfree : t.isDirectoryAt s.parts = false)
      (h : Path.endsInName s.path = true) :
      Step s snapshot ⟨t, .moving⟩
        ⟨(t.erase s.draft).put s.parts (.file (.database (.ofSnapshot snapshot))), .saved⟩

def Reaches (s : SnapshotStore) (snapshot : DatedSnapshot) (t : FileTree) (saving : Saving) : Prop :=
  Relation.ReflTransGen (Step s snapshot) ⟨t, .making s.directories⟩ saving

structure Kept (s : SnapshotStore) (t : FileTree) (disk : FileTree) : Prop where
  directories : t.Keeps disk
  stays : disk.contentAt? s.parts = t.contentAt? s.parts

def Apart (s : SnapshotStore) : Prop :=
  ∀ place ∈ s.scratch, Path.ofComponents place ≠ Path.ofComponents s.parts

namespace Kept

variable {disk : FileTree} {place : List String}

theorem make (h : Kept s t disk) (hplace : disk.at? place = none) :
    Kept s t (disk.put place .directory) := by
  refine ⟨h.directories.trans (FileTree.keeps_put_directory disk place), ?_⟩
  rw [← h.stays]
  have hroot := FileTree.ne_nil_of_isDirectoryAt (FileTree.isDirectoryAt_of_none hplace)
  by_cases hsame : Path.ofComponents place = Path.ofComponents s.parts
  · by_cases hparts : s.parts = []
    · rw [hparts]
      rfl
    · have hat {u : FileTree} : u.at? s.parts = u.at? place :=
        (FileTree.at?_of_ofComponents_eq hsame hroot hparts).symm
      rw [FileTree.contentAt?, FileTree.contentAt?, hat, hat, hplace, FileTree.at?_put hroot]
      rfl
  · rw [FileTree.contentAt?, FileTree.at?_put_of_ne hsame]
    rfl

theorem write (h : Kept s t disk) (hfree : disk.isDirectoryAt place = false)
    (hapart : Path.ofComponents place ≠ Path.ofComponents s.parts) (c : Content) :
    Kept s t (disk.put place (.file c)) := by
  refine ⟨h.directories.trans (.of_eq (FileTree.isDirectoryAt_put_file hfree c)), ?_⟩
  rw [← h.stays, FileTree.contentAt?, FileTree.at?_put_of_ne hapart]
  rfl

theorem discard (h : Kept s t disk) (hfree : disk.isDirectoryAt place = false)
    (hapart : Path.ofComponents place ≠ Path.ofComponents s.parts) :
    Kept s t (disk.erase place) := by
  refine ⟨h.directories.trans (.of_eq (FileTree.isDirectoryAt_erase hfree)), ?_⟩
  rw [← h.stays, FileTree.contentAt?, FileTree.at?_erase_of_ne hapart]
  rfl

theorem step {a b : Saving} (h : Kept s t a.disk) (hapart : s.Apart) (hstep : Step s snapshot a b)
    (hphase : b.phase ≠ .saved) : Kept s t b.disk := by
  cases hstep with
  | pass => exact h
  | make hplace => exact h.make hplace
  | made => exact h
  | clean => exact h
  | clear hdraft =>
    exact h.discard (FileTree.isDirectoryAt_of_file hdraft) (hapart s.draft (by simp [scratch]))
  | write hplace hfree => exact h.write hfree (hapart _ hplace) _
  | discard hplace hfree => exact h.discard hfree (hapart _ hplace)
  | commit => exact h
  | move => exact absurd rfl hphase

end Kept

theorem Step.phase_ne_saved {a b : Saving} (h : Step s snapshot a b) : a.phase ≠ .saved := by
  cases h <;> simp

theorem Reaches.kept {saving : Saving} (hapart : s.Apart) (h : Reaches s snapshot t saving)
    (hphase : saving.phase ≠ .saved) : Kept s t saving.disk := by
  induction h with
  | refl => exact ⟨.refl t, rfl⟩
  | tail _ hstep ih => exact (ih hstep.phase_ne_saved).step hapart hstep hphase

theorem apart_of_not_mem (hname : s.NamesFile) (h : s.parts ∉ s.scratch) : s.Apart := by
  obtain ⟨front, name, hparts, hplain⟩ := Path.components_of_endsInName hname
  have hdraft : s.draft = front ++ [Path.stem name ++ "." ++ "tmp"] := by
    rw [draft, hplain, if_neg Bool.false_ne_true, parts, hparts, Path.withExtension]
    simp
  have hsibling : ∀ place ∈ s.scratch, ∃ a, place = front ++ [a] := by
    have hending (ending : String) : ∃ a, Path.withEnding s.draft ending = front ++ [a] :=
      ⟨_, by rw [hdraft, Path.withEnding, List.getLast?_concat, List.dropLast_concat]⟩
    intro place hplace
    rcases List.mem_cons.mp hplace with rfl | hplace
    · exact ⟨_, hdraft⟩
    · rcases List.mem_pair.mp hplace with rfl | rfl
      · exact hending "-journal"
      · exact hending "-wal"
  intro place hplace he
  obtain ⟨a, rfl⟩ := hsibling place hplace
  rw [show s.parts = front ++ [name] from hparts] at h he
  exact h (Path.ofComponents_sibling he ▸ hplace)

theorem load_eq_of_reaches {saving : Saving} (hscratch : s.NamesFile → s.parts ∉ s.scratch)
    (hfound : s.NamesFile → t.isFileAt s.parts = true → s.isPresent t = true)
    (h : Reaches s snapshot t saving) (hphase : saving.phase ≠ .saved) :
    s.load saving.disk = s.load t := by
  by_cases hn : s.NamesFile
  · have hkept := h.kept (apart_of_not_mem hn (hscratch hn)) hphase
    exact load_congr hkept.directories hkept.stays (hfound hn)
  · rw [load_of_not_namesFile hn, load_of_not_namesFile hn]

section Run

variable (s snapshot) (t : FileTree)

theorem reaches_makeDirectories (places : List (List String)) : ∃ left,
    Relation.ReflTransGen (Step s snapshot) ⟨t, .making places⟩
      ⟨(t.makeDirectories places).2, .making left⟩ ∧
    ((t.makeDirectories places).1 = true → left = []) := by
  induction places generalizing t with
  | nil => exact ⟨[], .refl, fun _ => rfl⟩
  | cons place rest ih =>
    unfold FileTree.makeDirectories
    split
    · next hdirectory =>
      obtain ⟨left, hrun, hall⟩ := ih t
      exact ⟨left, .head (.pass (FileTree.isDirectoryAt_iff.mpr hdirectory)) hrun, hall⟩
    · exact ⟨place :: rest, .refl, by simp⟩
    · next hnone =>
      obtain ⟨left, hrun, hall⟩ := ih (t.put place .directory)
      exact ⟨left, .head (.make hnone) hrun, hall⟩

theorem reaches_prepare : ∃ phase, Reaches s snapshot t ⟨(s.prepare t).2, phase⟩ ∧
    phase ≠ .saved ∧ ((s.prepare t).1 = .ok () → phase = .writing) := by
  obtain ⟨left, hrun, hall⟩ := reaches_makeDirectories s snapshot t s.directories
  unfold prepare
  split
  · next t₁ hmade =>
    rw [hmade] at hrun
    exact ⟨.making left, hrun, by simp, by simp⟩
  · next t₁ hmade =>
    rw [hmade] at hrun hall
    obtain rfl := hall rfl
    have hclearing : Reaches s snapshot t ⟨t₁, .clearing⟩ := hrun.tail .made
    split
    · next hnone => exact ⟨.writing, hclearing.tail (.clean hnone), by simp, fun _ => rfl⟩
    · next hfile => exact ⟨.writing, hclearing.tail (.clear hfile), by simp, fun _ => rfl⟩
    · exact ⟨.clearing, hclearing, by simp, by simp⟩

end Run

theorem reaches_dropRemnant {u : FileTree} {place : List String}
    (h : Reaches s snapshot t ⟨u, .writing⟩) (hplace : place ∈ s.scratch) :
    Reaches s snapshot t ⟨dropRemnant u place, .writing⟩ := by
  unfold dropRemnant
  split
  · next hfile =>
    split
    · exact h
    · exact h.tail (.discard hplace (FileTree.isDirectoryAt_of_file hfile))
  · exact h

theorem reaches_openDraft {u : FileTree} (h : Reaches s snapshot t ⟨u, .writing⟩)
    (hfree : u.isDirectoryAt s.draft = false) :
    Reaches s snapshot t ⟨(s.openDraft u).2, .writing⟩ := by
  have hopened : Reaches s snapshot t
      ⟨dropRemnant (u.put s.draft (.file (.bytes []))) s.journal, .writing⟩ :=
    reaches_dropRemnant (h.tail (.write (by simp [scratch]) hfree)) (by simp [scratch])
  unfold openDraft
  dsimp only
  split
  · exact hopened
  · have hcleared : Reaches s snapshot t ⟨dropRemnant _ s.writeAhead, .writing⟩ :=
      reaches_dropRemnant hopened (by simp [scratch])
    split
    · exact hcleared
    · next hjournal =>
      exact hcleared.tail (.discard (by simp [scratch]) (Bool.eq_false_iff.mpr hjournal))

theorem reaches_save (s : SnapshotStore) (t : FileTree) (snapshot : DatedSnapshot) :
    ∃ saving, Reaches s snapshot t saving ∧ saving.disk = (s.save t snapshot).2 ∧
      ((s.save t snapshot).1 = .ok () ↔ saving.phase = .saved) := by
  obtain ⟨phase, hprepare, hunsaved, hphase⟩ := reaches_prepare s snapshot t
  unfold save
  split
  · next hfailed =>
    rw [hfailed] at hprepare
    exact ⟨_, hprepare, rfl, by simpa using hunsaved⟩
  · next u hprepared =>
    rw [hprepared] at hprepare hphase
    obtain rfl := hphase rfl
    have hfree : u.isDirectoryAt s.draft = false := (prepare_eq_ok hprepared).2
    have hopen := reaches_openDraft hprepare hfree
    have hsame := isDirectoryAt_openDraft hfree s.draft
    split
    · next hfailed =>
      rw [hfailed] at hopen
      exact ⟨_, hopen, rfl, by simp⟩
    · next u' hopened =>
      rw [hopened] at hopen hsame
      have hfree' : u'.isDirectoryAt s.draft = false := hsame.trans hfree
      have hwrite {c : Content} :
          Reaches s snapshot t ⟨u'.put s.draft (.file c), .writing⟩ :=
        hopen.tail (.write (by simp [scratch]) hfree')
      split
      · exact ⟨_, hwrite, rfl, by simp⟩
      · next hdistinct =>
        have hmoving := hwrite.tail (.commit (by simpa using hdistinct)
          (FileTree.at?_put (FileTree.ne_nil_of_isDirectoryAt hfree') _))
        dsimp only
        split
        · exact ⟨_, hmoving, rfl, by simp⟩
        · next hplace =>
          simp only [Bool.or_eq_true, not_or, Bool.not_eq_true, Bool.not_eq_false'] at hplace
          exact ⟨_, hmoving.tail (.move hplace.1 hplace.2), rfl, by simp⟩

theorem failed_save_keeps_snapshot (s : SnapshotStore) (t : FileTree) (snapshot : DatedSnapshot) :
    ((s.NamesFile → s.parts ∉ s.scratch) →
      (s.NamesFile → t.isFileAt s.parts = true → s.isPresent t = true) →
      (∀ e, (s.save t snapshot).1 = .error e → s.load (s.save t snapshot).2 = s.load t) ∧
      ∀ saving, Reaches s snapshot t saving → saving.phase ≠ .saved →
        s.load saving.disk = s.load t) ∧
      (t.Closed → ¬Path.Climbs s.path →
        s.NamesFile → t.isFileAt s.parts = true → s.isPresent t = true) ∧
      ∃ saving, Reaches s snapshot t saving ∧ saving.disk = (s.save t snapshot).2 ∧
        ((s.save t snapshot).1 = .ok () ↔ saving.phase = .saved) := by
  obtain ⟨saving, hreach, hdisk, hok⟩ := reaches_save s t snapshot
  refine ⟨fun hscratch hfound => ⟨fun e he => ?_, fun saving hreach hphase => ?_⟩,
    FileTree.isFile_of_closed, saving, hreach, hdisk, hok⟩
  · have hphase : saving.phase ≠ .saved := fun hsaved => by
      rw [he] at hok
      cases hok.mpr hsaved
    rw [← hdisk]
    exact load_eq_of_reaches hscratch hfound hreach hphase
  · exact load_eq_of_reaches hscratch hfound hreach hphase

def blank (uris : List String) : DatedSnapshot where
  version := snapshotVersion
  files := uris.map fun uri => ⟨uri, "h", 0, false, [], [], []⟩
  createdAt := ⟨1700000000, 0⟩

theorem failed_save_keeps_snapshot_half_written :
    let store : SnapshotStore := ⟨"/cache/index.db"⟩
    let kept := blank ["file:///a.php"]
    let cache := FileTree.empty.put ["cache"] .directory
    let t := cache.put ["cache", "index.db"] (.file (.database (.ofSnapshot kept)))
    let twice := blank ["file:///b.php", "file:///b.php"]
    let half := (t.put ["cache", "index.tmp"] (.file (.bytes [83]))).put
      ["cache", "index.tmp-journal"] (.file (.bytes [217, 213]))
    (store.save t twice).1 = .error .duplicateUri ∧ store.load (store.save t twice).2 = .ok kept ∧
      store.load half = .ok kept ∧ store.isPresent t = true := by
  intro store kept cache t twice half
  have hkept : store.load t = .ok kept := by decide +kernel
  have hfails : (store.save t twice).1 = .error .duplicateUri := by decide +kernel
  obtain ⟨hkeeps, hpresent, -⟩ := failed_save_keeps_snapshot store t twice
  obtain ⟨hsave, hruns⟩ := hkeeps (fun _ => by decide +kernel) (fun _ _ => by decide +kernel)
  have hdirectories : store.directories = [[], ["cache"]] := by decide +kernel
  have hcache : t.isDirectoryAt ["cache"] = true := by decide +kernel
  have hclean : t.at? store.draft = none := by decide +kernel
  have hdraft : ["cache", "index.tmp"] ∈ store.scratch := by decide +kernel
  have hjournal : ["cache", "index.tmp-journal"] ∈ store.scratch := by decide +kernel
  have hhalf : Reaches store twice t ⟨half, .writing⟩ := by
    rw [Reaches, hdirectories]
    refine .head (.pass t.isDirectoryAt_root) (.head (.pass hcache) (.head .made ?_))
    refine .head (.clean hclean) (.head (.write hdraft ?_) (.single (.write hjournal ?_)))
    · decide +kernel
    · decide +kernel
  have hname : Path.endsInName store.path = true := by decide +kernel
  have hfree : cache.isDirectoryAt ["cache", "index.db"] = false := by decide +kernel
  have hclosed : (FileTree.empty.put ([] ++ ["cache"]) .directory).Closed :=
    FileTree.closed_empty.put (FileTree.isDirectoryAt_root _) (by decide +kernel)
      (FileTree.keeps_put_directory _ _)
  have hkeepsAll : cache.Keeps t := .of_eq (FileTree.isDirectoryAt_put_file hfree _)
  have hclosed' : (cache.put (["cache"] ++ ["index.db"]) _).Closed :=
    hclosed.put (by decide +kernel) (by decide +kernel) hkeepsAll
  refine ⟨hfails, ?_, ?_, ?_⟩
  · rw [hsave .duplicateUri hfails, hkept]
  · exact (hruns ⟨half, .writing⟩ hhalf (by simp)).trans hkept
  · exact hpresent hclosed' (by decide +kernel) hname (by decide +kernel)

theorem failed_save_onto_own_draft_loses_snapshot :
    let kept := blank ["file:///a.php"]
    let twice := blank ["file:///b.php", "file:///b.php"]
    (let store : SnapshotStore := ⟨"/cache/index.tmp"⟩
      let t := (store.save .empty kept).2
      store.load t = .ok kept ∧ (store.save t twice).1 = .error .duplicateUri ∧
        store.load (store.save t twice).2 = .error (.corrupt .unreadable)) ∧
    (let store : SnapshotStore := ⟨"/cache/index.tmp-journal"⟩
      let t := (store.save .empty kept).2
      store.load t = .ok kept ∧ (store.save t twice).1 = .error .duplicateUri ∧
        store.load (store.save t twice).2 = .error .missing) ∧
    (let store : SnapshotStore := ⟨"/m/missing/../index.db"⟩
      let t := ((SnapshotStore.mk "/m/index.db").save .empty kept).2
      store.load t = .error .missing ∧ (store.save t twice).1 = .error .duplicateUri ∧
        store.load (store.save t twice).2 = .ok kept) := by
  decide +kernel

end SnapshotStore

end SemanticIndex
