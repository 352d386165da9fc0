import SemanticIndex.Collect.Basic
import SemanticIndex.Proofs.Files.Placement
import SemanticIndex.Proofs.Index.FileList
import SemanticIndex.Proofs.Snapshot.Filing
import SemanticIndex.Snapshot.Store

namespace SemanticIndex

namespace File

variable {f : File}

theorem filed_eq_self (hl : f.Local) (hm : f.parseMillis.toNat < 0x8000000000000000) :
    f.filed = f := by
  have hd : f.definitions.map (fun d => { d with uri := f.uri }) = f.definitions := by
    refine (List.map_congr_left fun d hd => ?_).trans (List.map_id f.definitions)
    rw [← hl.1 d hd]
    rfl
  have hr : f.references.map (fun r => { r with uri := f.uri }) = f.references := by
    refine (List.map_congr_left fun r hr => ?_).trans (List.map_id f.references)
    rw [← hl.2 r hr]
    rfl
  rw [filed, hd, hr, if_pos hm]

theorem map_filed_eq_self {fs : List File}
    (h : ∀ f ∈ fs, f.Local ∧ f.parseMillis.toNat < 0x8000000000000000) : fs.map filed = fs :=
  (List.map_congr_left fun f hf => filed_eq_self (h f hf).1 (h f hf).2).trans (List.map_id fs)

end File

namespace Collect

variable {t : Tree} {found : Findings} {v : Nat × Scope}

structure Findings.Local (found : Findings) (t : Tree) : Prop where
  definitions : ∀ d ∈ found.definitions, d.uri = t.uri
  references : ∀ r ∈ found.references, r.uri = t.uri

theorem Findings.Local.declare (h : found.Local t) (i : Nat) (context : NameContext) :
    (found.declare t i context).Local t := by
  unfold Findings.declare
  split
  · exact h
  · next s _ =>
    refine ⟨fun d hd => ?_, h.references⟩
    split at hd
    · exact h.definitions d hd
    · rcases List.mem_append.mp hd with hd | hd
      · exact h.definitions d hd
      · rw [List.mem_singleton.mp hd]
        rfl

theorem Findings.Local.refer (h : found.Local t) (i : Nat) (context : NameContext) :
    (found.refer t i context).Local t := by
  refine ⟨h.definitions, fun r hr => ?_⟩
  rcases List.mem_append.mp hr with hr | hr
  · exact h.references r hr
  · rw [Option.mem_toList, reference?] at hr
    split at hr <;> cases hr
    rfl

theorem Findings.Local.visit (h : found.Local t) (v : Nat × Scope) : (found.visit t v).Local t := by
  obtain ⟨i, scope⟩ := v
  unfold Findings.visit
  dsimp only
  split
  · exact ⟨h.definitions, h.references⟩
  · split
    · exact h.declare i scope.context
    · split
      · exact h.refer i scope.context
      · exact h

theorem findings_local (t : Tree) : (findings t).Local t := by
  have hempty : Findings.empty.Local t := ⟨by simp [Findings.empty], by simp [Findings.empty]⟩
  unfold findings
  generalize visits t = vs, Findings.empty = found at hempty ⊢
  induction vs generalizing found with
  | nil => exact hempty
  | cons v vs ih => exact ih _ (hempty.visit v)

end Collect

theorem collect_local (t : Tree) (hash : String) (millis : UInt64) :
    (collect t hash millis).Local :=
  ⟨(Collect.findings_local t).definitions, (Collect.findings_local t).references⟩

namespace SnapshotStore

variable {store : SnapshotStore} {t : FileTree} {s : DatedSnapshot}

theorem isDirectoryAt_dropRemnant (t : FileTree) (place other : List String) :
    (dropRemnant t place).isDirectoryAt other = t.isDirectoryAt other := by
  unfold dropRemnant
  split
  · next hfile =>
    split
    · rfl
    · exact FileTree.isDirectoryAt_erase (FileTree.isDirectoryAt_of_file hfile) other
  · rfl

theorem isDirectoryAt_openDraft (h : t.isDirectoryAt store.draft = false) (other : List String) :
    (store.openDraft t).2.isDirectoryAt other = t.isDirectoryAt other := by
  have hopened (place : List String) :
      (dropRemnant (t.put store.draft (.file (.bytes []))) store.journal).isDirectoryAt place =
        t.isDirectoryAt place := by
    rw [isDirectoryAt_dropRemnant, FileTree.isDirectoryAt_put_file h]
  unfold openDraft
  dsimp only
  split
  · exact hopened other
  · split
    · rw [isDirectoryAt_dropRemnant]
      exact hopened other
    · next hjournal =>
      rw [FileTree.isDirectoryAt_erase (Bool.eq_false_iff.mpr hjournal), isDirectoryAt_dropRemnant]
      exact hopened other

theorem prepare_eq_ok {t' : FileTree} (h : store.prepare t = (.ok (), t')) :
    (∀ place ∈ store.directories, t'.isDirectoryAt place = true) ∧
      t'.isDirectoryAt store.draft = false := by
  unfold prepare at h
  split at h
  · cases h
  · next t₁ hmade =>
    have hdirectories : ∀ place ∈ store.directories, t₁.isDirectoryAt place = true := by
      intro place hplace
      have hdirectory := FileTree.isDirectoryAt_makeDirectories (congrArg Prod.fst hmade) hplace
      rwa [hmade] at hdirectory
    split at h
    · next hnone =>
      cases h
      exact ⟨hdirectories, FileTree.isDirectoryAt_of_none hnone⟩
    · next hfile =>
      cases h
      have hdraft := FileTree.isDirectoryAt_of_file hfile
      refine ⟨fun place hplace => ?_, ?_⟩
      · rw [FileTree.isDirectoryAt_erase hdraft]
        exact hdirectories place hplace
      · rw [FileTree.isDirectoryAt_erase hdraft]
        exact hdraft
    · cases h

theorem save_eq_ok (h : (store.save t s).1 = .ok ()) :
    ∃ rest : FileTree, (store.save t s).2 =
        rest.put store.parts (.file (.database (.ofSnapshot s))) ∧
      (∀ place ∈ store.directories, rest.isDirectoryAt place = true) ∧
      rest.isDirectoryAt store.parts = false ∧ Path.endsInName store.path = true := by
  generalize hr : store.save t s = result at h ⊢
  unfold save at hr
  split at hr
  · rw [← hr] at h; cases h
  · next t₁ hprepared =>
    obtain ⟨hdirectories, hdraft⟩ := prepare_eq_ok hprepared
    split at hr
    · rw [← hr] at h; cases h
    · next t₂ hopened =>
      have hsame : ∀ place, t₂.isDirectoryAt place = t₁.isDirectoryAt place := by
        simpa only [hopened] using isDirectoryAt_openDraft hdraft
      have hdraft₂ : t₂.isDirectoryAt store.draft = false := (hsame _).trans hdraft
      split at hr
      · rw [← hr] at h; cases h
      · dsimp only at hr
        split at hr
        · rw [← hr] at h; cases h
        · next hplace =>
          simp only [Bool.or_eq_true, not_or, Bool.not_eq_true, Bool.not_eq_false'] at hplace
          have hput := FileTree.isDirectoryAt_put_file hdraft₂ (.database (.ofSnapshot s))
          have hwritten : ∀ place,
              ((t₂.put store.draft (.file (.database (.ofSnapshot s)))).erase
                store.draft).isDirectoryAt place = t₂.isDirectoryAt place := fun place => by
            rw [FileTree.isDirectoryAt_erase ((hput _).trans hdraft₂), hput]
          refine ⟨_, congrArg Prod.snd hr.symm, fun place hin => ?_, ?_, hplace.2⟩
          · rw [hwritten, hsame]
            exact hdirectories place hin
          · rw [hwritten, ← hput]
            exact hplace.1

theorem content?_save (h : (store.save t s).1 = .ok ()) :
    (store.save t s).2.content? store.path = some (.database (.ofSnapshot s)) := by
  obtain ⟨rest, htree, hdirectories, hfree, hname⟩ := save_eq_ok h
  have hleads : (Path.passed store.path).all (store.save t s).2.isDirectoryAt = true := by
    refine List.all_eq_true.mpr fun place hplace => ?_
    rw [htree, FileTree.isDirectoryAt_put_file hfree]
    exact hdirectories place hplace
  rw [FileTree.content?_eq, hleads, hname, FileTree.contentAt?, htree]
  exact congrArg (Option.bind · Entry.content?)
    (FileTree.at?_put (FileTree.ne_nil_of_isDirectoryAt hfree) _)

theorem load_save (store : SnapshotStore) (t : FileTree) (createdAt : Timestamp)
    (ht : Timestamp.parse? createdAt.render = some createdAt) :
    (∀ s : DatedSnapshot, s.version = snapshotVersion → s.createdAt = createdAt →
        (store.save t s).1 = .ok () →
          store.load (store.save t s).2 = .ok { s with files := s.files.map File.filed }) ∧
      ∀ r : Repository, (∀ f ∈ r.state.files, ∃ tree hash millis,
          f = collect tree hash millis ∧ millis.toNat < 0x8000000000000000) →
        let s : DatedSnapshot := ⟨r.snapshot, createdAt⟩
        (store.save t s).1 = .ok () → store.load (store.save t s).2 = .ok s := by
  have hload (s : DatedSnapshot) (hv : s.version = snapshotVersion) (hc : s.createdAt = createdAt)
      (h : (store.save t s).1 = .ok ()) :
      store.load (store.save t s).2 = .ok { s with files := s.files.map File.filed } := by
    rw [load, content?_save h]
    exact Tables.load_ofSnapshot s hv (hc ▸ ht)
  refine ⟨hload, fun r hr => ?_⟩
  intro s h
  have hfiled : s.files.map File.filed = s.files := by
    refine File.map_filed_eq_self fun f hf => ?_
    obtain ⟨tree, hash, millis, rfl, hm⟩ := hr f hf
    exact ⟨collect_local tree hash millis, hm⟩
  rw [hload s rfl rfl h, hfiled]

def greeter : Tree :=
  .ofNodes "file:///g.php" "namespace A;function f(){}"
    [(.program, none, 0, 26, none), (.namespaceDefinition, none, 0, 12, some 0),
     (.namespaceName, some .name, 10, 11, some 1), (.functionDefinition, none, 12, 26, some 0),
     (.name, some .name, 21, 22, some 3)]

def misfiled : File where
  uri := "file:///a.php"
  contentHash := "h"
  parseMillis := 0x8000000000000000
  hasErrors := true
  namespaces := [⟨"A", [⟨"C", .classType, "A\\C", ⟨⟨1, 0⟩, ⟨2, 1⟩⟩, "A", none⟩]⟩, ⟨"B", []⟩]
  definitions := [⟨"A\\C", "C", .classType, "file:///b.php", ⟨⟨1, 0⟩, ⟨2, 1⟩⟩, none, some "class C",
    none, ["A\\\"\n", ""]⟩]
  references := [⟨"f()", "file:///c.php", ⟨⟨3, 0⟩, ⟨3, 1⟩⟩, some "g()"⟩]

theorem load_save_misfiled :
    let store : SnapshotStore := ⟨"/w/index.db"⟩
    let moment : Timestamp := ⟨1700000000, 250000000⟩
    let s : DatedSnapshot := ⟨⟨snapshotVersion, [misfiled, collect greeter "k" 7]⟩, moment⟩
    let r : Repository := Repository.empty.upsert (collect greeter "k" 7)
    let kept : DatedSnapshot := ⟨r.snapshot, moment⟩
    (store.save .empty s).1 = .ok () ∧
      store.load (store.save .empty s).2 =
        .ok { s with files := [misfiled.filed, collect greeter "k" 7] } ∧
      misfiled.filed ≠ misfiled ∧
      (store.save .empty kept).1 = .ok () ∧ store.load (store.save .empty kept).2 = .ok kept := by
  intro store moment s r kept
  have ht : Timestamp.parse? moment.render = some moment := by decide +kernel
  have hfiles : r.state.files = [collect greeter "k" 7] := by decide +kernel
  have hs : (store.save .empty s).1 = .ok () := by decide +kernel
  have hk : (store.save .empty kept).1 = .ok () := by decide +kernel
  have hsame : (collect greeter "k" 7).filed = collect greeter "k" 7 :=
    File.filed_eq_self (collect_local greeter "k" 7) (by decide)
  obtain ⟨hload, hkept⟩ := load_save store .empty moment ht
  refine ⟨hs, ?_, by decide +kernel, hk, hkept r (fun f hf => ?_) hk⟩
  · rw [hload s rfl rfl hs, List.map_cons, List.map_cons, hsame, List.map_nil]
  · rw [hfiles, List.mem_singleton] at hf
    exact ⟨greeter, "k", 7, hf, by decide⟩

end SnapshotStore

end SemanticIndex
