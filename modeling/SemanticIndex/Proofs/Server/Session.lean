import Mathlib.Logic.Relation
import SemanticIndex.Proofs.Sync.Overlay
import SemanticIndex.Server.Lifecycle

namespace SemanticIndex

namespace Concrete

mutual

theorem uri_addTo (t : Tree) (parent : Nat) (c : Concrete) : (addTo t parent c).uri = t.uri := by
  cases c with
  | node s cs =>
    unfold addTo
    split
    · exact uri_addAllTo _ _ cs
    · split
      · exact uri_addAllTo _ _ cs
      · exact uri_addAllTo _ _ cs

theorem uri_addAllTo (t : Tree) (parent : Nat) (cs : List Concrete) :
    (addAllTo t parent cs).uri = t.uri := by
  cases cs with
  | nil => rw [addAllTo]
  | cons c cs => rw [addAllTo, uri_addAllTo, uri_addTo]

end

end Concrete

theorem Services.ofDisk_reading (grammar : Grammar) (disk other : FileTree) :
    (Services.ofDisk grammar disk).reading other.text = Services.ofDisk grammar other := by
  simp only [Services.reading, Services.ofDisk]

theorem Services.ofDisk_reliable (grammar : Grammar) (disk : FileTree) :
    (Services.ofDisk grammar disk).Reliable where
  digest_injective := Function.injective_id
  parse_ok uri text := by
    refine ⟨(grammar text).toTree uri text, rfl, ?_⟩
    unfold Parse.toTree
    dsimp only
    rw [Concrete.uri_addAllTo]
    split <;> rfl

namespace Server

open Indexer

variable {ε : Type} {services : Services ε} {x : Indexer}

section Kept

variable (hr : services.Reliable) (h : Owned services x)

include hr h

theorem owned_targetAt? (c : Cursor) : Owned services (targetAt? services x c).2 := by
  have htree := (h.ensureFresh hr c.uri).tree hr c.uri
  unfold targetAt?
  dsimp only
  split <;> next heq => simpa only [heq] using htree

theorem owned_resolve (tree : Tree) (target : Nat) :
    Owned services (resolve services x tree target).2 := by
  unfold resolve
  split
  · exact h
  · next d _ =>
    split
    · exact h
    · exact h.ensureFresh hr d.uri

theorem owned_resolveAt? (c : Cursor) : Owned services (resolveAt? services x c).2 := by
  have htarget := owned_targetAt? hr h c
  unfold resolveAt?
  split
  · next heq => simpa only [heq] using htarget
  · next tree target y heq =>
    rw [heq] at htarget
    exact owned_resolve hr htarget tree target

theorem owned_symbols (uri : String) : Owned services (symbols services x uri).2 := by
  have hfresh := h.ensureFresh hr uri
  unfold symbols
  dsimp only
  split
  · exact hfresh
  · exact hfresh.index hr uri

theorem owned_ensureAllFresh (uris : List String) :
    Owned services (ensureAllFresh services x uris) := by
  unfold ensureAllFresh
  induction uris generalizing x with
  | nil => exact h
  | cons uri uris ih => exact ih (h.ensureFresh hr uri)

theorem owned_references (search : ReferenceSearch) :
    Owned services (references services x search).2 := by
  have htarget := owned_targetAt? hr h search.cursor
  unfold references
  split
  · next heq => simpa only [heq] using htarget
  · next tree target y heq =>
    rw [heq] at htarget
    dsimp only
    split
    · exact htarget
    · exact owned_ensureAllFresh hr htarget _

theorem owned_hover (c : Cursor) : Owned services (hover services x c).2 := by
  have hfound := owned_resolveAt? hr h c
  unfold hover
  dsimp only
  split <;> exact hfound

theorem owned_completion (most : Nat) (c : Cursor) :
    Owned services (completion services x most c).2 := by
  have htree := h.tree hr c.uri
  unfold completion
  split
  · next heq => simpa only [heq] using htree
  · next heq =>
    rw [heq] at htree
    split <;> exact htree

theorem owned_consult (w : Workspace) (r : Request) : Owned services (consult services w x r).2 := by
  cases r with
  | shutdown => exact h
  | symbols uri => exact owned_symbols hr h uri
  | definition c => exact owned_resolveAt? hr h c
  | references search => exact owned_references hr h search
  | hover c => exact owned_hover hr h c
  | completion c => exact owned_completion hr h _ c
  | symbolDefinition c => exact owned_resolveAt? hr h c

theorem owned_put (uri : String) (version : Int) (text : String) :
    Owned services
      (reindex services { x with documents := x.documents.put uri version text } uri) := by
  refine h.index_edited hr (h.faithful.put uri version text) fun u hu => ?_
  rw [Documents.text?, Documents.get?_put, if_neg (Ne.symm hu), Documents.text?]

theorem owned_closed (disk : FileTree) (uri : String) :
    Owned services (takeNotice services disk x (.closed uri)) := by
  have hothers : ∀ u ≠ uri, (x.documents.close uri).text? u = x.documents.text? u := fun u hu => by
    rw [Documents.text?, Documents.get?_close, if_neg (Ne.symm hu), Documents.text?]
  have hgone : (x.documents.close uri).text? uri = none := by
    rw [Documents.text?, Documents.get?_close, if_pos rfl, Option.map_none]
  simp only [takeNotice]
  split
  · exact h.index_edited hr (h.faithful.close uri) hothers
  · exact h.remove_edited (h.faithful.close uri) hothers hgone

theorem owned_takeFileChange (c : FileChange) : Owned services (takeFileChange services x c) := by
  unfold takeFileChange
  split
  · exact h
  · next hclosed =>
    split
    · exact h.remove (by simpa [Documents.isOpen_eq] using hclosed)
    · exact h.index hr c.uri

theorem owned_takeNotice (disk : FileTree) (notice : Notice) :
    Owned services (takeNotice services disk x notice) := by
  cases notice with
  | opened r => exact owned_put hr h r.uri r.version r.text
  | changed r =>
    simp only [takeNotice, Documents.update]
    split
    · exact owned_put hr h r.uri r.version r.text
    · exact h
  | closed uri => exact owned_closed hr h disk uri
  | filesChanged changes =>
    simp only [takeNotice]
    induction changes generalizing x with
    | nil => exact h
    | cons c changes ih => exact ih (owned_takeFileChange hr h c)

end Kept

section Sessions

variable {services : Services ReadError} {disk : FileTree} {w : Workspace} {x y : Indexer}

inductive TakesUp (disk : FileTree) (w : Workspace) : Indexer → Prop where
  | rooted : TakesUp disk w ⟨(restoreFrom disk w.store .empty).beginIndexing, .empty⟩
  | rootless : TakesUp disk w ⟨(restoreFrom disk w.store .empty).markComplete, .empty⟩

inductive Handles (services : Services ReadError) (w : Workspace) : Indexer → Indexer → Prop where
  | hears {x : Indexer} (disk : FileTree) (notice : Notice) :
      Handles services w x (takeNotice (services.reading disk.text) disk x notice)
  | answers {x : Indexer} (disk : FileTree) (r : Request) :
      Handles services w x (consult (services.reading disk.text) w x r).2
  | follows {x : Indexer} (disk : FileTree) (watch : Watch) (change : Change)
      (paths : List String) :
      Handles services w x (watch.followAll (services.reading disk.text) change paths x)
  | sweeps {x : Indexer} (disk : FileTree) {limit : Nat} {found : List String}
      {swept : Swept ReadError} (h : Sweep.Sweeps (services.reading disk.text) limit x found swept) :
      Handles services w x swept.indexer

theorem owned_handles (hr : services.Reliable) (h : Owned services x)
    (hs : Handles services w x y) : Owned services y := by
  have hr' (disk : FileTree) := hr.reading disk.text
  have h' (disk : FileTree) : Owned (services.reading disk.text) x := owned_reading.mpr h
  cases hs with
  | hears disk notice => exact owned_reading.mp (owned_takeNotice (hr' disk) (h' disk) disk notice)
  | answers disk r => exact owned_reading.mp (owned_consult (hr' disk) (h' disk) w r)
  | follows disk watch change paths =>
    exact owned_reading.mp ((h' disk).followAll (hr' disk) watch change paths)
  | sweeps disk hsweep => exact owned_reading.mp ((h' disk).sweeps (hr' disk) hsweep)

theorem exists_run_restoreFrom (disk : FileTree) (store : Option SnapshotStore) :
    ∃ ms, restoreFrom disk store .empty = Repository.empty.run ms := by
  unfold restoreFrom
  split
  · exact ⟨[], rfl⟩
  · split
    · next snapshot _ => exact ⟨[.restore snapshot.toSnapshot], rfl⟩
    · exact ⟨[], rfl⟩

theorem owned_takesUp (hr : services.Reliable)
    (hcert : ∀ f ∈ (restoreFrom disk w.store .empty).state.files, Sweep.Certified services f)
    (h : TakesUp disk w x) : Owned services x := by
  have hrestored : Owned services ⟨restoreFrom disk w.store .empty, .empty⟩ := by
    obtain ⟨ms, hms⟩ := exists_run_restoreFrom disk w.store
    rw [hms] at hcert ⊢
    have hsound := Sweep.sound_run (d := .empty) hr.digest_injective hr.parse_ok hcert
    exact ⟨Documents.faithful_edits services [], hsound.certified, fun _ ht => by cases ht⟩
  cases h with
  | rooted => exact hrestored.of_repository (Repository.state_beginIndexing _)
  | rootless => exact hrestored.of_repository (Repository.state_markComplete _)

theorem owned_run (hr : services.Reliable) (h : Owned services x)
    (hrun : Relation.ReflTransGen (Handles services w) x y) : Owned services y := by
  induction hrun with
  | refl => exact h
  | tail _ hstep ih => exact owned_handles hr ih hstep

end Sessions

section Hosts

variable {readers : Readers} {grammar : Grammar} {disk : FileTree} {w : Workspace} {x₀ : Indexer}
variable {h h' : ServerHost}

inductive Hosts (readers : Readers) (grammar : Grammar) : ServerHost → ServerHost → Prop where
  | files {h : ServerHost} (disk : FileTree) : Hosts readers grammar h { h with disk := disk }
  | request {h : ServerHost} (now : Timestamp) (method : String) (params : Json) :
      Hosts readers grammar h (request readers grammar now h method params).2
  | notify {h : ServerHost} (method : String) (params : Json) :
      Hosts readers grammar h (notify readers grammar h method params)

structure Serving (grammar : Grammar) (disk : FileTree) (w : Workspace) (x₀ : Indexer)
    (h : ServerHost) : Prop where
  claimed : h.server.claimed = true
  workspace : h.server.workspace = some w
  handled : Relation.ReflTransGen (Handles (.ofDisk grammar disk) w) x₀ h.server.indexer

theorem begin_of_claimed {s : Server} (hs : s.claimed = true) (c : Client) :
    (begin grammar disk s c).2 = s := by
  rw [begin, if_pos hs]

theorem Serving.serve (hs : Serving grammar disk w x₀ h) (now : Timestamp) (r : Request) :
    Serving grammar disk w x₀ (serve grammar now h w r).2 := by
  have hanswers : Handles (.ofDisk grammar disk) w h.server.indexer
      (consult (.ofDisk grammar h.disk) w h.server.indexer r).2 := by
    rw [← Services.ofDisk_reading grammar disk h.disk]
    exact .answers h.disk r
  have hhandled := hs.handled.tail hanswers
  cases r <;> exact ⟨hs.claimed, hs.workspace, hhandled⟩

theorem Serving.request (hs : Serving grammar disk w x₀ h) (now : Timestamp)
    (method : String) (params : Json) :
    Serving grammar disk w x₀ (request readers grammar now h method params).2 := by
  unfold Server.request
  split
  · split
    · exact hs
    · next c _ =>
      have hbegin : (begin grammar h.disk h.server c).2 = h.server := begin_of_claimed hs.claimed c
      simpa only [hbegin] using hs
  · rw [hs.workspace]
    dsimp only
    split
    · exact hs
    · split
      · exact hs
      · exact hs.serve now _

theorem Serving.notify (hs : Serving grammar disk w x₀ h) (method : String) (params : Json) :
    Serving grammar disk w x₀ (notify readers grammar h method params) := by
  unfold Server.notify
  split
  · exact hs
  · split
    · exact hs
    · next notice _ =>
      rw [← Services.ofDisk_reading grammar disk h.disk]
      exact ⟨hs.claimed, hs.workspace, hs.handled.tail (.hears h.disk notice)⟩

theorem Serving.step (hs : Serving grammar disk w x₀ h) (hstep : Hosts readers grammar h h') :
    Serving grammar disk w x₀ h' := by
  cases hstep with
  | files disk => exact ⟨hs.claimed, hs.workspace, hs.handled⟩
  | request now method params => exact hs.request now method params
  | notify method params => exact hs.notify method params

theorem beginIndexing_beginIndexing (r : Repository) :
    r.beginIndexing.beginIndexing = r.beginIndexing := by
  by_cases hs : r.status = .notStarted <;> simp [Repository.beginIndexing, hs]

theorem takesUp_sweepRoot (grammar : Grammar) (disk : FileTree) (config : Config)
    (root : Option String) (w : Workspace) :
    ∃ x₀, TakesUp disk w x₀ ∧ Relation.ReflTransGen (Handles (.ofDisk grammar disk) w) x₀
      (sweepRoot grammar disk config root ⟨restoreFrom disk w.store .empty, .empty⟩) := by
  unfold sweepRoot
  split
  · next uri _ =>
    let x : Indexer := ⟨(restoreFrom disk w.store .empty).beginIndexing, .empty⟩
    let search : Search := ⟨config.indexing.glob, config.indexing.exclude⟩
    have hsweep := Sweep.sweeps_sweep (Services.ofDisk grammar disk) 1 x (search.run disk uri)
    rw [← Services.ofDisk_reading grammar disk disk] at hsweep
    have hfirst : Handles (Services.ofDisk grammar disk) w x _ := .sweeps disk hsweep
    simp only [Services.ofDisk_reading, Indexer.sweep, x, beginIndexing_beginIndexing] at hfirst
    exact ⟨x, .rooted, .single hfirst⟩
  · exact ⟨_, .rootless, .refl⟩

theorem serving_begin (grammar : Grammar) (disk : FileTree) (defaults : Config) (c : Client) :
    ∃ w x₀, TakesUp disk w x₀ ∧
      Serving grammar disk w x₀ ⟨(begin grammar disk (start defaults) c).2, disk⟩ := by
  let s := (begin grammar disk (start defaults) c).2
  obtain ⟨config, w, hw, hindexer⟩ : ∃ config w, s.workspace = some w ∧
      s.indexer = sweepRoot grammar disk config (Client.rootPath? c)
        ⟨restoreFrom disk w.store .empty, .empty⟩ := ⟨_, _, rfl, rfl⟩
  obtain ⟨x₀, hstart, hrun⟩ := takesUp_sweepRoot grammar disk config (Client.rootPath? c) w
  exact ⟨w, x₀, hstart, rfl, hw, hindexer ▸ hrun⟩

theorem handles_of_hosts (grammar : Grammar) (disk : FileTree) (defaults : Config) (c : Client)
    (hrun : Relation.ReflTransGen (Hosts readers grammar)
      ⟨(begin grammar disk (start defaults) c).2, disk⟩ h) :
    ∃ w x₀, h.server.workspace = some w ∧ TakesUp disk w x₀ ∧
      Relation.ReflTransGen (Handles (.ofDisk grammar disk) w) x₀ h.server.indexer := by
  obtain ⟨w, x₀, hstart, hs⟩ := serving_begin grammar disk defaults c
  have hend : Serving grammar disk w x₀ h := by
    induction hrun with
    | refl => exact hs
    | tail _ hstep ih => exact ih.step hstep
  exact ⟨w, x₀, hend.workspace, hstart, hend.handled⟩

end Hosts

theorem open_documents_own_their_records (services : Services ReadError) (disk : FileTree)
    (w : Workspace) (hdigest : Function.Injective services.digest)
    (hparse : ∀ uri text, ∃ tree, services.parse uri text = .ok tree ∧ tree.uri = uri)
    (hcert : ∀ f ∈ (restoreFrom disk w.store .empty).state.files, Sweep.Certified services f) :
    (∀ readers grammar defaults c h, Relation.ReflTransGen (Hosts readers grammar)
        ⟨(begin grammar disk (start defaults) c).2, disk⟩ h →
      ∃ w' x₀, h.server.workspace = some w' ∧ TakesUp disk w' x₀ ∧
        Relation.ReflTransGen (Handles (.ofDisk grammar disk) w') x₀ h.server.indexer) ∧
      ∀ x₀ x, TakesUp disk w x₀ → Relation.ReflTransGen (Handles services w) x₀ x →
        ∀ uri stored, services.accepts uri = true → x.documents.get? uri = some stored →
          ∃ f tree, x.repository.state.file? uri = some f ∧
            x.repository.state.isVerified uri = true ∧
            services.parse uri stored.text = .ok tree ∧ f.body = (collect tree "" 0).body := by
  refine ⟨fun readers grammar defaults c h hrun => handles_of_hosts grammar disk defaults c hrun, ?_⟩
  intro x₀ x hstart hrun uri stored haccepts hopen
  have hr : services.Reliable := ⟨hdigest, hparse⟩
  have hx : Owned services x := owned_run hr (owned_takesUp hr hcert hstart) hrun
  have htext : x.documents.text? uri = some stored.text := by rw [Documents.text?, hopen]; rfl
  obtain ⟨f, tree, hview, hp, -, hbody⟩ := hx.fresh haccepts htext
  exact ⟨f, tree, congrArg Prod.fst hview, congrArg Prod.snd hview, hp, hbody⟩

def wordGrammar (text : String) : Parse :=
  let n := text.utf8ByteSize
  ⟨.node ⟨"program", true, false, 0, n, none⟩
    [.node ⟨"function_definition", true, false, 0, n, none⟩
      [.node ⟨"name", true, false, 0, n, some "name"⟩ []]], false⟩

theorem open_documents_own_their_records_unsaved :
    let uri := "file:///p/o.php"
    let store : SnapshotStore := ⟨"/p/.phpls/index.db"⟩
    let kept := collect ((wordGrammar "old").toTree uri "old") "old" 7
    let disk := (FileTree.empty.write "/p/o.php" (.bytes [110, 101, 119])).write store.path
      (.database (.ofSnapshot ⟨⟨snapshotVersion, [kept]⟩, ⟨0, 0⟩⟩))
    let begun : ServerHost :=
      ⟨(begin wordGrammar disk (start {}) ⟨Url.ofString? "file:///p", none⟩).2, disk⟩
    let opened := notify .standard wordGrammar begun "textDocument/didOpen" (.object [("textDocument",
      .object [("uri", .string uri), ("languageId", .string "php"), ("version", .int 2),
        ("text", .string "edited")])])
    let deleted := notify .standard wordGrammar { opened with disk := disk.unlink "/p/o.php" }
      "workspace/didChangeWatchedFiles" (.object [("changes",
        .array [.object [("uri", .string uri), ("type", .int 3)]])])
    let outdated := notify .standard wordGrammar deleted "textDocument/didChange" (.object [("textDocument",
      .object [("uri", .string uri), ("version", .int 1)]),
      ("contentChanges", .array [.object [("text", .string "older")]])])
    let asked := (request .standard wordGrammar ⟨0, 0⟩ outdated "textDocument/documentSymbol"
      (.object [("textDocument", .object [("uri", .string uri)])])).2
    asked.disk.isFile "/p/o.php" = false ∧
      ∃ f, asked.server.indexer.repository.state.file? uri = some f ∧
        asked.server.indexer.repository.state.isVerified uri = true ∧
        f.definitions.map Definition.name = ["edited"] := by
  intro uri store kept disk begun opened deleted outdated asked
  have hasked : (asked.disk.isFile "/p/o.php", asked.server.workspace.map Workspace.store,
      (asked.server.indexer.documents.get? uri).map Document.text) =
      (false, some (some store), some "edited") := by decide +kernel
  simp only [Prod.mk.injEq, Option.map_eq_some_iff] at hasked
  obtain ⟨hgone, ⟨w, hw, hstore⟩, stored, hopen, htext⟩ := hasked
  have hrun : Relation.ReflTransGen (Hosts .standard wordGrammar) begun asked :=
    Relation.ReflTransGen.refl |>.tail (.notify _ _) |>.tail (.files _) |>.tail (.notify _ _)
      |>.tail (.notify _ _) |>.tail (.request _ _ _)
  have hload : store.load disk = .ok ⟨⟨snapshotVersion, [kept]⟩, ⟨0, 0⟩⟩ := by decide +kernel
  have hfiles : (restoreFrom disk w.store .empty).state.files = [kept] := by
    rw [hstore]
    simp only [restoreFrom, hload]
    exact (Repository.files_run_empty [.restore ⟨snapshotVersion, [kept]⟩]).trans
      (by decide +kernel)
  have hcert : ∀ f ∈ (restoreFrom disk w.store .empty).state.files,
      Sweep.Certified (Services.ofDisk wordGrammar disk) f := by
    rw [hfiles, List.forall_mem_singleton]
    exact ⟨"old", _, rfl, rfl, rfl⟩
  have hr := Services.ofDisk_reliable wordGrammar disk
  obtain ⟨hhosts, howned⟩ := open_documents_own_their_records _ disk w hr.digest_injective
    hr.parse_ok hcert
  obtain ⟨w', x₀, hw', hstart, hhandled⟩ := hhosts .standard wordGrammar {} _ asked hrun
  obtain rfl : w = w' := Option.some.inj (hw.symm.trans hw')
  obtain ⟨f, tree, hfile, hverified, hparse, hbody⟩ :=
    howned x₀ _ hstart hhandled uri stored (by decide +kernel) hopen
  refine ⟨hgone, f, hfile, hverified, ?_⟩
  rw [htext] at hparse
  cases hparse
  rw [show f.definitions = f.body.definitions from rfl, hbody]
  decide +kernel

end Server

end SemanticIndex
