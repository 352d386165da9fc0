import SemanticIndex.Command.Basic
import SemanticIndex.Command.Report
import SemanticIndex.Files.Discovery
import SemanticIndex.Sync.Disk

namespace SemanticIndex.Command

structure Setup where
  grammar : Grammar
  now : Timestamp
  nanos : Nat

def sizeOf (disk : FileTree) (path : String) : Nat :=
  match disk.content? path with
  | some (.bytes data) => data.length
  | some (.database t) =>
      let rows := ((t.files.map List.length).getD 0) + ((t.symbols.map List.length).getD 0)
        + ((t.definitions.map List.length).getD 0) + ((t.references.map List.length).getD 0)
      7 * 4096 + 100 * rows
  | none => 0

def startingIndex (disk : FileTree) (config : Config) (store : SnapshotStore) (rebuild : Bool) :
    Repository × Bool :=
  if rebuild || !config.cache.enabled then (.empty, false)
  else
    match store.load disk with
    | .ok snapshot =>
        let r := Repository.empty.restore snapshot.toSnapshot
        (r, !r.state.uris.isEmpty)
    | .error _ => (.empty, false)

def runIndex (setup : Setup) (disk : FileTree) (root : String) (rebuild : Bool) :
    Transcript × FileTree :=
  let config := Config.ofProject disk root
  let store : SnapshotStore := ⟨config.cachePath root⟩
  let (repository, restored) := startingIndex disk config store rebuild
  let search : Search := ⟨config.indexing.glob, config.indexing.exclude⟩
  let found := search.run disk ((uriOfPath? root).getD "")
  let swept := Indexer.sweep ⟨repository, .empty⟩ (Services.ofDisk setup.grammar disk) found
  let after := swept.indexer.repository
  let lines := indexHead root store.path restored
    ++ indexBody setup.nanos swept.report after.state.stats
  if config.cache.enabled then
    match store.save disk ⟨after.snapshot, setup.now⟩ with
    | (.ok _, disk) => (⟨lines, none⟩, disk)
    | (.error e, disk) => (⟨lines, some (.notSaved e store.path)⟩, disk)
  else (⟨lines ++ ["Caching disabled; index not saved"], none⟩, disk)

def runStats (disk : FileTree) (root : String) (verbose : Bool) : Transcript :=
  match savedIndex disk (Config.ofProject disk root) root with
  | .error f => ⟨[], some f⟩
  | .ok (store, snapshot) =>
      let state := Repository.stateOf snapshot.toSnapshot
      ⟨statsHead root state.stats snapshot.createdAt (sizeOf disk store.path)
        ++ (if verbose then statsDetails state else []), none⟩

def hits (s : IndexState) (kind target : String) : Except Failure (List Hit) :=
  match kind with
  | "definition" => .ok (definitionHits s target)
  | "references" => .ok (referenceHits s target)
  | kind => .error (.unknownQuery kind)

def runQuery (disk : FileTree) (root kind target : String) (asJson : Bool) : Transcript :=
  match savedIndex disk (Config.ofProject disk root) root with
  | .error f => ⟨[], some f⟩
  | .ok (_, snapshot) =>
      match hits (Repository.stateOf snapshot.toSnapshot) kind target with
      | .error f => ⟨[], some f⟩
      | .ok found => ⟨hitLines kind target asJson found, none⟩

def run (setup : Setup) (disk : FileTree) (project : String) (c : Command) :
    Transcript × FileTree :=
  let within (work : String → Transcript × FileTree) : Transcript × FileTree :=
    match disk.canonical? project with
    | some root => work root
    | none => (⟨[], some (.noProject project)⟩, disk)
  match c with
  | .index rebuild => within fun root => runIndex setup disk root rebuild
  | .stats verbose => within fun root => (runStats disk root verbose, disk)
  | .query kind target format =>
      if format != "json" && format != "text" then (⟨[], some (.unknownFormat format)⟩, disk)
      else within fun root => (runQuery disk root kind target (format == "json"), disk)

end SemanticIndex.Command
