import SemanticIndex.Index.Query
import SemanticIndex.Json.Text
import SemanticIndex.Server.Listing
import SemanticIndex.Snapshot.Tables
import SemanticIndex.Sync.Sweep

namespace SemanticIndex.Command

def version : String := "0.1.0"

def hundredths (n : Nat) : String :=
  toString (n / 100) ++ "." ++ toString (n / 10 % 10) ++ toString (n % 10)

def spanText (nanos : Nat) : String :=
  if 1000000000 ≤ nanos then hundredths (nanos / 10000000) ++ "s"
  else if 1000000 ≤ nanos then hundredths (nanos / 10000) ++ "ms"
  else if 1000 ≤ nanos then hundredths (nanos / 10) ++ "µs"
  else hundredths (nanos * 100) ++ "ns"

def indexHead (root path : String) (restored : Bool) : List String :=
  ["phpls indexer v" ++ version, "Project: " ++ root, "Index: " ++ path]
    ++ if restored then ["Starting from the existing index"] else []

def indexBody (nanos : Nat) (report : SweepReport) (stats : IndexStats) : List String :=
  ["", "Indexing complete in " ++ spanText nanos,
    "  Files discovered: " ++ toString report.discovered,
    "  Parsed:           " ++ toString report.indexed,
    "  Unchanged:        " ++ toString report.unchanged,
    "  Failed:           " ++ toString report.failed,
    "  Removed:          " ++ toString report.removed,
    "  Definitions:      " ++ toString stats.definitions,
    "  References:       " ++ toString stats.references]
    ++ if stats.conflicts > 0 then ["  Duplicate declarations: " ++ toString stats.conflicts] else []

def megabytes (size : Nat) : String := hundredths ((size * 100 + 524288) / 1048576) ++ " MB"

def statsHead (root : String) (stats : IndexStats) (createdAt : Timestamp) (size : Nat) :
    List String :=
  ["phpls statistics v" ++ version, "Project: " ++ root, "", "Index Statistics:",
    "  Files: " ++ toString stats.files,
    "  Namespaces: " ++ toString stats.namespaces,
    "  Symbols: " ++ toString stats.symbols,
    "  Definitions: " ++ toString stats.definitions,
    "  References: " ++ toString stats.references,
    "  Duplicate declarations: " ++ toString stats.conflicts,
    "  Created: " ++ createdAt.render,
    "  Index size: " ++ megabytes size]

def kindCounts (s : IndexState) : List (String × Nat) :=
  let names := s.liveDefinitions.map fun d => d.kind.name
  (Server.sortByText id (SymbolKind.all.map SymbolKind.name)).filterMap fun name =>
    if names.contains name then some (name, names.count name) else none

def slowest (s : IndexState) : List (String × Nat) :=
  let times := (s.fileRows fun _ => true).map fun f => (f.uri, f.parseMillis.toNat)
  (times.mergeSort fun a b => decide (b.2 ≤ a.2)).take 5

def broken (s : IndexState) : List String := (s.fileRows File.hasErrors).map File.uri

def statsDetails (s : IndexState) : List String :=
  ["", "Definitions by kind:"]
    ++ (kindCounts s).map (fun (name, count) => "  " ++ name ++ ": " ++ toString count)
    ++ (if (broken s).isEmpty then []
        else ["", "Files with syntax errors:"] ++ (broken s).map ("  " ++ ·))
    ++ ["", "Slowest files:"]
    ++ (slowest s).map fun (uri, ms) => "  " ++ toString ms ++ " ms  " ++ uri

structure Hit where
  fqn : String
  uri : String
  start : Position
  deriving DecidableEq, Repr

def definitionHits (s : IndexState) (target : String) : List Hit :=
  ((s.definition? target).or (s.inherited? target)).toList.map fun d => ⟨d.fqn, d.uri, d.range.start⟩

def referenceHits (s : IndexState) (target : String) : List Hit :=
  let hits := (s.referencesTo target).map fun r => (⟨target, r.uri, r.range.start⟩ : Hit)
  hits.mergeSort fun a b => decide (a.uri < b.uri) || (a.uri == b.uri && decide (a.start ≤ b.start))

def Hit.toJson (h : Hit) : Json :=
  .object [("character", .nat h.start.character.toNat), ("fqn", .string h.fqn),
    ("line", .nat h.start.line.toNat), ("uri", .string h.uri)]

def Hit.text (h : Hit) : String :=
  h.uri ++ ":" ++ toString (h.start.line.toNat + 1) ++ ":" ++ toString (h.start.character.toNat + 1)
    ++ "  " ++ h.fqn

def hitLines (kind target : String) (asJson : Bool) (hits : List Hit) : List String :=
  if asJson then
    (Text.splitOn '\n' ((Json.list Hit.toJson hits).renderPretty 0).toList).map String.ofList
  else if hits.isEmpty then ["No " ++ kind ++ " found for '" ++ target ++ "'"]
  else hits.map Hit.text

end SemanticIndex.Command
