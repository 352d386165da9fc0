import SemanticIndex.Sync.Indexer

namespace SemanticIndex

structure SweepReport where
  discovered : Nat
  indexed : Nat
  unchanged : Nat
  skipped : Nat
  failed : Nat
  removed : Nat
  deriving DecidableEq, Repr

namespace Indexer

variable {ε : Type}

def indexAll (x : Indexer) (services : Services ε) :
    List String → List (String × Except ε Outcome) × Indexer
  | [] => ([], x)
  | uri :: rest =>
      let (outcome, x) := x.index services uri
      let (outcomes, x) := x.indexAll services rest
      ((uri, outcome) :: outcomes, x)

def stale (x : Indexer) (found : List String) : List String :=
  x.repository.state.uris.filter fun uri => !found.contains uri && !x.documents.isOpen uri

def removeAll (x : Indexer) (uris : List String) : Indexer :=
  uris.foldl remove x

def isIndexed : Except ε Outcome → Bool
  | .ok (.indexed _ _) => true
  | _ => false

def isUnchanged : Except ε Outcome → Bool
  | .ok .unchanged => true
  | _ => false

def isSkipped : Except ε Outcome → Bool
  | .ok .skipped => true
  | _ => false

def isFailed : Except ε Outcome → Bool
  | .error _ => true
  | _ => false

def reportOf (outcomes : List (String × Except ε Outcome)) (removed : Nat) : SweepReport where
  discovered := (outcomes.map Prod.fst).eraseDups.length
  indexed := outcomes.countP fun o => isIndexed o.2
  unchanged := outcomes.countP fun o => isUnchanged o.2
  skipped := outcomes.countP fun o => isSkipped o.2
  failed := outcomes.countP fun o => isFailed o.2
  removed := removed

structure Swept (ε : Type) where
  outcomes : List (String × Except ε Outcome)
  report : SweepReport
  indexer : Indexer

def sweep (x : Indexer) (services : Services ε) (found : List String) : Swept ε :=
  let x := { x with repository := x.repository.beginIndexing }
  let (outcomes, x) := x.indexAll services found
  let stale := x.stale found
  let x := x.removeAll stale
  { outcomes := outcomes
    report := reportOf outcomes stale.length
    indexer := { x with repository := x.repository.markComplete } }

end Indexer

end SemanticIndex
