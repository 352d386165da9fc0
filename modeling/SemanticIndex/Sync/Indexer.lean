import SemanticIndex.Collect.Basic
import SemanticIndex.Index.Repository
import SemanticIndex.Sync.Documents

namespace SemanticIndex

structure Services (ε : Type) where
  accepts : String → Bool
  parse : (uri text : String) → Except ε Tree
  read : (uri : String) → Except ε String
  digest : String → String

inductive Outcome where
  | indexed (definitions references : Nat)
  | unchanged
  | skipped
  deriving DecidableEq, Repr

structure Indexer where
  repository : Repository
  documents : Documents

namespace Indexer

variable {ε : Type}

def empty : Indexer := ⟨.empty, .empty⟩

def source (x : Indexer) (services : Services ε) (uri : String) : Except ε String :=
  match x.documents.get? uri with
  | some stored => .ok stored.text
  | none => services.read uri

def tree (x : Indexer) (services : Services ε) (uri : String) : Except ε Tree × Indexer :=
  match x.documents.get? uri with
  | some stored =>
      let (result, documents) := x.documents.tree uri stored (services.parse uri)
      (result, { x with documents := documents })
  | none =>
      match services.read uri with
      | .ok text => (services.parse uri text, x)
      | .error e => (.error e, x)

def isCurrent (x : Indexer) (uri digest : String) : Bool :=
  match x.repository.state.file? uri with
  | some stored => stored.contentHash == digest
  | none => false

def publish (x : Indexer) (tree : Tree) (digest : String) : Outcome × Indexer :=
  let file := collect tree digest 0
  (.indexed file.definitions.length file.references.length,
   { x with repository := x.repository.upsert file })

def index (x : Indexer) (services : Services ε) (uri : String) : Except ε Outcome × Indexer :=
  if !services.accepts uri then (.ok .skipped, x)
  else
    match x.source services uri with
    | .error e => (.error e, x)
    | .ok text =>
        let digest := services.digest text
        if x.isCurrent uri digest then
          (.ok .unchanged, { x with repository := x.repository.markVerified uri })
        else
          match x.tree services uri with
          | (.error e, x) => (.error e, x)
          | (.ok tree, x) =>
              let (outcome, x) := x.publish tree digest
              (.ok outcome, x)

def remove (x : Indexer) (uri : String) : Indexer :=
  { x with repository := x.repository.remove uri }

def ensureFresh (x : Indexer) (services : Services ε) (uri : String) : Indexer :=
  if x.repository.state.isVerified uri then x
  else
    match x.index services uri with
    | (.ok _, x) => x
    | (.error _, x) => x.remove uri

end Indexer

end SemanticIndex
