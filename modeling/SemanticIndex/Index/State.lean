import Std.Data.ExtTreeMap
import Std.Data.ExtTreeSet
import SemanticIndex.Record.Basic

namespace SemanticIndex

open Std

structure Slot where
  sequence : Nat
  file : File
  deriving DecidableEq, Repr

structure IndexState where
  slots : ExtTreeMap String Slot
  declarers : ExtTreeMap String (ExtTreeMap Nat String)
  referrers : ExtTreeMap String (ExtTreeSet String)
  unverified : ExtTreeSet String
  nextSequence : Nat

namespace IndexState

def empty : IndexState := ⟨∅, ∅, ∅, ∅, 0⟩

def stored (s : IndexState) : List Slot := s.slots.toList.map Prod.snd

def files (s : IndexState) : List File :=
  (s.stored.mergeSort fun a b => a.sequence ≤ b.sequence).map Slot.file

def uris (s : IndexState) : List String := s.slots.toList.map Prod.fst

def file? (s : IndexState) (uri : String) : Option File := (s.slots[uri]?).map Slot.file

def contains (s : IndexState) (uri : String) : Bool := (s.slots[uri]?).isSome

def owner? (s : IndexState) (fqn : String) : Option String :=
  (s.declarers[fqn]?).bind fun ds => (ds.toList.head?).map Prod.snd

def isLive (s : IndexState) (d : Definition) : Bool := s.owner? d.fqn == some d.uri

def definition? (s : IndexState) (fqn : String) : Option Definition := do
  let owner ← s.owner? fqn
  let file ← s.file? owner
  file.definitions.find? (·.fqn == fqn)

def bound (s : IndexState) (r : Reference) : String :=
  match r.fallback with
  | some fallback =>
      if (s.owner? r.fqn).isNone && (s.owner? fallback).isSome then fallback else r.fqn
  | none => r.fqn

def addDeclarer (sequence : Nat) (uri : String) (m : ExtTreeMap String (ExtTreeMap Nat String))
    (fqn : String) : ExtTreeMap String (ExtTreeMap Nat String) :=
  m.alter fqn fun ds => some ((ds.getD ∅).insert sequence uri)

def addReferrer (uri : String) (m : ExtTreeMap String (ExtTreeSet String)) (name : String) :
    ExtTreeMap String (ExtTreeSet String) :=
  m.alter name fun us => some ((us.getD ∅).insert uri)

def dropDeclarer (uri : String) (m : ExtTreeMap String (ExtTreeMap Nat String)) (fqn : String) :
    ExtTreeMap String (ExtTreeMap Nat String) :=
  m.alter fqn fun ds => (ds.map fun ds => ds.filter fun _ u => u != uri).filter (!·.isEmpty)

def dropReferrer (uri : String) (m : ExtTreeMap String (ExtTreeSet String)) (name : String) :
    ExtTreeMap String (ExtTreeSet String) :=
  m.alter name fun us => (us.map fun us => us.erase uri).filter (!·.isEmpty)

def declaredNames (f : File) : List String := f.definitions.map Definition.fqn

def referredNames (f : File) : List String := f.references.flatMap Reference.names

def detach (s : IndexState) (uri : String) (f : File) : IndexState :=
  { s with
    declarers := (declaredNames f).foldl (dropDeclarer uri) s.declarers
    referrers := (referredNames f).foldl (dropReferrer uri) s.referrers }

def attach (s : IndexState) (sequence : Nat) (f : File) : IndexState :=
  { s with
    declarers := (declaredNames f).foldl (addDeclarer sequence f.uri) s.declarers
    referrers := (referredNames f).foldl (addReferrer f.uri) s.referrers }

def sequenceFor (s : IndexState) (uri : String) : Nat :=
  match s.slots[uri]? with
  | some slot => slot.sequence
  | none => s.nextSequence

def replace (s : IndexState) (f : File) : IndexState :=
  let sequence := s.sequenceFor f.uri
  let cleared := match s.file? f.uri with
    | some old => s.detach f.uri old
    | none => s
  let attached := cleared.attach sequence f
  { attached with
    slots := s.slots.insert f.uri ⟨sequence, f⟩
    unverified := s.unverified.erase f.uri
    nextSequence := if (s.file? f.uri).isSome then s.nextSequence else s.nextSequence + 1 }

def replaceChanges (s : IndexState) (f : File) : List String :=
  let after := s.replace f
  let own := (declaredNames f).filter fun fqn => after.owner? fqn == some f.uri
  let gone := match s.file? f.uri with
    | some old => (declaredNames old).eraseDups.filter fun fqn => !(declaredNames f).contains fqn
    | none => []
  own ++ gone.filter fun fqn => (after.owner? fqn).isSome && after.owner? fqn != s.owner? fqn

def remove (s : IndexState) (uri : String) : IndexState :=
  match s.file? uri with
  | none => s
  | some old =>
      { s.detach uri old with
        slots := s.slots.erase uri
        unverified := s.unverified.erase uri }

def removeChanges (s : IndexState) (uri : String) : List String :=
  match s.file? uri with
  | none => []
  | some old =>
      let own := (declaredNames old).filter fun fqn => s.owner? fqn == some uri
      own.filter fun fqn => ((s.remove uri).owner? fqn).isSome

def isVerified (s : IndexState) (uri : String) : Bool := !s.unverified.contains uri

def markVerified (s : IndexState) (uri : String) : IndexState :=
  { s with unverified := s.unverified.erase uri }

def restoreFile (s : IndexState) (f : File) : IndexState :=
  let s := s.replace f
  { s with unverified := s.unverified.insert f.uri }

def ofFiles (files : List File) : IndexState :=
  files.foldl restoreFile empty

end IndexState

end SemanticIndex
