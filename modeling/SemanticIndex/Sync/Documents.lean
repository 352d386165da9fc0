import Std.Data.ExtTreeMap
import SemanticIndex.Tree.Basic

namespace SemanticIndex

open Std

structure Document where
  version : Int
  text : String
  tree : Option Tree

structure Documents where
  entries : ExtTreeMap String Document

namespace Documents

def empty : Documents := ⟨∅⟩

def get? (d : Documents) (uri : String) : Option Document := d.entries[uri]?

def isOpen (d : Documents) (uri : String) : Bool := (d.get? uri).isSome

def put (d : Documents) (uri : String) (version : Int) (text : String) : Documents :=
  ⟨d.entries.insert uri ⟨version, text, none⟩⟩

def accepts (d : Documents) (uri : String) (version : Int) : Bool :=
  match d.get? uri with
  | some stored => stored.version ≤ version
  | none => true

def update (d : Documents) (uri : String) (version : Int) (text : String) : Documents :=
  if d.accepts uri version then d.put uri version text else d

def close (d : Documents) (uri : String) : Documents := ⟨d.entries.erase uri⟩

def keepTree (d : Documents) (uri : String) (stored : Document) (tree : Tree) : Documents :=
  ⟨d.entries.insert uri { stored with tree := some tree }⟩

def tree {ε : Type} (d : Documents) (uri : String) (stored : Document)
    (parse : String → Except ε Tree) : Except ε Tree × Documents :=
  match stored.tree with
  | some tree => (.ok tree, d)
  | none =>
      match parse stored.text with
      | .ok tree => (.ok tree, d.keepTree uri stored tree)
      | .error e => (.error e, d)

def tree? {ε : Type} (d : Documents) (uri : String) (parse : String → Except ε Tree) :
    Option (Except ε Tree) × Documents :=
  match d.get? uri with
  | none => (none, d)
  | some stored =>
      let (result, d) := d.tree uri stored parse
      (some result, d)

theorem get?_put (d : Documents) (uri other : String) (version : Int) (text : String) :
    (d.put uri version text).get? other =
      if uri = other then some ⟨version, text, none⟩ else d.get? other := by
  simp [put, get?, ExtTreeMap.getElem?_insert]

theorem get?_close (d : Documents) (uri other : String) :
    (d.close uri).get? other = if uri = other then none else d.get? other := by
  simp [close, get?, ExtTreeMap.getElem?_erase]

end Documents

end SemanticIndex
