import SemanticIndex.Index.Lookup

namespace SemanticIndex

namespace IndexState

def fileRows (s : IndexState) (select : File → Bool) : List File :=
  (s.stored.map Slot.file).filter select

def namespaceRows (s : IndexState) (select : File → Bool) : List Namespace :=
  (s.fileRows select).flatMap File.namespaces

def symbolRows (s : IndexState) (select : File → Bool) : List Symbol :=
  (s.fileRows select).flatMap File.symbols

def definitionRows (s : IndexState) (select : File → Bool) : List Definition :=
  ((s.fileRows select).flatMap File.definitions).filter s.isLive

def referenceRows (s : IndexState) (select : File → Bool) : List Reference :=
  (s.fileRows select).flatMap File.references

def liveDefinitions (s : IndexState) : List Definition :=
  s.definitionRows fun _ => true

end IndexState

end SemanticIndex
