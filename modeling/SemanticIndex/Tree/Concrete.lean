namespace SemanticIndex

structure Shape where
  kind : String
  named : Bool
  missing : Bool
  start : Nat
  stop : Nat
  field : Option String
  deriving DecidableEq, Repr

inductive Concrete where
  | node (shape : Shape) (children : List Concrete)
  deriving Repr

namespace Concrete

def shape : Concrete → Shape
  | .node s _ => s

def children : Concrete → List Concrete
  | .node _ cs => cs

def above (item : Nat × Shape) (later : List (Nat × Concrete)) : List (Nat × Concrete) :=
  (item.1, .node item.2 ((later.takeWhile (item.1 < ·.1)).map Prod.snd)) ::
    later.dropWhile (item.1 < ·.1)

def ofPreorder (items : List (Nat × Shape)) : List Concrete :=
  (items.foldr above []).map Prod.snd

end Concrete

structure Parse where
  root : Concrete
  hasError : Bool
  deriving Repr

end SemanticIndex
