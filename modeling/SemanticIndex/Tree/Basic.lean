import SemanticIndex.Source.Line
import SemanticIndex.Tree.Kind

namespace SemanticIndex

open Text

structure Node where
  kind : NodeKind
  field : Option Field
  start : Nat
  stop : Nat
  range : Range
  parent : Option Nat
  children : List Nat
  deriving DecidableEq, Repr

structure Linked (nodes : Array Node) : Prop where
  parent_lt : ∀ {i p : Nat} {n : Node}, nodes[i]? = some n → n.parent = some p → p < i
  mem_children : ∀ {i c : Nat} {n : Node}, nodes[i]? = some n →
    (c ∈ n.children ↔ ∃ m, nodes[c]? = some m ∧ m.parent = some i)
  increasing : ∀ {i : Nat} {n : Node}, nodes[i]? = some n → n.children.Pairwise (· < ·)

theorem Linked.empty : Linked #[] where
  parent_lt h := by simp at h
  mem_children h := by simp at h
  increasing h := by simp at h

def Placed (lines : LineIndex) (nodes : Array Node) : Prop :=
  ∀ {i : Nat} {n : Node}, nodes[i]? = some n →
    n.range = ⟨lines.position n.start, lines.position n.stop⟩

structure Tree where
  uri : String
  source : List Char
  lines : LineIndex
  nodes : Array Node
  flawed : Bool
  lines_eq : lines = LineIndex.ofText source
  linked : Linked nodes
  placed : Placed lines nodes

namespace Tree

def empty (uri : String) (text : String) : Tree where
  uri := uri
  source := text.toList
  lines := LineIndex.ofText text.toList
  nodes := #[]
  flawed := false
  lines_eq := rfl
  linked := Linked.empty
  placed h := by simp at h

def size (t : Tree) : Nat := t.nodes.size

def freshNode (t : Tree) (kind : NodeKind) (field : Option Field) (start stop : Nat)
    (parent : Option Nat) : Node where
  kind := kind
  field := field
  start := start
  stop := stop
  range := ⟨t.lines.position start, t.lines.position stop⟩
  parent := parent.filter (· < t.size)
  children := []

def adopt (nodes : Array Node) (parent : Option Nat) (child : Nat) : Array Node :=
  match parent with
  | none => nodes
  | some p => nodes.modify p fun n => { n with children := n.children ++ [child] }

@[simp] theorem size_adopt (nodes : Array Node) (parent : Option Nat) (child : Nat) :
    (adopt nodes parent child).size = nodes.size := by
  cases parent <;> simp [adopt]

theorem adopt_getElem? (nodes : Array Node) (parent : Option Nat) (child i : Nat) :
    (adopt nodes parent child)[i]? =
      (nodes[i]?).map fun n =>
        if parent = some i then { n with children := n.children ++ [child] } else n := by
  cases parent with
  | none => simp [adopt]
  | some p =>
      by_cases h : p = i
      · subst h; simp [adopt, Array.getElem?_modify]
      · simp [adopt, Array.getElem?_modify, h]

theorem getElem?_push_adopt {nodes : Array Node} {n m : Node} {i : Nat} :
    ((adopt nodes n.parent nodes.size).push n)[i]? = some m ↔
      i = nodes.size ∧ m = n ∨
        ∃ k, nodes[i]? = some k ∧
          m = if n.parent = some i then { k with children := k.children ++ [nodes.size] } else k := by
  rw [Array.getElem?_push, size_adopt]
  by_cases hi : i = nodes.size
  · subst hi
    simp [eq_comm]
  · simp only [hi, if_false, adopt_getElem?, Option.map_eq_some_iff, false_and, false_or]
    exact exists_congr fun k => and_congr_right fun _ => eq_comm

theorem linked_push {nodes : Array Node} (hl : Linked nodes) (n : Node)
    (hp : ∀ p, n.parent = some p → p < nodes.size) (hc : n.children = []) :
    Linked ((adopt nodes n.parent nodes.size).push n) := by
  have hlt {i : Nat} {k : Node} (hk : nodes[i]? = some k) : i < nodes.size :=
    (Array.getElem?_eq_some_iff.1 hk).1
  have hparent (i c : Nat) :
      (∃ m, ((adopt nodes n.parent nodes.size).push n)[c]? = some m ∧ m.parent = some i) ↔
        (∃ k, nodes[c]? = some k ∧ k.parent = some i) ∨ c = nodes.size ∧ n.parent = some i := by
    constructor
    · rintro ⟨m, hm, hpm⟩
      rcases getElem?_push_adopt.1 hm with ⟨rfl, rfl⟩ | ⟨k, hk, rfl⟩
      · exact .inr ⟨rfl, hpm⟩
      · exact .inl ⟨k, hk, by split at hpm <;> exact hpm⟩
    · rintro (⟨k, hk, hpk⟩ | ⟨rfl, hpn⟩)
      · exact ⟨_, getElem?_push_adopt.2 (.inr ⟨k, hk, rfl⟩), by split <;> exact hpk⟩
      · exact ⟨n, getElem?_push_adopt.2 (.inl ⟨rfl, rfl⟩), hpn⟩
  constructor
  · intro i p m hm hpm
    rcases getElem?_push_adopt.1 hm with ⟨rfl, rfl⟩ | ⟨k, hk, rfl⟩
    · exact hp p hpm
    · exact hl.parent_lt hk (by split at hpm <;> exact hpm)
  · intro i c m hm
    rw [hparent]
    rcases getElem?_push_adopt.1 hm with ⟨rfl, rfl⟩ | ⟨k, hk, rfl⟩
    · simp only [hc, List.not_mem_nil, false_iff, not_or, not_exists, not_and]
      refine ⟨fun k hk hpk => ?_, fun _ hpn => ?_⟩
      · have := hl.parent_lt hk hpk
        have := hlt hk
        omega
      · have := hp _ hpn
        omega
    · rw [← hl.mem_children hk]
      split
      · next hpn => simp [hpn]
      · next hpn => simp [hpn]
  · intro i m hm
    rcases getElem?_push_adopt.1 hm with ⟨rfl, rfl⟩ | ⟨k, hk, rfl⟩
    · simp [hc]
    · split
      · refine List.pairwise_append.2 ⟨hl.increasing hk, by simp, ?_⟩
        intro c hcm d hd
        obtain ⟨m, hm, -⟩ := (hl.mem_children hk).1 hcm
        rw [List.mem_singleton.1 hd]
        exact hlt hm
      · exact hl.increasing hk

theorem placed_push {lines : LineIndex} {nodes : Array Node} (h : Placed lines nodes) {n : Node}
    (hn : n.range = ⟨lines.position n.start, lines.position n.stop⟩) :
    Placed lines ((adopt nodes n.parent nodes.size).push n) := by
  intro i m hm
  rcases getElem?_push_adopt.1 hm with ⟨-, rfl⟩ | ⟨k, hk, rfl⟩
  · exact hn
  · have hr := h hk
    split <;> exact hr

def push (t : Tree) (kind : NodeKind) (field : Option Field) (start stop : Nat)
    (parent : Option Nat) : Tree :=
  let n := t.freshNode kind field start stop parent
  { t with
    nodes := (adopt t.nodes n.parent t.nodes.size).push n
    flawed := t.flawed || kind == .error
    linked := by
      apply linked_push t.linked n _ rfl
      intro p hp
      have : parent.filter (· < t.size) = some p := hp
      simp only [Option.filter_eq_some_iff, decide_eq_true_eq] at this
      exact this.2
    placed := placed_push t.placed rfl }

def ofNodes (uri text : String)
    (nodes : List (NodeKind × Option Field × Nat × Nat × Option Nat)) : Tree :=
  nodes.foldl (fun t (kind, field, start, stop, parent) => t.push kind field start stop parent)
    (empty uri text)

def markFlawed (t : Tree) : Tree :=
  { t with flawed := true }

@[simp] theorem size_push (t : Tree) (kind : NodeKind) (field : Option Field) (start stop : Nat)
    (parent : Option Nat) : (t.push kind field start stop parent).size = t.size + 1 := by
  simp [push, size]

def root : Nat := 0

def node? (t : Tree) (i : Nat) : Option Node := t.nodes[i]?

def kind (t : Tree) (i : Nat) : NodeKind :=
  ((t.node? i).map Node.kind).getD .other

def field (t : Tree) (i : Nat) : Option Field :=
  (t.node? i).bind Node.field

def start (t : Tree) (i : Nat) : Nat :=
  ((t.node? i).map Node.start).getD 0

def stop (t : Tree) (i : Nat) : Nat :=
  ((t.node? i).map Node.stop).getD 0

def range (t : Tree) (i : Nat) : Range :=
  ((t.node? i).map Node.range).getD default

def parent (t : Tree) (i : Nat) : Option Nat :=
  (t.node? i).bind Node.parent

def children (t : Tree) (i : Nat) : List Nat :=
  ((t.node? i).map Node.children).getD []

theorem parent_lt {t : Tree} {i p : Nat} (h : t.parent i = some p) : p < i := by
  simp only [parent, node?, Option.bind_eq_some_iff] at h
  obtain ⟨n, hn, hp⟩ := h
  exact t.linked.parent_lt hn hp

theorem parent_eq_some_iff {t : Tree} {i c : Nat} : t.parent c = some i ↔ c ∈ t.children i := by
  have hparent : t.parent c = some i ↔ ∃ m, t.nodes[c]? = some m ∧ m.parent = some i := by
    simp [parent, node?, Option.bind_eq_some_iff]
  rw [hparent, children, node?]
  cases hn : t.nodes[i]? with
  | none =>
      simp only [Option.map_none, Option.getD_none, List.not_mem_nil, iff_false, not_exists, not_and]
      intro m hm hp
      have := t.linked.parent_lt hm hp
      have := (Array.getElem?_eq_some_iff.1 hm).1
      have := Array.getElem?_eq_none_iff.1 hn
      omega
  | some n => exact (t.linked.mem_children hn).symm

theorem lt_of_mem_children {t : Tree} {i c : Nat} (h : c ∈ t.children i) : i < c ∧ c < t.size := by
  have hp := parent_eq_some_iff.2 h
  refine ⟨parent_lt hp, ?_⟩
  simp only [parent, node?, Option.bind_eq_some_iff] at hp
  obtain ⟨m, hm, -⟩ := hp
  exact (Array.getElem?_eq_some_iff.1 hm).1

theorem children_increasing (t : Tree) (i : Nat) : (t.children i).Pairwise (· < ·) := by
  rw [children, node?]
  cases hn : t.nodes[i]? with
  | none => exact .nil
  | some n => exact t.linked.increasing hn

def chars (t : Tree) (i : Nat) : List Char :=
  (slice? t.source (t.start i) (t.stop i)).getD []

def text (t : Tree) (i : Nat) : String :=
  String.ofList (t.chars i)

def childByField (t : Tree) (i : Nat) (f : Field) : Option Nat :=
  (t.children i).find? fun c => t.field c == some f

def childOfKind (t : Tree) (i : Nat) (k : NodeKind) : Option Nat :=
  (t.children i).find? fun c => t.kind c == k

def nameChild (t : Tree) (i : Nat) : Option Nat :=
  (t.children i).find? fun c => (t.kind c).isPlainName || t.kind c == .namespaceName

def ancestors (t : Tree) (i : Nat) : List Nat :=
  match _h : t.parent i with
  | none => []
  | some p => p :: ancestors t p
termination_by i
decreasing_by exact parent_lt _h

def previousSibling (t : Tree) (i : Nat) : Option Nat := do
  let p ← t.parent i
  let front := (t.children p).takeWhile (· != i)
  if i ∈ t.children p then front.getLast? else none

def toward (t : Tree) (offset i : Nat) : Option Nat :=
  ((t.children i).find? fun c => t.start c ≤ offset && offset < t.stop c).or
    ((t.children i).find? fun c =>
      t.stop c == offset && ((t.kind c).isName || !(t.children c).isEmpty))

theorem mem_children_of_toward {t : Tree} {offset i c : Nat} (h : t.toward offset i = some c) :
    c ∈ t.children i := by
  simp only [toward, Option.or_eq_some_iff] at h
  rcases h with h | ⟨_, h⟩ <;> exact List.mem_of_find?_eq_some h

def descend (t : Tree) (offset i : Nat) : Nat :=
  match _h : t.toward offset i with
  | none => i
  | some c => descend t offset c
termination_by t.size - i
decreasing_by
  have := lt_of_mem_children (mem_children_of_toward _h)
  omega

def nodeAt? (t : Tree) (p : Position) : Option Nat :=
  (t.lines.offset? p).map (t.descend · root)

end Tree

end SemanticIndex
