import SemanticIndex.Tree.Lowering

namespace SemanticIndex.Concrete

structure Cursor where
  focus : Concrete
  later : List Concrete
  above : List (Concrete × List Concrete)

namespace Cursor

def ofRoot (c : Concrete) : Cursor := ⟨c, [], []⟩

def firstChild? (c : Cursor) : Option Cursor :=
  match c.focus.children with
  | [] => none
  | x :: xs => some ⟨x, xs, (c.focus, c.later) :: c.above⟩

def nextSibling? (c : Cursor) : Option Cursor :=
  match c.later with
  | [] => none
  | x :: xs => some ⟨x, xs, c.above⟩

def parent? (c : Cursor) : Option Cursor :=
  match c.above with
  | [] => none
  | (n, later) :: above => some ⟨n, later, above⟩

end Cursor

def record (t : Tree) (parent : Nat) : Concrete → Tree × Option Nat
  | .node s cs =>
      if s.missing then (t.markFlawed, none)
      else if s.named then
        (t.push (classify s.kind cs) (s.field.map role) s.start s.stop (some parent), some t.size)
      else (t, none)

structure Walker where
  cursor : Cursor
  tree : Tree
  parents : List Nat
  entering : Bool

namespace Walker

def step (w : Walker) : Option Walker :=
  match w.entering with
  | true =>
      let parent := w.parents.head?.getD Tree.root
      let (t, id) := record w.tree parent w.cursor.focus
      match w.cursor.firstChild? with
      | some c => some ⟨c, t, id.getD parent :: w.parents, true⟩
      | none => some { w with tree := t, entering := false }
  | false =>
      match w.cursor.nextSibling? with
      | some c => some { w with cursor := c, entering := true }
      | none => w.cursor.parent?.map fun c => { w with cursor := c, parents := w.parents.tail }

inductive Ends : Walker → Tree → Prop where
  | done {w : Walker} (h : w.step = none) : Ends w w.tree
  | goOn {w w' : Walker} {t : Tree} (h : w.step = some w') (hrest : Ends w' t) : Ends w t

theorem Ends.unique {w : Walker} {t t' : Tree} (h : Ends w t) (h' : Ends w t') : t = t' := by
  induction h with
  | done hstop =>
    cases h' with
    | done _ => rfl
    | goOn hstep _ => rw [hstop] at hstep; cases hstep
  | goOn hstep _ ih =>
    cases h' with
    | done hstop => rw [hstop] at hstep; cases hstep
    | goOn hstep' hrest =>
      obtain rfl := Option.some.inj (hstep.symm.trans hstep')
      exact ih hrest

end Walker

theorem addTo_eq (t : Tree) (parent : Nat) (s : Shape) (cs : List Concrete) :
    addTo t parent (.node s cs) =
      addAllTo (record t parent (.node s cs)).1 ((record t parent (.node s cs)).2.getD parent) cs := by
  cases hm : s.missing with
  | true => simp [addTo, record, hm]
  | false => cases hn : s.named <;> simp [addTo, record, hm, hn]

namespace Walker

variable {u : Tree}

-- Whatever the loop does below a node, it comes out of the node with the stack it went in with.
mutual

theorem ends_enter (c : Concrete) {later : List Concrete} {above : List (Concrete × List Concrete)}
    {t : Tree} {parent : Nat} {parents : List Nat}
    (h : Ends ⟨⟨c, later, above⟩, addTo t parent c, parent :: parents, false⟩ u) :
    Ends ⟨⟨c, later, above⟩, t, parent :: parents, true⟩ u := by
  cases c with
  | node s cs =>
    rw [addTo_eq] at h
    cases cs with
    | nil => exact .goOn rfl h
    | cons x xs => exact .goOn rfl (ends_enter x (ends_leave xs h))

theorem ends_leave (xs : List Concrete) {x n : Concrete} {later : List Concrete}
    {above : List (Concrete × List Concrete)} {t : Tree} {parent : Nat} {parents : List Nat}
    (h : Ends ⟨⟨n, later, above⟩, addAllTo t parent xs, parents, false⟩ u) :
    Ends ⟨⟨x, xs, (n, later) :: above⟩, t, parent :: parents, false⟩ u := by
  cases xs with
  | nil => exact .goOn rfl h
  | cons y ys => exact .goOn rfl (ends_enter y (ends_leave ys h))

end

end Walker

end SemanticIndex.Concrete

namespace SemanticIndex.Parse

open Concrete

def rootTree (p : Parse) (uri text : String) : Tree :=
  let s := p.root.shape
  let t := (Tree.empty uri text).push .program none s.start s.stop none
  if p.hasError then t.markFlawed else t

theorem toTree_eq (p : Parse) (uri text : String) :
    p.toTree uri text = addAllTo (p.rootTree uri text) Tree.root p.root.children :=
  rfl

def LoopEnds (p : Parse) (uri text : String) (t : Tree) : Prop :=
  match (Cursor.ofRoot p.root).firstChild? with
  | none => t = p.rootTree uri text
  | some c => Walker.Ends ⟨c, p.rootTree uri text, [Tree.root], true⟩ t

theorem loopEnds_iff {p : Parse} {uri text : String} {t : Tree} :
    p.LoopEnds uri text t ↔ t = p.toTree uri text := by
  obtain ⟨⟨s, cs⟩, hasError⟩ := p
  rw [toTree_eq]
  cases cs with
  | nil => rfl
  | cons x xs =>
    let p : Parse := ⟨.node s (x :: xs), hasError⟩
    have hends : Walker.Ends ⟨⟨x, xs, [(.node s (x :: xs), [])]⟩, p.rootTree uri text, [Tree.root],
        true⟩ (addAllTo (p.rootTree uri text) Tree.root (x :: xs)) :=
      Walker.ends_enter x (Walker.ends_leave xs (.done rfl))
    constructor
    · exact fun h => h.unique hends
    · rintro rfl
      exact hends

end SemanticIndex.Parse
