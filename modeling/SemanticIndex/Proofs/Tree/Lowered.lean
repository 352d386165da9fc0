import Mathlib.Data.List.Nodup
import SemanticIndex.Proofs.Tree.Traversal

namespace SemanticIndex

namespace Tree

variable {t : Tree} {kind : NodeKind} {field : Option Field} {start stop i : Nat}
  {parent : Option Nat}

structure Item where
  kind : NodeKind
  field : Option Field
  start : Nat
  stop : Nat
  parent : Option Nat
  deriving DecidableEq, Repr

def item? (t : Tree) (i : Nat) : Option Item :=
  (t.node? i).map fun n => ⟨n.kind, n.field, n.start, n.stop, n.parent⟩

theorem item?_push_size :
    (t.push kind field start stop parent).item? t.size =
      some ⟨kind, field, start, stop, parent.filter (· < t.size)⟩ := by
  let n := t.freshNode kind field start stop parent
  have hn : (t.push kind field start stop parent).node? t.size = some n :=
    getElem?_push_adopt.mpr (.inl ⟨rfl, rfl⟩)
  rw [item?, hn]
  rfl

theorem item?_push_of_lt (hi : i < t.size) :
    (t.push kind field start stop parent).item? i = t.item? i := by
  obtain ⟨k, hk⟩ : ∃ k, t.node? i = some k := ⟨_, Array.getElem?_eq_getElem hi⟩
  let n := t.freshNode kind field start stop parent
  have hn : (t.push kind field start stop parent).node? i =
      some (if n.parent = some i then { k with children := k.children ++ [t.nodes.size] } else k) :=
    getElem?_push_adopt.mpr (.inr ⟨k, hk, rfl⟩)
  rw [item?, item?, hn, hk, Option.map_some, Option.map_some]
  split <;> rfl

end Tree

namespace Concrete

def at? : Concrete → List Nat → Option Concrete
  | c, [] => some c
  | c, i :: path => (c.children[i]?).bind fun d => d.at? path

def Keeps (root : Concrete) (path : List Nat) : Prop :=
  path = [] ∨ ∃ c, root.at? path = some c ∧ c.shape.named = true ∧ c.shape.missing = false

structure Nearest (root : Concrete) (above path : List Nat) : Prop where
  le : above <+: path
  ne : above ≠ path
  kept : root.Keeps above
  least : ∀ other, other <+: path → other ≠ path → root.Keeps other → other <+: above

mutual

def keptPaths (path : List Nat) : Concrete → List (List Nat)
  | .node s cs =>
      if s.named && !s.missing then path :: keptPathsFrom path 0 cs else keptPathsFrom path 0 cs

def keptPathsFrom (path : List Nat) (i : Nat) : List Concrete → List (List Nat)
  | [] => []
  | c :: cs => keptPaths (path ++ [i]) c ++ keptPathsFrom path (i + 1) cs

end

theorem at?_append (c : Concrete) (path more : List Nat) :
    c.at? (path ++ more) = (c.at? path).bind fun d => d.at? more := by
  induction path generalizing c with
  | nil => rfl
  | cons i path ih =>
    rw [List.cons_append, at?, at?, Option.bind_assoc]
    exact congrArg _ (funext ih)

mutual

theorem mem_keptPaths {path q : List Nat} (c : Concrete) :
    q ∈ keptPaths path c ↔ ∃ r d, q = path ++ r ∧ c.at? r = some d ∧
      d.shape.named = true ∧ d.shape.missing = false := by
  cases c with
  | node s cs =>
    have hfrom : q ∈ keptPathsFrom path 0 cs ↔ ∃ k r d, q = path ++ k :: r ∧
        (node s cs).at? (k :: r) = some d ∧ d.shape.named = true ∧ d.shape.missing = false := by
      simp only [mem_keptPathsFrom cs, Nat.zero_add, at?, children, Option.bind_eq_some_iff]
      constructor
      · rintro ⟨k, c, r, d, hc, hq, hd, hkept⟩
        exact ⟨k, r, d, hq, ⟨c, hc, hd⟩, hkept⟩
      · rintro ⟨k, r, d, hq, ⟨c, hc, hd⟩, hkept⟩
        exact ⟨k, c, r, d, hc, hq, hd, hkept⟩
    rw [keptPaths]
    split
    · next hkept =>
      rw [List.mem_cons, hfrom]
      constructor
      · rintro (rfl | ⟨k, r, d, h⟩)
        · exact ⟨[], .node s cs, by simp, rfl, by simpa [shape] using hkept⟩
        · exact ⟨k :: r, d, h⟩
      · rintro ⟨r, d, hq, hd, h⟩
        cases r with
        | nil => exact .inl (by simpa using hq)
        | cons k r => exact .inr ⟨k, r, d, hq, hd, h⟩
    · next hkept =>
      rw [hfrom]
      constructor
      · rintro ⟨k, r, d, h⟩
        exact ⟨k :: r, d, h⟩
      · rintro ⟨r, d, hq, hd, h⟩
        cases r with
        | nil =>
          cases hd
          exact absurd h (by simpa [shape] using hkept)
        | cons k r => exact ⟨k, r, d, hq, hd, h⟩

theorem mem_keptPathsFrom {path q : List Nat} {i : Nat} (cs : List Concrete) :
    q ∈ keptPathsFrom path i cs ↔ ∃ k c r d, cs[k]? = some c ∧ q = path ++ (i + k) :: r ∧
      c.at? r = some d ∧ d.shape.named = true ∧ d.shape.missing = false := by
  cases cs with
  | nil => simp [keptPathsFrom]
  | cons c cs =>
    rw [keptPathsFrom, List.mem_append, mem_keptPaths c, mem_keptPathsFrom cs]
    constructor
    · rintro (⟨r, d, rfl, h⟩ | ⟨k, c', r, d, hc, rfl, h⟩)
      · exact ⟨0, c, r, d, rfl, by simp, h⟩
      · exact ⟨k + 1, c', r, d, hc, by rw [Nat.add_assoc, Nat.add_comm 1], h⟩
    · rintro ⟨k, c', r, d, hc, rfl, h⟩
      cases k with
      | zero =>
        cases hc
        exact .inl ⟨r, d, by simp, h⟩
      | succ k => exact .inr ⟨k, c', r, d, hc, by rw [Nat.add_assoc, Nat.add_comm 1], h⟩

end

mutual

theorem pairwise_keptPaths (path : List Nat) (c : Concrete) :
    (keptPaths path c).Pairwise (· < ·) := by
  cases c with
  | node s cs =>
    rw [keptPaths]
    split
    · refine List.pairwise_cons.mpr ⟨fun q hq => ?_, pairwise_keptPathsFrom path 0 cs⟩
      obtain ⟨k, _, r, _, -, rfl, -⟩ := (mem_keptPathsFrom cs).mp hq
      have hlt : path ++ [] < path ++ (0 + k) :: r := List.append_left_lt (List.nil_lt_cons _ _)
      rwa [List.append_nil] at hlt
    · exact pairwise_keptPathsFrom path 0 cs

theorem pairwise_keptPathsFrom (path : List Nat) (i : Nat) (cs : List Concrete) :
    (keptPathsFrom path i cs).Pairwise (· < ·) := by
  cases cs with
  | nil => exact .nil
  | cons c cs =>
    rw [keptPathsFrom]
    refine List.pairwise_append.mpr
      ⟨pairwise_keptPaths _ c, pairwise_keptPathsFrom path (i + 1) cs, fun a ha b hb => ?_⟩
    obtain ⟨r, _, rfl, -⟩ := (mem_keptPaths c).mp ha
    obtain ⟨k, _, r', _, -, rfl, -⟩ := (mem_keptPathsFrom cs).mp hb
    rw [List.append_assoc, List.singleton_append]
    exact List.append_left_lt (List.cons_lt_cons_iff.mpr (.inl (by omega)))

end

namespace Nearest

variable {root : Concrete} {above path : List Nat}

theorem child_of_kept (h : root.Keeps path) (k : Nat) : root.Nearest path (path ++ [k]) where
  le := List.prefix_append _ _
  ne := by simp
  kept := h
  least other hle hne _ := by
    rcases List.prefix_concat_iff.mp hle with rfl | hle
    · exact absurd rfl hne
    · exact hle

theorem child_of_not_kept (h : root.Nearest above path) (hnot : ¬root.Keeps path) (k : Nat) :
    root.Nearest above (path ++ [k]) where
  le := h.le.trans (List.prefix_append _ _)
  ne := by
    rintro rfl
    have hlen := h.le.length_le
    rw [List.length_append, List.length_singleton] at hlen
    omega
  kept := h.kept
  least other hle hne hkept := by
    rcases List.prefix_concat_iff.mp hle with rfl | hle
    · exact absurd rfl hne
    · refine h.least other hle ?_ hkept
      rintro rfl
      exact hnot hkept

end Nearest

structure Becomes (root : Concrete) (paths : List (List Nat)) (path : List Nat) (n : Tree.Item) :
    Prop where
  origin : ∃ s cs, root.at? path = some (.node s cs) ∧ n.kind = classify s.kind cs ∧
    n.field = s.field.map role ∧ n.start = s.start ∧ n.stop = s.stop
  parent : ∃ j above, n.parent = some j ∧ paths[j]? = some above ∧ root.Nearest above path

structure Lowered (root : Concrete) (t : Tree) (paths : List (List Nat)) : Prop where
  size_eq : t.size = paths.length + 1
  top : t.item? Tree.root = some ⟨.program, none, root.shape.start, root.shape.stop, none⟩
  below : ∀ i path, paths[i]? = some path → ∃ n, t.item? (i + 1) = some n ∧
    root.Becomes ([] :: paths) path n

theorem Becomes.mono {root : Concrete} {paths : List (List Nat)} {path : List Nat} {n : Tree.Item}
    (h : root.Becomes paths path n) (more : List (List Nat)) :
    root.Becomes (paths ++ more) path n where
  origin := h.origin
  parent := by
    obtain ⟨j, above, hj, habove, hnear⟩ := h.parent
    have hlt := (List.getElem?_eq_some_iff.mp habove).1
    exact ⟨j, above, hj, by rw [List.getElem?_append_left hlt, habove], hnear⟩

theorem at?_child {root : Concrete} {path : List Nat} {s : Shape} {cs : List Concrete} {k : Nat}
    {c : Concrete} (hat : root.at? path = some (.node s cs)) (hc : cs[k]? = some c) :
    root.at? (path ++ [k]) = some c := by
  simp [at?_append, hat, at?, children, hc]

theorem not_keeps_of_missing {root : Concrete} {above path : List Nat} {c : Concrete}
    (hat : root.at? path = some c) (hnear : root.Nearest above path)
    (hc : ¬(c.shape.named = true ∧ c.shape.missing = false)) : ¬root.Keeps path := by
  rintro (rfl | ⟨d, hd, hkept⟩)
  · exact hnear.ne (List.prefix_nil.mp hnear.le)
  · rw [hat, Option.some.injEq] at hd
    exact hc (hd ▸ hkept)

namespace Lowered

variable {root : Concrete}

theorem push {t : Tree} {paths : List (List Nat)} {above path : List Nat} {parent : Nat} {s : Shape}
    {cs : List Concrete} (h : root.Lowered t paths) (hat : root.at? path = some (.node s cs))
    (hparent : ([] :: paths)[parent]? = some above) (hnear : root.Nearest above path) :
    root.Lowered (t.push (classify s.kind cs) (s.field.map role) s.start s.stop (some parent))
      (paths ++ [path]) := by
  have hlt : parent < t.size := by
    rw [h.size_eq]
    exact (List.getElem?_eq_some_iff.mp hparent).1
  have hbecomes : root.Becomes (([] :: paths) ++ [path]) path
      ⟨classify s.kind cs, s.field.map role, s.start, s.stop, some parent⟩ :=
    Becomes.mono ⟨⟨s, cs, hat, rfl, rfl, rfl, rfl⟩, ⟨parent, above, rfl, hparent, hnear⟩⟩ [path]
  constructor
  · rw [Tree.size_push, h.size_eq, List.length_append, List.length_singleton]
  · rw [Tree.item?_push_of_lt (by rw [h.size_eq]; exact Nat.succ_pos _), h.top]
  · intro i q hi
    by_cases hold : i < paths.length
    · rw [List.getElem?_append_left hold] at hi
      obtain ⟨n, hn, hq⟩ := h.below i q hi
      exact ⟨n, by rw [Tree.item?_push_of_lt (by rw [h.size_eq]; omega), hn], hq.mono [path]⟩
    · obtain ⟨hlast, rfl⟩ : i = paths.length ∧ path = q := by
        rw [List.getElem?_append_right (Nat.not_lt.mp hold), List.getElem?_singleton] at hi
        split at hi
        · exact ⟨by omega, Option.some.inj hi⟩
        · cases hi
      refine ⟨_, ?_, hbecomes⟩
      rw [hlast, ← h.size_eq, Tree.item?_push_size]
      simp [hlt]

theorem markFlawed {t : Tree} {paths : List (List Nat)} (h : root.Lowered t paths) :
    root.Lowered t.markFlawed paths :=
  ⟨h.size_eq, h.top, h.below⟩

mutual

theorem addTo (c : Concrete) {t : Tree} {paths : List (List Nat)} {above path : List Nat}
    {parent : Nat} (h : root.Lowered t paths) (hat : root.at? path = some c)
    (hparent : ([] :: paths)[parent]? = some above) (hnear : root.Nearest above path) :
    root.Lowered (Concrete.addTo t parent c) (paths ++ keptPaths path c) := by
  cases c with
  | node s cs =>
    have hchild (k : Nat) (c : Concrete) (hc : cs[k]? = some c) :
        root.at? (path ++ [0 + k]) = some c := by
      rw [Nat.zero_add]
      exact at?_child hat hc
    rw [Concrete.addTo, keptPaths]
    split
    · next hm =>
      have hnot := not_keeps_of_missing hat hnear (by simp [shape, hm])
      rw [if_neg (by simp [hm])]
      exact addAllTo cs h.markFlawed hchild hparent (hnear.child_of_not_kept hnot)
    · next hm =>
      split
      · next hn =>
        rw [if_pos (by simp [hm, hn]), ← List.singleton_append, ← List.append_assoc]
        refine addAllTo cs (h.push hat hparent hnear) hchild ?_ (Nearest.child_of_kept ?_)
        · rw [h.size_eq, List.getElem?_cons_succ, List.getElem?_concat_length]
        · exact .inr ⟨_, hat, hn, Bool.eq_false_iff.mpr hm⟩
      · next hn =>
        have hnot := not_keeps_of_missing hat hnear (by simp [shape, hn])
        rw [if_neg (by simp [hn])]
        exact addAllTo cs h hchild hparent (hnear.child_of_not_kept hnot)

theorem addAllTo (cs : List Concrete) {t : Tree} {paths : List (List Nat)} {above path : List Nat}
    {parent i : Nat} (h : root.Lowered t paths)
    (hat : ∀ k c, cs[k]? = some c → root.at? (path ++ [i + k]) = some c)
    (hparent : ([] :: paths)[parent]? = some above) (hnear : ∀ k, root.Nearest above (path ++ [k])) :
    root.Lowered (Concrete.addAllTo t parent cs) (paths ++ keptPathsFrom path i cs) := by
  cases cs with
  | nil => simpa [Concrete.addAllTo, keptPathsFrom] using h
  | cons c cs =>
    rw [Concrete.addAllTo, keptPathsFrom, ← List.append_assoc]
    refine addAllTo cs (addTo c h (hat 0 c rfl) hparent (hnear i)) ?_ ?_ hnear
    · intro k d hd
      rw [Nat.add_assoc, Nat.add_comm 1]
      exact hat (k + 1) d hd
    · have hlt := (List.getElem?_eq_some_iff.mp hparent).1
      rw [← List.cons_append, List.getElem?_append_left hlt, hparent]

end

end Lowered

def Somewhere (P : Concrete → Prop) (c : Concrete) : Prop := ∃ path d, c.at? path = some d ∧ P d

theorem somewhere_below {P : Concrete → Prop} {s : Shape} {cs : List Concrete} :
    (∃ path d, path ≠ [] ∧ (node s cs).at? path = some d ∧ P d) ↔ ∃ c ∈ cs, c.Somewhere P := by
  constructor
  · rintro ⟨path, d, hne, hd, hP⟩
    cases path with
    | nil => exact absurd rfl hne
    | cons k path =>
      obtain ⟨c, hc, hd⟩ := Option.bind_eq_some_iff.mp hd
      exact ⟨c, List.mem_of_getElem? hc, path, d, hd, hP⟩
  · rintro ⟨c, hc, path, d, hd, hP⟩
    obtain ⟨k, hk⟩ := List.mem_iff_getElem?.mp hc
    refine ⟨k :: path, d, List.cons_ne_nil _ _, ?_, hP⟩
    rw [at?, children, hk, Option.bind_some, hd]

theorem somewhere_node {P : Concrete → Prop} {s : Shape} {cs : List Concrete} :
    (node s cs).Somewhere P ↔ P (node s cs) ∨ ∃ c ∈ cs, c.Somewhere P := by
  rw [← somewhere_below]
  constructor
  · rintro ⟨path, d, hd, hP⟩
    cases path with
    | nil =>
      cases hd
      exact .inl hP
    | cons k path => exact .inr ⟨k :: path, d, List.cons_ne_nil _ _, hd, hP⟩
  · rintro (hP | ⟨path, d, -, hd, hP⟩)
    · exact ⟨[], _, rfl, hP⟩
    · exact ⟨path, d, hd, hP⟩

def IsFlaw (c : Concrete) : Prop :=
  c.shape.missing = true ∨ c.shape.named = true ∧ c.shape.kind = "ERROR"

theorem classify_eq_error {kind : String} {cs : List Concrete} :
    classify kind cs = .error ↔ kind = "ERROR" := by
  constructor
  · intro h
    unfold classify at h
    split at h <;> first | rfl | cases h | skip
    split at h
    · cases h
    · split at h <;> cases h
  · rintro rfl
    rfl

mutual

theorem flawed_addTo (t : Tree) (parent : Nat) (c : Concrete) :
    (addTo t parent c).flawed = true ↔ t.flawed = true ∨ c.Somewhere IsFlaw := by
  cases c with
  | node s cs =>
    rw [somewhere_node, addTo]
    split
    · next hm =>
      rw [flawed_addAllTo]
      simp [IsFlaw, shape, hm, Tree.markFlawed]
    · next hm =>
      split
      · next hn =>
        rw [flawed_addAllTo, ← or_assoc]
        refine or_congr_left ?_
        simp [IsFlaw, shape, hm, hn, Tree.push, classify_eq_error]
      · next hn =>
        rw [flawed_addAllTo]
        simp [IsFlaw, shape, hm, hn]

theorem flawed_addAllTo (t : Tree) (parent : Nat) (cs : List Concrete) :
    (addAllTo t parent cs).flawed = true ↔ t.flawed = true ∨ ∃ c ∈ cs, c.Somewhere IsFlaw := by
  cases cs with
  | nil => simp [addAllTo]
  | cons c cs =>
    rw [addAllTo, flawed_addAllTo, flawed_addTo, or_assoc]
    simp

end

end Concrete

namespace Parse

open Concrete

variable {p : Parse} {uri text : String}

theorem lowered_rootTree (p : Parse) (uri text : String) :
    p.root.Lowered (p.rootTree uri text) [] := by
  have hblank : p.root.Lowered ((Tree.empty uri text).push .program none p.root.shape.start
      p.root.shape.stop none) [] :=
    ⟨Tree.size_push .., Tree.item?_push_size, nofun⟩
  unfold rootTree
  dsimp only
  split
  · exact hblank.markFlawed
  · exact hblank

theorem lowered_toTree (p : Parse) (uri text : String) :
    p.root.Lowered (p.toTree uri text) (keptPathsFrom [] 0 p.root.children) := by
  have hroot : p.root.Keeps [] := .inl rfl
  rw [toTree_eq]
  refine Lowered.addAllTo _ (lowered_rootTree p uri text) (fun k c hc => ?_) rfl
    (Nearest.child_of_kept hroot)
  obtain ⟨⟨s, cs⟩, hasError⟩ := p
  rw [Nat.zero_add]
  exact at?_child rfl hc

theorem mem_paths {path : List Nat} :
    path ∈ keptPathsFrom [] 0 p.root.children ↔ path ≠ [] ∧ p.root.Keeps path := by
  obtain ⟨⟨s, cs⟩, hasError⟩ := p
  rw [mem_keptPathsFrom]
  constructor
  · rintro ⟨k, c, r, d, hc, rfl, hd, hkept⟩
    refine ⟨List.cons_ne_nil _ _, .inr ⟨d, ?_, hkept⟩⟩
    rw [List.nil_append, Nat.zero_add, at?, hc, Option.bind_some, hd]
  · rintro ⟨hne, rfl | ⟨d, hd, hkept⟩⟩
    · exact absurd rfl hne
    · cases path with
      | nil => exact absurd rfl hne
      | cons k r =>
        obtain ⟨c, hc, hd⟩ := Option.bind_eq_some_iff.mp hd
        exact ⟨k, c, r, d, hc, by rw [List.nil_append, Nat.zero_add], hd, hkept⟩

theorem flawed_toTree : (p.toTree uri text).flawed = true ↔ p.hasError = true ∨
    ∃ path c, path ≠ [] ∧ p.root.at? path = some c ∧ c.IsFlaw := by
  obtain ⟨⟨s, cs⟩, hasError⟩ := p
  rw [toTree_eq, flawed_addAllTo, somewhere_below]
  refine or_congr_left ?_
  cases hasError with
  | true => exact iff_of_true rfl rfl
  | false => exact iff_of_false (by simp [rootTree, Tree.push, Tree.empty]) nofun

theorem exists_flaw_iff : (∃ path c, path ≠ [] ∧ p.root.at? path = some c ∧ c.IsFlaw) ↔
    (∃ path c, path ≠ [] ∧ p.root.at? path = some c ∧ c.shape.missing = true) ∨
      ∃ path ∈ keptPathsFrom [] 0 p.root.children, ∃ c, p.root.at? path = some c ∧
        c.shape.kind = "ERROR" := by
  constructor
  · rintro ⟨path, c, hne, hc, hm | ⟨hn, hkind⟩⟩
    · exact .inl ⟨path, c, hne, hc, hm⟩
    · cases hm : c.shape.missing with
      | true => exact .inl ⟨path, c, hne, hc, hm⟩
      | false => exact .inr ⟨path, mem_paths.mpr ⟨hne, .inr ⟨c, hc, hn, hm⟩⟩, c, hc, hkind⟩
  · rintro (⟨path, c, hne, hc, hm⟩ | ⟨path, hpath, c, hc, hkind⟩)
    · exact ⟨path, c, hne, hc, .inl hm⟩
    · obtain ⟨hne, rfl | ⟨d, hd, hn, -⟩⟩ := mem_paths.mp hpath
      · exact absurd rfl hne
      · rw [hc, Option.some.injEq] at hd
        exact ⟨path, c, hne, hc, .inr ⟨hd ▸ hn, hkind⟩⟩

theorem lowering_keeps_named_nodes_in_preorder (p : Parse) (uri text : String) :
    let t := p.toTree uri text
    (∀ u, p.LoopEnds uri text u ↔ u = t) ∧
      (∃ paths : List (List Nat), paths.Pairwise (· < ·) ∧
        (∀ path, path ∈ paths ↔ path ≠ [] ∧ p.root.Keeps path) ∧ p.root.Lowered t paths ∧
        (t.flawed = true ↔ p.hasError = true ∨
          (∃ path c, path ≠ [] ∧ p.root.at? path = some c ∧ c.shape.missing = true) ∨
          ∃ path ∈ paths, ∃ c, p.root.at? path = some c ∧ c.shape.kind = "ERROR")) ∧
      (∀ i c, t.parent c = some i → i < c ∧ (t.children i).count c = 1) ∧
      (∀ i c, c ∈ t.children i → t.parent c = some i) ∧
      ∀ i, (t.children i).Pairwise (· < ·) := by
  intro t
  refine ⟨fun u => loopEnds_iff, ⟨keptPathsFrom [] 0 p.root.children, pairwise_keptPathsFrom _ _ _,
    fun path => mem_paths, lowered_toTree p uri text, ?_⟩, fun i c hc => ?_,
    fun i c hc => Tree.parent_eq_some_iff.mpr hc, t.children_increasing⟩
  · rw [flawed_toTree, exists_flaw_iff]
  · have hmem := Tree.parent_eq_some_iff.mp hc
    have hnodup : (t.children i).Nodup := (t.children_increasing i).imp Nat.ne_of_lt
    exact ⟨Tree.parent_lt hc, List.count_eq_one_of_mem hnodup hmem⟩

def unclosedCall : Parse :=
  ⟨.node ⟨"program", true, false, 0, 9, none⟩
    [.node ⟨"php_tag", true, false, 0, 5, none⟩ [],
     .node ⟨"expression_statement", true, false, 6, 9, none⟩
      [.node ⟨"function_call_expression", true, false, 6, 9, none⟩
        [.node ⟨"name", true, false, 6, 7, some "function"⟩ [],
         .node ⟨"arguments", true, false, 7, 9, some "arguments"⟩
          [.node ⟨"(", false, false, 7, 8, none⟩ [],
           .node ⟨"argument", true, false, 8, 9, none⟩
            [.node ⟨"integer", true, false, 8, 9, none⟩ []],
           .node ⟨")", false, true, 9, 9, none⟩ []]],
       .node ⟨";", false, true, 9, 9, none⟩ []]], false⟩

theorem lowering_keeps_named_nodes_in_preorder_unclosed :
    let t := unclosedCall.toTree "file:///a.php" "<?php\nf(1"
    (List.range t.size).filterMap t.item? =
      [⟨.program, none, 0, 9, none⟩, ⟨.other, none, 0, 5, some 0⟩,
       ⟨.expression, none, 6, 9, some 0⟩, ⟨.functionCall, none, 6, 9, some 2⟩,
       ⟨.name, some .function, 6, 7, some 3⟩, ⟨.other, some .arguments, 7, 9, some 3⟩,
       ⟨.expression, none, 8, 9, some 5⟩, ⟨.other, none, 8, 9, some 6⟩] ∧
      t.flawed = true ∧ (t.children 3).count 5 = 1 ∧
      ∃ paths, unclosedCall.root.Lowered t paths ∧ [1, 0, 1, 1] ∈ paths ∧ [1, 0, 1, 2] ∉ paths := by
  intro t
  obtain ⟨-, ⟨paths, -, hpaths, hlowered, hflawed⟩, hparents, -, -⟩ :=
    lowering_keeps_named_nodes_in_preorder unclosedCall "file:///a.php" "<?php\nf(1"
  have hparent : t.parent 5 = some 3 := by decide +kernel
  refine ⟨by decide +kernel, hflawed.mpr (.inr (.inl ⟨[1, 1], _, by simp, rfl, rfl⟩)),
    (hparents 3 5 hparent).2, paths, hlowered, ?_, ?_⟩
  · exact (hpaths _).mpr ⟨by simp, .inr ⟨_, rfl, rfl, rfl⟩⟩
  · rintro hpath
    obtain ⟨-, h | ⟨c, hc, hnamed, -⟩⟩ := (hpaths _).mp hpath
    · cases h
    · cases hc
      cases hnamed

end Parse

end SemanticIndex
