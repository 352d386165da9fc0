import SemanticIndex.Collect.Basic
import SemanticIndex.Proofs.Tree.Preorder

namespace SemanticIndex

variable {t : Tree} {i c : Nat}

namespace Region

theorem of_namespaceDefinition (h : t.kind i = .namespaceDefinition) : Region.of t i = some i := by
  rw [Region.of, List.find?_cons_of_pos (by simp [h])]

theorem topStatement_child (hc : c ∈ t.children i) (hi : (t.parent i).isSome) :
    topStatement t c = topStatement t i := by
  obtain ⟨p, hp⟩ := Option.isSome_iff_exists.mp hi
  rw [topStatement, topStatement, Tree.ancestors_of_mem_children hc, Tree.ancestors_of_parent hp,
    List.dropLast_cons_cons, List.dropLast_cons_cons, List.getLast?_cons_cons]
  obtain ⟨top, htop⟩ : ∃ top, (i :: (p :: t.ancestors p).dropLast).getLast? = some top :=
    Option.isSome_iff_exists.mp (List.getLast?_isSome.mpr (List.cons_ne_nil _ _))
  rw [htop, Option.getD_some, Option.getD_some]

theorem of_child (hc : c ∈ t.children i) (hi : (t.parent i).isSome)
    (hk : t.kind c ≠ .namespaceDefinition) : Region.of t c = Region.of t i := by
  rw [Region.of, Region.of, Tree.ancestors_of_mem_children hc,
    List.find?_cons_of_neg (by simp [hk]), topStatement_child hc hi]

theorem of_statement {front rest : List Nat} (hroot : t.kind Tree.root ≠ .namespaceDefinition)
    (hs : t.children Tree.root = front ++ i :: rest) (hk : t.kind i ≠ .namespaceDefinition) :
    Region.of t i = (front.filter (t.kind · == .namespaceDefinition)).getLast? := by
  have hi : i ∈ t.children Tree.root := by simp [hs]
  have hanc : t.ancestors i = [Tree.root] := by
    rw [Tree.ancestors_of_mem_children hi, Tree.ancestors_root]
  have htop : topStatement t i = i := by simp [topStatement, hanc]
  have hne : i ≠ Tree.root := Nat.ne_of_gt (Tree.lt_of_mem_children hi).1
  have hfront : ∀ c ∈ front, c ≠ i := by
    intro c hc
    have hlt := t.children_increasing Tree.root
    rw [hs, List.pairwise_append] at hlt
    exact Nat.ne_of_lt (hlt.2.2 c hc i List.mem_cons_self)
  have hbefore : (t.children Tree.root).takeWhile (· != i) = front := by
    rw [hs, List.takeWhile_append_of_pos (by simpa using hfront)]
    simp
  rw [Region.of, hanc, List.find?_cons_of_neg (by simp [hk]),
    List.find?_cons_of_neg (by simp [hroot]), List.find?_nil, htop]
  simp only [hne, if_false]
  rw [preceding, hbefore]

end Region

namespace Collect

theorem visitsFrom_eq (t : Tree) (scope : Scope) (i : Nat) :
    visitsFrom t scope i = (i, scope) :: (t.children i).flatMap (visitsFrom t (enter t scope i)) := by
  rw [visitsFrom, List.flatMap_subtype (g := visitsFrom t (enter t scope i)) (fun _ _ => rfl),
    List.unattach_attach]

theorem map_fst_visitsFrom (t : Tree) (scope : Scope) (i : Nat) :
    (visitsFrom t scope i).map Prod.fst = t.preorder i := by
  induction i using t.downward generalizing scope with
  | h i ih =>
    rw [visitsFrom_eq, Tree.preorder_eq, List.map_cons, List.map_flatMap]
    exact congrArg (i :: ·) (List.flatMap_congr fun c hc => ih c hc _)

theorem map_fst_visitsOver (t : Tree) (scope : Scope) (is : List Nat) :
    (visitsOver t scope is).map Prod.fst = is.flatMap t.preorder := by
  induction is generalizing scope with
  | nil => rfl
  | cons i is ih => rw [visitsOver, List.map_append, map_fst_visitsFrom, ih, List.flatMap_cons]

theorem map_fst_visits (t : Tree) :
    (visits t).map Prod.fst = (t.preorder Tree.root).tail := by
  rw [visits, map_fst_visitsOver, Tree.preorder_eq, List.tail_cons]

def Fits (t : Tree) (v : Nat × Scope) : Prop :=
  t.kind v.1 ≠ .namespaceDefinition → v.2 = Scope.ofRegion t (Region.of t v.1)

theorem enter_eq {scope : Scope} (h : Fits t (i, scope)) :
    enter t scope i = Scope.ofRegion t (Region.of t i) := by
  unfold enter
  split
  · next hk => rw [Region.of_namespaceDefinition hk]
  · next hk => exact h hk

theorem visitsFrom_fits {scope : Scope} (hi : (t.parent i).isSome) (h : Fits t (i, scope)) :
    ∀ v ∈ visitsFrom t scope i, Fits t v := by
  induction i using t.downward generalizing scope with
  | h i ih =>
    intro v hv
    rw [visitsFrom_eq, enter_eq h] at hv
    rcases List.mem_cons.mp hv with rfl | hv
    · exact h
    · obtain ⟨c, hc, hv⟩ := List.mem_flatMap.mp hv
      refine ih c hc (by simp [Tree.parent_eq_some_iff.mpr hc]) (fun hk => ?_) v hv
      rw [Region.of_child hc hi hk]

-- `scope` is that of the last namespace definition among the statements already passed.
theorem visitsOver_fits {scope : Scope} (front : List Nat) {is : List Nat}
    (hroot : t.kind Tree.root ≠ .namespaceDefinition) (hs : t.children Tree.root = front ++ is)
    (h : scope = Scope.ofRegion t (front.filter (t.kind · == .namespaceDefinition)).getLast?) :
    ∀ v ∈ visitsOver t scope is, Fits t v := by
  induction is generalizing front scope with
  | nil => simp [visitsOver]
  | cons i is ih =>
    intro v hv
    have hi : (t.parent i).isSome := by
      rw [Tree.parent_eq_some_iff.mpr (by simp [hs] : i ∈ t.children Tree.root)]
      rfl
    have hfits : Fits t (i, enter t scope i) := by
      intro hk
      rw [Region.of_statement hroot hs hk, ← h]
      exact if_neg hk
    have hnext : enter t scope i = Scope.ofRegion t
        ((front ++ [i]).filter (t.kind · == .namespaceDefinition)).getLast? := by
      unfold enter
      split
      · next hk => simp [hk]
      · next hk => simp [hk, h]
    rw [visitsOver] at hv
    rcases List.mem_append.mp hv with hv | hv
    · exact visitsFrom_fits hi hfits v hv
    · exact ih (front ++ [i]) (by simp [hs]) hnext v hv

theorem visits_fit (hroot : t.kind Tree.root ≠ .namespaceDefinition) :
    ∀ v ∈ visits t, Fits t v :=
  visitsOver_fits [] hroot rfl rfl

end Collect

end SemanticIndex
