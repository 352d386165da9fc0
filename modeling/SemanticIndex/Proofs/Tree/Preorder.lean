import Mathlib.Data.List.Nodup
import SemanticIndex.Tree.Basic

namespace SemanticIndex.Tree

variable {t : Tree} {i j c d p : Nat}

theorem parent_root (t : Tree) : t.parent root = none := by
  cases h : t.parent root with
  | none => rfl
  | some p => exact absurd (parent_lt h) (Nat.not_lt_zero p)

theorem ancestors_of_parent (h : t.parent i = some p) : t.ancestors i = p :: t.ancestors p := by
  rw [ancestors]
  split
  · next hn => rw [h] at hn; cases hn
  · next q hq =>
    rw [h] at hq
    cases hq
    rfl

theorem ancestors_of_parent_none (h : t.parent i = none) : t.ancestors i = [] := by
  rw [ancestors]
  split
  · rfl
  · next q hq => rw [h] at hq; cases hq

theorem ancestors_of_mem_children (h : c ∈ t.children i) : t.ancestors c = i :: t.ancestors i :=
  ancestors_of_parent (parent_eq_some_iff.mpr h)

theorem ancestors_root (t : Tree) : t.ancestors root = [] :=
  ancestors_of_parent_none t.parent_root

theorem downward {P : Nat → Prop} (t : Tree) (h : ∀ i, (∀ c ∈ t.children i, P c) → P i) (i : Nat) :
    P i := by
  induction hn : t.size - i using Nat.strongRecOn generalizing i with
  | ind n ih =>
    refine h i fun c hc => ?_
    have hlt := lt_of_mem_children hc
    exact ih (t.size - c) (by omega) c rfl

theorem upward {P : Nat → Prop} (t : Tree) (h : ∀ i, (∀ p, t.parent i = some p → P p) → P i)
    (i : Nat) : P i := by
  induction i using Nat.strongRecOn with
  | ind i ih => exact h i fun p hp => ih p (parent_lt hp)

theorem lt_of_mem_ancestors (h : i ∈ t.ancestors j) : i < j := by
  induction j using t.upward with
  | h j ih =>
    cases hp : t.parent j with
    | none => rw [ancestors_of_parent_none hp] at h; cases h
    | some p =>
      rw [ancestors_of_parent hp] at h
      have hpj := parent_lt hp
      rcases List.mem_cons.mp h with rfl | h
      · exact hpj
      · exact Nat.lt_trans (ih p hp h) hpj

theorem parent_mem_ancestors (hc : c ∈ j :: t.ancestors j) (hp : t.parent c = some i) :
    i ∈ t.ancestors j := by
  induction j using t.upward with
  | h j ih =>
    rcases List.mem_cons.mp hc with rfl | hc
    · rw [ancestors_of_parent hp]
      exact List.mem_cons_self
    · cases hq : t.parent j with
      | none => rw [ancestors_of_parent_none hq] at hc; cases hc
      | some q =>
        rw [ancestors_of_parent hq] at hc ⊢
        exact List.mem_cons_of_mem _ (ih q hq hc)

theorem eq_of_sibling_ancestors (hc : c ∈ j :: t.ancestors j) (hd : d ∈ j :: t.ancestors j)
    (hcp : t.parent c = some i) (hdp : t.parent d = some i) : c = d := by
  have habove {a b : Nat} (ha : t.parent a = some i) (hb : t.parent b = some i) :
      b ∉ t.ancestors a := by
    intro hm
    rw [ancestors_of_parent ha] at hm
    have hib := parent_lt hb
    rcases List.mem_cons.mp hm with rfl | hm
    · exact Nat.lt_irrefl _ hib
    · exact Nat.lt_asymm hib (lt_of_mem_ancestors hm)
  induction j using t.upward with
  | h j ih =>
    rcases List.mem_cons.mp hc with rfl | hc <;> rcases List.mem_cons.mp hd with rfl | hd
    · rfl
    · exact absurd hd (habove hcp hdp)
    · exact absurd hc (habove hdp hcp)
    · cases hq : t.parent j with
      | none => rw [ancestors_of_parent_none hq] at hc; cases hc
      | some q =>
        rw [ancestors_of_parent hq] at hc hd
        exact ih q hq hc hd

def preorder (t : Tree) (i : Nat) : List Nat :=
  i :: (t.children i).attach.flatMap fun c => preorder t c.val
termination_by t.size - i
decreasing_by
  have := lt_of_mem_children c.property
  omega

theorem preorder_eq (t : Tree) (i : Nat) :
    t.preorder i = i :: (t.children i).flatMap t.preorder := by
  rw [preorder, List.flatMap_subtype (g := t.preorder) (fun _ _ => rfl), List.unattach_attach]

theorem mem_preorder_cases : j ∈ t.preorder i ↔ j = i ∨ ∃ c ∈ t.children i, j ∈ t.preorder c := by
  rw [preorder_eq, List.mem_cons, List.mem_flatMap]

theorem self_mem_preorder (t : Tree) (i : Nat) : i ∈ t.preorder i :=
  mem_preorder_cases.mpr (.inl rfl)

theorem mem_preorder_of_child (hc : c ∈ t.children i) (hj : j ∈ t.preorder c) : j ∈ t.preorder i :=
  mem_preorder_cases.mpr (.inr ⟨c, hc, hj⟩)

theorem child_mem_preorder (hj : j ∈ t.preorder i) (hc : c ∈ t.children j) : c ∈ t.preorder i := by
  induction i using t.downward with
  | h i ih =>
    rcases mem_preorder_cases.mp hj with rfl | ⟨d, hd, hjd⟩
    · exact mem_preorder_of_child hc (t.self_mem_preorder c)
    · exact mem_preorder_of_child hd (ih d hd hjd)

theorem mem_preorder_iff : j ∈ t.preorder i ↔ i ∈ j :: t.ancestors j := by
  constructor
  · intro h
    induction i using t.downward with
    | h i ih =>
      rcases mem_preorder_cases.mp h with rfl | ⟨c, hc, hj⟩
      · exact List.mem_cons_self
      · exact List.mem_cons_of_mem _ (parent_mem_ancestors (ih c hc hj) (parent_eq_some_iff.mpr hc))
  · intro h
    induction j using t.upward with
    | h j ih =>
      rcases List.mem_cons.mp h with rfl | h
      · exact t.self_mem_preorder i
      · cases hp : t.parent j with
        | none => rw [ancestors_of_parent_none hp] at h; cases h
        | some p =>
          rw [ancestors_of_parent hp] at h
          exact child_mem_preorder (ih p hp h) (parent_eq_some_iff.mp hp)

theorem preorder_nodup (t : Tree) (i : Nat) : (t.preorder i).Nodup := by
  induction i using t.downward with
  | h i ih =>
    rw [preorder_eq]
    refine List.nodup_cons.mpr ⟨?_, List.nodup_flatMap.mpr ⟨ih, ?_⟩⟩
    · intro hi
      obtain ⟨c, hc, hi⟩ := List.mem_flatMap.mp hi
      have hic := (lt_of_mem_children hc).1
      rcases List.mem_cons.mp (mem_preorder_iff.mp hi) with rfl | hm
      · exact Nat.lt_irrefl _ hic
      · exact Nat.lt_asymm hic (lt_of_mem_ancestors hm)
    · refine (t.children_increasing i).imp_of_mem fun {c d} hc hd hlt j hjc hjd => ?_
      refine Nat.ne_of_lt hlt (eq_of_sibling_ancestors (mem_preorder_iff.mp hjc)
        (mem_preorder_iff.mp hjd) (parent_eq_some_iff.mpr hc) (parent_eq_some_iff.mpr hd))

end SemanticIndex.Tree
