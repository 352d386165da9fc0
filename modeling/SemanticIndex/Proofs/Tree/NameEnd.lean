import Mathlib.Data.List.Pairwise
import SemanticIndex.Proofs.Tree.Deepest

namespace SemanticIndex.Tree

variable {t : Tree} {b c i m o : Nat}

def NothingBegins (t : Tree) (o : Nat) : Prop :=
  ∀ j ∈ t.preorder root, t.start j = o → t.stop j = o

instance (t : Tree) (o : Nat) : Decidable (t.NothingBegins o) :=
  inferInstanceAs (Decidable (∀ j ∈ _, _ → _))

structure IsWord (t : Tree) (m : Nat) : Prop where
  kind_eq : t.kind m = .name
  leaf : t.children m = []
  nonempty : t.start m < t.stop m

instance (t : Tree) (m : Nat) : Decidable (t.IsWord m) :=
  decidable_of_iff (t.kind m = .name ∧ t.children m = [] ∧ t.start m < t.stop m)
    ⟨fun h => ⟨h.1, h.2.1, h.2.2⟩, fun h => ⟨h.kind_eq, h.leaf, h.nonempty⟩⟩

theorem apart_of_siblings (hn : t.Nested) (hb : b ∈ t.children i) (hc : c ∈ t.children i)
    (hne : b ≠ c) : t.stop b ≤ t.start c ∨ t.stop c ≤ t.start b := by
  let Apart (x y : Nat) : Prop := t.stop x ≤ t.start y ∨ t.stop y ≤ t.start x
  have hsymm : Std.Symm Apart := ⟨fun _ _ => Or.symm⟩
  have hord : (t.children i).Pairwise Apart :=
    (hn.ordered i (lt_size_of_mem_children hb)).imp fun h => .inl h
  exact hord.forall hb hc hne

theorem toward_of_ends (hn : t.Nested) (hc : c ∈ t.children i) (hs : t.start c < o)
    (he : t.stop c = o) (hnone : ∀ b ∈ t.children i, ¬t.Holds o b)
    (hk : (t.kind c).isName = true ∨ t.children c ≠ []) : t.toward o i = some c := by
  have hinside : (t.children i).find? (fun b => t.start b ≤ o && o < t.stop b) = none := by
    refine List.find?_eq_none.mpr fun b hb => ?_
    simpa [Holds] using hnone b hb
  obtain ⟨front, rest, hsplit, hbefore⟩ := exists_split_of_mem_children hn hc
  have hfront : front.find? (fun b =>
      t.stop b == o && ((t.kind b).isName || !(t.children b).isEmpty)) = none := by
    refine List.find?_eq_none.mpr fun b hb => ?_
    have hbo : t.stop b ≠ o := ((hbefore b hb).trans_lt hs).ne
    simp [hbo]
  rw [toward, hinside, Option.none_or, hsplit, List.find?_append, hfront, Option.none_or,
    List.find?_cons_of_pos (by simpa [he] using hk)]

theorem toward_word (hn : t.Nested) (hw : t.IsWord m) (hc : c ∈ t.children i)
    (hm : m ∈ t.preorder c)
    (hbegins : ∀ b ∈ t.children i, t.start b = t.stop m → t.stop b = t.stop m) :
    t.toward (t.stop m) i = some c := by
  obtain ⟨hstart, hstop⟩ := inside_of_mem_preorder hn hm
  have hword := hw.nonempty
  by_cases hholds : t.Holds (t.stop m) c
  · exact toward_of_covers hn hc hholds.1 hholds.2
  · have hend : t.stop c = t.stop m := by
      have := mt (And.intro (by omega : t.start c ≤ t.stop m)) hholds
      omega
    refine toward_of_ends hn hc (by omega) hend (fun b hb hbo => ?_) ?_
    · have hbc : b ≠ c := fun h => hholds (h ▸ hbo)
      have hempty := hbegins b hb
      obtain ⟨hbs, hbe⟩ := hbo
      have := apart_of_siblings hn hb hc hbc
      omega
    · rcases mem_preorder_cases.mp hm with rfl | ⟨b, hb, -⟩
      · exact .inl (by rw [hw.kind_eq]; rfl)
      · exact .inr (List.ne_nil_of_mem hb)

theorem descend_word (hn : t.Nested) (hw : t.IsWord m) (hm : m ∈ t.preorder i)
    (hbegins : ∀ j ∈ t.preorder i, t.start j = t.stop m → t.stop j = t.stop m) :
    t.descend (t.stop m) i = m := by
  induction i using t.downward with
  | h i ih =>
    rcases mem_preorder_cases.mp hm with rfl | ⟨c, hc, hmc⟩
    · refine descend_of_toward_none ?_
      simp [toward, hw.leaf]
    · have htoward := toward_word hn hw hc hmc fun b hb =>
        hbegins b (mem_preorder_of_child hb (t.self_mem_preorder b))
      rw [descend_of_toward htoward]
      exact ih c hc hmc fun j hj => hbegins j (mem_preorder_of_child hc hj)

theorem start_descend (hn : t.Nested) (i : Nat) :
    t.start (t.descend (t.start i) i) = t.start i := by
  generalize hs : t.start i = o
  induction i using t.downward with
  | h i ih =>
    cases ht : t.toward o i with
    | none => rw [descend_of_toward_none ht, hs]
    | some c =>
      have hc : t.start c = o := by
        subst hs
        exact start_of_toward hn ht
      rw [descend_of_toward ht]
      exact ih c (mem_children_of_toward ht) hc

theorem name_found_at_end_unless_followed (t : Tree) (hn : t.Nested) (p : Position) (m : Nat)
    (hm : m ∈ t.preorder root) (hw : t.IsWord m) (hp : t.lines.offset? p = some (t.stop m)) :
    ∃ n, t.nodeAt? p = some n ∧
      (t.NothingBegins (t.stop m) → n = m ∧ (t.kind n).isName = true ∧ t.stop n = t.stop m) ∧
      (¬t.NothingBegins (t.stop m) → n ≠ m ∧ t.start n = t.stop m) := by
  refine ⟨t.descend (t.stop m) root, by rw [nodeAt?, hp, Option.map_some], fun h => ?_, fun h => ?_⟩
  · rw [descend_word hn hw hm h]
    exact ⟨rfl, by rw [hw.kind_eq]; rfl, rfl⟩
  · obtain ⟨j, hj, hs, he⟩ : ∃ j ∈ t.preorder root, t.start j = t.stop m ∧ t.stop j ≠ t.stop m := by
      simpa [NothingBegins] using h
    have hle := hn.start_le j
    have hstart := start_descend hn j
    rw [hs, ← descend_eq_of_covers hn (mem_preorder_iff.mp hj) hs.le (by omega)] at hstart
    refine ⟨fun hnm => ?_, hstart⟩
    have hword := hw.nonempty
    rw [hnm] at hstart
    omega

theorem name_found_at_end_unless_followed_in_call :
    let t := qualifiedArgument
    t.Nested ∧ t.IsWord 10 ∧ t.IsWord 4 ∧ t.NothingBegins (t.stop 10) ∧
      ¬t.NothingBegins (t.stop 4) ∧ t.nodeAt? ⟨1, 6⟩ = some 10 ∧
      ∃ n, t.nodeAt? ⟨1, 1⟩ = some n ∧ n ≠ 4 ∧ t.start n = t.stop 4 := by
  intro t
  have hn : t.Nested := by decide +kernel
  have hargument : t.IsWord 10 := by decide +kernel
  have hcallee : t.IsWord 4 := by decide +kernel
  have halone : t.NothingBegins (t.stop 10) := by decide +kernel
  have hfollowed : ¬t.NothingBegins (t.stop 4) := by decide +kernel
  obtain ⟨n, hnode, hfound, -⟩ := name_found_at_end_unless_followed t hn ⟨1, 6⟩ 10
    (by decide +kernel) hargument (by decide +kernel)
  obtain ⟨k, hother, -, hbegins⟩ := name_found_at_end_unless_followed t hn ⟨1, 1⟩ 4
    (by decide +kernel) hcallee (by decide +kernel)
  exact ⟨hn, hargument, hcallee, halone, hfollowed, (hfound halone).1 ▸ hnode, k, hother,
    hbegins hfollowed⟩

def plainCall : Tree :=
  .ofNodes "file:///a.php" "<?php\nfoo();\n"
    [(.program, none, 0, 13, none), (.other, none, 0, 5, some 0), (.expression, none, 6, 12, some 0),
     (.functionCall, none, 6, 11, some 2), (.name, some .function, 6, 9, some 3),
     (.other, some .arguments, 9, 11, some 3)]

theorem end_of_called_name_missed :
    let t := plainCall
    t.Nested ∧ 4 ∈ t.preorder root ∧ t.IsWord 4 ∧
      t.lines.offset? ⟨1, 3⟩ = some 9 ∧ t.stop 4 = 9 ∧
      (∀ i < t.size, (t.kind i).isName = true → ¬t.Holds 9 i) ∧
      t.nodeAt? ⟨1, 3⟩ = some 5 ∧ (t.kind 5).isName = false := by
  decide +kernel

end SemanticIndex.Tree
