import SemanticIndex.Proofs.Source.Columns
import SemanticIndex.Proofs.Tree.Descent

namespace SemanticIndex.Tree

variable {t : Tree} {c d i j n o : Nat}

def Holds (t : Tree) (o i : Nat) : Prop := t.start i ≤ o ∧ o < t.stop i

instance (t : Tree) (o i : Nat) : Decidable (t.Holds o i) :=
  inferInstanceAs (Decidable (_ ∧ _))

theorem Nested.start_le (hn : t.Nested) (i : Nat) : t.start i ≤ t.stop i := by
  by_contra h
  cases hi : t.nodes[i]? with
  | none => simp [start, stop, node?, hi] at h
  | some m => exact h (hn.start_le_stop i (Array.getElem?_eq_some_iff.mp hi).1)

inductive Descends (t : Tree) (o : Nat) : Nat → Nat → Prop where
  | ends (i : Nat) : t.toward o i = none → Descends t o i i
  | goes (i c n : Nat) : t.toward o i = some c → Descends t o c n → Descends t o i n

theorem descends_descend (t : Tree) (o i : Nat) : t.Descends o i (t.descend o i) := by
  induction i using t.downward with
  | h i ih =>
    cases ht : t.toward o i with
    | none =>
      rw [descend_of_toward_none ht]
      exact .ends i ht
    | some c =>
      rw [descend_of_toward ht]
      exact .goes i c _ ht (ih c (mem_children_of_toward ht))

theorem descends_iff : t.Descends o i n ↔ n = t.descend o i := by
  constructor
  · intro h
    induction h with
    | ends i ht => exact (descend_of_toward_none ht).symm
    | goes i c n ht _ ih => rw [ih, descend_of_toward ht]
  · rintro rfl
    exact t.descends_descend o i

theorem inside_of_mem_preorder (hn : t.Nested) (hj : j ∈ t.preorder i) :
    t.start i ≤ t.start j ∧ t.stop j ≤ t.stop i := by
  induction i using t.downward with
  | h i ih =>
    rcases mem_preorder_cases.mp hj with rfl | ⟨c, hc, hjc⟩
    · exact ⟨Nat.le_refl _, Nat.le_refl _⟩
    · obtain ⟨hstart, hstop⟩ := ih c hc hjc
      obtain ⟨hstart', hstop'⟩ := hn.inside i (lt_size_of_mem_children hc) c hc
      exact ⟨hstart'.trans hstart, hstop.trans hstop'⟩

theorem Holds.of_mem_preorder (hn : t.Nested) (hj : j ∈ t.preorder i) (h : t.Holds o j) :
    t.Holds o i := by
  obtain ⟨hstart, hstop⟩ := inside_of_mem_preorder hn hj
  exact ⟨hstart.trans h.1, h.2.trans_le hstop⟩

structure Turns (t : Tree) (o i d : Nat) : Prop where
  below : d ∈ t.preorder i
  holds : d = i ∨ t.Holds o d
  above : ∀ j ∈ t.preorder i, t.Holds o j → j ∈ d :: t.ancestors d
  last : ∀ c ∈ t.children d, ¬t.Holds o c
  passed : t.descend o i = t.descend o d

theorem Turns.here (hn : t.Nested) (hnone : ∀ c ∈ t.children i, ¬t.Holds o c) : t.Turns o i i where
  below := t.self_mem_preorder i
  holds := .inl rfl
  above j hj hjo := by
    rcases mem_preorder_cases.mp hj with rfl | ⟨b, hb, hjb⟩
    · exact List.mem_cons_self
    · exact absurd (hjo.of_mem_preorder hn hjb) (hnone b hb)
  last := hnone
  passed := rfl

theorem Turns.of_child (hn : t.Nested) (hc : c ∈ t.children i) (hholds : t.Holds o c)
    (hd : t.Turns o c d) : t.Turns o i d := by
  have ht := toward_of_covers hn hc hholds.1 hholds.2
  have hdi := mem_preorder_of_child hc hd.below
  refine ⟨hdi, .inr (hd.holds.elim (fun h => h ▸ hholds) id), fun j hj hjo => ?_, hd.last,
    (descend_of_toward ht).trans hd.passed⟩
  rcases mem_preorder_cases.mp hj with rfl | ⟨b, hb, hjb⟩
  · exact mem_preorder_iff.mp hdi
  · have hbo := hjo.of_mem_preorder hn hjb
    have hbt := toward_of_covers hn hb hbo.1 hbo.2
    obtain rfl : c = b := Option.some.inj (ht.symm.trans hbt)
    exact hd.above j hjb hjo

theorem exists_turns (hn : t.Nested) (o i : Nat) : ∃ d, t.Turns o i d := by
  induction i using t.downward with
  | h i ih =>
    by_cases hc : ∃ c ∈ t.children i, t.Holds o c
    · obtain ⟨c, hc, hholds⟩ := hc
      obtain ⟨d, hd⟩ := ih c hc
      exact ⟨d, hd.of_child hn hc hholds⟩
    · exact ⟨i, .here hn fun c hm hh => hc ⟨c, hm, hh⟩⟩

theorem stop_of_toward (hlast : ∀ c ∈ t.children i, ¬t.Holds o c) (h : t.toward o i = some c) :
    t.stop c = o :=
  (toward_cases h).resolve_left (hlast c (mem_children_of_toward h))

theorem not_holds_of_stop_eq (hn : t.Nested) (hi : t.stop i = o) (hc : c ∈ t.children i) :
    ¬t.Holds o c := by
  have hstop := (hn.inside i (lt_size_of_mem_children hc) c hc).2
  intro h
  have := h.2
  omega

theorem descend_of_last (hn : t.Nested) (hlast : ∀ c ∈ t.children i, ¬t.Holds o c) :
    (t.descend o i = i ∨ i ∈ t.ancestors (t.descend o i) ∧ t.stop (t.descend o i) = o) ∧
      ∀ c ∈ t.children (t.descend o i), ¬t.Holds o c := by
  induction i using t.downward with
  | h i ih =>
    cases ht : t.toward o i with
    | none =>
      rw [descend_of_toward_none ht]
      exact ⟨.inl rfl, hlast⟩
    | some c =>
      have hc := mem_children_of_toward ht
      have hstop := stop_of_toward hlast ht
      obtain ⟨hend, hlast'⟩ := ih c hc fun b hb => not_holds_of_stop_eq hn hstop hb
      have hbelow : c ∈ t.descend o c :: t.ancestors (t.descend o c) := by
        rcases hend with hend | hend
        · exact hend.symm ▸ List.mem_cons_self
        · exact List.mem_cons_of_mem _ hend.1
      rw [descend_of_toward ht]
      refine ⟨.inr ⟨parent_mem_ancestors hbelow (parent_eq_some_iff.mpr hc), ?_⟩, hlast'⟩
      rcases hend with hend | hend
      · rw [hend, hstop]
      · exact hend.2

structure IsDeepest (t : Tree) (o d : Nat) : Prop where
  reachable : d ∈ t.preorder root
  holds : t.Holds o d ∨ d = root ∧ ∀ j ∈ t.preorder root, ¬t.Holds o j
  above : ∀ j ∈ t.preorder root, t.Holds o j → j ∈ d :: t.ancestors d

theorem mem_ancestors_antisymm (hi : i ∈ j :: t.ancestors j) (hj : j ∈ i :: t.ancestors i) :
    i = j := by
  rcases List.mem_cons.mp hi with h | hi
  · exact h
  · rcases List.mem_cons.mp hj with h | hj
    · exact h.symm
    · exact absurd (lt_of_mem_ancestors hi) (Nat.lt_asymm (lt_of_mem_ancestors hj))

theorem IsDeepest.eq (hc : t.IsDeepest o c) (hd : t.IsDeepest o d) : c = d := by
  rcases hc.holds with hco | ⟨rfl, hnone⟩
  · rcases hd.holds with hdo | ⟨rfl, hnone⟩
    · exact mem_ancestors_antisymm (hd.above c hc.reachable hco) (hc.above d hd.reachable hdo)
    · exact absurd hco (hnone c hc.reachable)
  · rcases hd.holds with hdo | ⟨rfl, -⟩
    · exact absurd hdo (hnone d hd.reachable)
    · rfl

theorem Turns.isDeepest (h : t.Turns o root d) : t.IsDeepest o d where
  reachable := h.below
  holds := by
    by_cases hd : t.Holds o d
    · exact .inl hd
    · obtain rfl := h.holds.resolve_right hd
      refine .inr ⟨rfl, fun j hj hjo => hd ?_⟩
      have hup := h.above j hj hjo
      rw [ancestors_root, List.mem_singleton] at hup
      exact hup ▸ hjo
  above := h.above

structure Found (t : Tree) (o n : Nat) : Prop where
  ends : ∀ k, t.Descends o root k ↔ k = n
  deepest : ∃! d, t.IsDeepest o d
  below : ∀ d, t.IsDeepest o d → n = d ∨ d ∈ t.ancestors n ∧ t.stop n = o
  last : ∀ c ∈ t.children n, ¬t.Holds o c
  touches : t.start root ≤ o → o ≤ t.stop root → t.start n ≤ o ∧ o ≤ t.stop n

theorem found_descend (hn : t.Nested) (o : Nat) : t.Found o (t.descend o root) := by
  obtain ⟨d, hd⟩ := exists_turns hn o root
  obtain ⟨hend, hlast⟩ := descend_of_last hn hd.last
  rw [← hd.passed] at hend hlast
  refine ⟨fun k => descends_iff, ⟨d, hd.isDeepest, fun c hc => hc.eq hd.isDeepest⟩,
    fun c hc => ?_, hlast, fun hstart hstop => ?_⟩
  · rw [hc.eq hd.isDeepest]
    exact hend
  · rcases hend with hend | ⟨-, hend⟩
    · rw [hend]
      rcases hd.holds with rfl | hdo
      · exact ⟨hstart, hstop⟩
      · exact ⟨hdo.1, hdo.2.le⟩
    · exact ⟨(hn.start_le _).trans hend.le, hend.ge⟩

theorem search_ends_at_deepest (t : Tree) (hn : t.Nested) (p : Position)
    {before line after : List Char} (hline : Text.IsLine t.source p.line.toNat before line after) :
    ∃ o n, t.lines.offset? p = some o ∧ t.nodeAt? p = some n ∧ t.Found o n := by
  have hoffset := LineIndex.offset?_eq hline
  rw [← t.lines_eq] at hoffset
  exact ⟨_, _, hoffset, by rw [nodeAt?, hoffset, Option.map_some], found_descend hn _⟩

def qualifiedArgument : Tree :=
  .ofNodes "file:///a.php" "<?php\nf(\\A\\B);\n"
    [(.program, none, 0, 15, none), (.other, none, 0, 5, some 0), (.expression, none, 6, 14, some 0),
     (.functionCall, none, 6, 13, some 2), (.name, some .function, 6, 7, some 3),
     (.other, some .arguments, 7, 13, some 3), (.expression, none, 8, 12, some 5),
     (.qualifiedName, none, 8, 12, some 6), (.namespaceName, some .other, 9, 10, some 7),
     (.name, none, 9, 10, some 8), (.name, none, 11, 12, some 7)]

theorem search_ends_at_deepest_after_name :
    let t := qualifiedArgument
    t.Nested ∧ t.nodeAt? ⟨1, 6⟩ = some 10 ∧ t.IsDeepest 12 5 ∧ 5 ∈ t.ancestors 10 ∧
      t.Found 12 10 := by
  intro t
  have hn : t.Nested := by decide +kernel
  have hline : Text.IsLine t.source 1 "<?php\n".toList "f(\\A\\B);".toList ['\n'] :=
    ⟨by decide +kernel, by decide, .inr ⟨"<?php".toList, by decide⟩, by decide, .inr ⟨[], rfl⟩⟩
  have hoffset : t.lines.offset? ⟨1, 6⟩ = some 12 := by decide +kernel
  have hten : t.nodeAt? ⟨1, 6⟩ = some 10 := by decide +kernel
  obtain ⟨o, n, ho, hnode, hfound⟩ := search_ends_at_deepest t hn ⟨1, 6⟩ hline
  obtain rfl := Option.some.inj (ho.symm.trans hoffset)
  obtain rfl := Option.some.inj (hnode.symm.trans hten)
  have hdeepest : t.IsDeepest 12 5 :=
    ⟨by decide +kernel, .inl (by decide +kernel), by decide +kernel⟩
  exact ⟨hn, hten, hdeepest, by decide +kernel, hfound⟩

end SemanticIndex.Tree
