import SemanticIndex.Proofs.Source.Positions
import SemanticIndex.Proofs.Tree.Preorder

namespace SemanticIndex.Tree

variable {t : Tree} {i c m o : Nat}

structure Nested (t : Tree) : Prop where
  start_le_stop : ∀ i < t.size, t.start i ≤ t.stop i
  inside : ∀ i < t.size, ∀ c ∈ t.children i, t.start i ≤ t.start c ∧ t.stop c ≤ t.stop i
  ordered : ∀ i < t.size, (t.children i).Pairwise fun a b => t.stop a ≤ t.start b

instance (t : Tree) : Decidable t.Nested :=
  decidable_of_iff
    ((∀ i < t.size, t.start i ≤ t.stop i) ∧
      (∀ i < t.size, ∀ c ∈ t.children i, t.start i ≤ t.start c ∧ t.stop c ≤ t.stop i) ∧
      ∀ i < t.size, (t.children i).Pairwise fun a b => t.stop a ≤ t.start b)
    ⟨fun h => ⟨h.1, h.2.1, h.2.2⟩, fun h => ⟨h.start_le_stop, h.inside, h.ordered⟩⟩

def Aligned (t : Tree) : Prop :=
  ∀ i < t.size, Text.IsBoundary t.source (t.start i) ∧ Text.IsBoundary t.source (t.stop i)

instance (t : Tree) : Decidable t.Aligned :=
  inferInstanceAs (Decidable (∀ i < t.size, _ ∧ _))

theorem lt_size_of_mem_children (h : c ∈ t.children i) : i < t.size := by
  have := lt_of_mem_children h
  omega

theorem lt_size_of_start_lt_stop (h : t.start i < t.stop i) : i < t.size := by
  by_contra hi
  have hn : t.nodes[i]? = none := Array.getElem?_eq_none (Nat.not_lt.mp hi)
  simp [start, stop, node?, hn] at h

theorem range_eq (h : i < t.size) :
    t.range i = ⟨t.lines.position (t.start i), t.lines.position (t.stop i)⟩ := by
  cases hn : t.nodes[i]? with
  | none => exact absurd h (Nat.not_lt.mpr (Array.getElem?_eq_none_iff.mp hn))
  | some n => simp [range, start, stop, node?, hn, t.placed hn]

theorem offset?_range_start (ha : t.Aligned) (hsize : Text.byteLength t.source < 0x100000000)
    (h : i < t.size) : t.lines.offset? (t.range i).start = some (t.start i) := by
  rw [range_eq h, t.lines_eq]
  exact LineIndex.offset?_position (ha i h).1 hsize

theorem exists_split_of_mem_children (hn : t.Nested) (hc : c ∈ t.children i) :
    ∃ front rest, t.children i = front ++ c :: rest ∧ ∀ b ∈ front, t.stop b ≤ t.start c := by
  obtain ⟨front, rest, hsplit⟩ := List.append_of_mem hc
  have hord := hn.ordered i (lt_size_of_mem_children hc)
  rw [hsplit, List.pairwise_append] at hord
  exact ⟨front, rest, hsplit, fun b hb => hord.2.2 b hb c List.mem_cons_self⟩

theorem toward_of_covers (hn : t.Nested) (hc : c ∈ t.children i) (hs : t.start c ≤ o)
    (he : o < t.stop c) : t.toward o i = some c := by
  obtain ⟨front, rest, hsplit, hbefore⟩ := exists_split_of_mem_children hn hc
  have hfront : front.find? (fun b => t.start b ≤ o && o < t.stop b) = none := by
    refine List.find?_eq_none.mpr fun b hb => ?_
    simp only [Bool.and_eq_true, decide_eq_true_eq, not_and, Nat.not_lt]
    exact fun _ => Nat.le_trans (hbefore b hb) hs
  rw [toward, hsplit, List.find?_append, hfront, Option.none_or,
    List.find?_cons_of_pos (by simp [hs, he]), Option.some_or]

theorem toward_cases (h : t.toward o i = some c) :
    t.start c ≤ o ∧ o < t.stop c ∨ t.stop c = o := by
  rw [toward, Option.or_eq_some_iff] at h
  rcases h with h | ⟨-, h⟩
  · exact .inl (by simpa using List.find?_some h)
  · have hp := List.find?_some h
    simp only [Bool.and_eq_true, beq_iff_eq] at hp
    exact .inr hp.1

theorem start_of_toward (hn : t.Nested) (h : t.toward (t.start i) i = some c) :
    t.start c = t.start i := by
  have hc := mem_children_of_toward h
  have hin := (hn.inside i (lt_size_of_mem_children hc) c hc).1
  have hle := hn.start_le_stop c (lt_of_mem_children hc).2
  rcases toward_cases h with hcovers | hend <;> omega

theorem descend_of_toward (h : t.toward o i = some c) : t.descend o i = t.descend o c := by
  rw [descend]
  split
  · next hn => rw [h] at hn; cases hn
  · next d hd =>
    rw [h] at hd
    cases hd
    rfl

theorem descend_of_toward_none (h : t.toward o i = none) : t.descend o i = i := by
  rw [descend]
  split
  · rfl
  · next d hd => rw [h] at hd; cases hd

theorem descend_eq_of_covers (hn : t.Nested) (hi : i ∈ m :: t.ancestors m) (hs : t.start m ≤ o)
    (he : o < t.stop m) : t.descend o i = t.descend o m := by
  induction m using t.upward with
  | h m ih =>
    rcases List.mem_cons.mp hi with rfl | hi
    · rfl
    · cases hp : t.parent m with
      | none => rw [ancestors_of_parent_none hp] at hi; cases hi
      | some p =>
        have hm := parent_eq_some_iff.mp hp
        obtain ⟨hps, hpe⟩ := hn.inside p (lt_size_of_mem_children hm) m hm
        rw [ancestors_of_parent hp] at hi
        rw [ih p hp hi (by omega) (by omega), descend_of_toward (toward_of_covers hn hm hs he)]

theorem nodeAt?_start (hn : t.Nested) (ha : t.Aligned)
    (hsize : Text.byteLength t.source < 0x100000000) (hm : m ∈ t.preorder root)
    (hne : t.start m < t.stop m) :
    t.nodeAt? (t.range m).start = some (t.descend (t.start m) m) := by
  rw [nodeAt?, offset?_range_start ha hsize (lt_size_of_start_lt_stop hne), Option.map_some,
    descend_eq_of_covers hn (mem_preorder_iff.mp hm) (Nat.le_refl _) hne]

end SemanticIndex.Tree
