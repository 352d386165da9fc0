import Mathlib.Data.List.TakeWhile
import SemanticIndex.Proofs.Index.Insertion
import SemanticIndex.Server.Completion

namespace SemanticIndex.Server
open Std

section Keys

variable {α : Type} {key : α → String} {xs : List α}

theorem mem_iff_find?_key (h : Increasing key xs) {a : α} :
    a ∈ xs ↔ xs.find? (key · == key a) = some a := by
  constructor
  · intro ha
    obtain ⟨front, rest, rfl⟩ := List.append_of_mem ha
    have hfront := (List.pairwise_append.mp h).2.2
    have hnone : front.find? (key · == key a) = none := by
      refine List.find?_eq_none.mpr fun b hb => ?_
      simpa using String.ne_of_lt (hfront b hb a List.mem_cons_self)
    rw [List.find?_append, hnone, Option.none_or, List.find?_cons_of_pos (by simp)]
  · exact List.mem_of_find?_eq_some

theorem eq_of_find?_key {ys : List α} (hx : Increasing key xs) (hy : Increasing key ys)
    (h : ∀ k, xs.find? (key · == k) = ys.find? (key · == k)) : xs = ys :=
  eq_of_increasing key hx hy fun a => by rw [mem_iff_find?_key hx, mem_iff_find?_key hy, h]

theorem notAfter_trans (key : α → String) (a b c : α) (hab : (!decide (key b < key a)) = true)
    (hbc : (!decide (key c < key b)) = true) : (!decide (key c < key a)) = true := by
  simp only [Bool.not_eq_true', decide_eq_false_iff_not, String.not_lt] at hab hbc ⊢
  exact String.le_trans hab hbc

theorem notAfter_total (key : α → String) (a b : α) :
    (!decide (key b < key a) || !decide (key a < key b)) = true := by
  simp only [Bool.or_eq_true, Bool.not_eq_true', decide_eq_false_iff_not, String.not_lt]
  exact String.le_total (key a) (key b)

theorem pairwise_sortByText (key : α → String) (xs : List α) :
    (sortByText key xs).Pairwise fun a b => key a ≤ key b :=
  (List.pairwise_mergeSort (notAfter_trans key) (notAfter_total key) xs).imp fun hab => by
    simpa only [Bool.not_eq_true', decide_eq_false_iff_not, String.not_lt] using hab

theorem filter_sortByText (key : α → String) (xs : List α) (k : String) :
    (sortByText key xs).filter (key · == k) = xs.filter (key · == k) := by
  have hkey : ∀ a ∈ xs.filter (key · == k), key a = k := fun a ha => by
    simpa using (List.mem_filter.mp ha).2
  have hequal : (xs.filter (key · == k)).Pairwise fun a b => (!decide (key b < key a)) = true :=
    List.pairwise_of_forall_mem_list fun a ha b hb => by simp [hkey a ha, hkey b hb]
  have hsub : ((xs.filter (key · == k)).filter (key · == k)).Sublist
      ((sortByText key xs).filter (key · == k)) :=
    (List.sublist_mergeSort (notAfter_trans key) (notAfter_total key) hequal
      List.filter_sublist).filter _
  have hperm : ((sortByText key xs).filter (key · == k)).Perm (xs.filter (key · == k)) :=
    (List.mergeSort_perm xs _).filter _
  rw [List.filter_filter] at hsub
  simp only [Bool.and_self] at hsub
  exact (hsub.eq_of_length_le hperm.length_eq.le).symm

theorem dropRepeats_sublist (same : α → α → Bool) (xs : List α) :
    (dropRepeats same xs).Sublist xs := by
  fun_induction dropRepeats same xs with
  | case1 => exact .slnil
  | case2 a rest ih => exact (ih.trans (List.dropWhile_sublist _)).cons_cons a

theorem lt_of_mem_dropWhile {a b : α} (h : (a :: xs).Pairwise fun a b => key a ≤ key b)
    (hb : b ∈ xs.dropWhile fun b => key a == key b) : key a < key b := by
  induction xs with
  | nil => cases hb
  | cons c rest ih =>
    obtain ⟨hle, hrest⟩ := List.pairwise_cons.mp h
    obtain ⟨hc, htail⟩ := List.pairwise_cons.mp hrest
    by_cases hkey : key a = key c
    · rw [List.dropWhile_cons_of_pos (by simpa using hkey)] at hb
      exact ih (.cons (fun d hd => hle d (List.mem_cons_of_mem c hd)) htail) hb
    · rw [List.dropWhile_cons_of_neg (by simpa using hkey)] at hb
      have hac : key a < key c := Std.lt_of_le_of_ne (hle c List.mem_cons_self) hkey
      rcases List.mem_cons.mp hb with rfl | hb
      · exact hac
      · exact Std.lt_of_lt_of_le hac (hc b hb)

theorem increasing_dropRepeats (h : xs.Pairwise fun a b => key a ≤ key b) :
    Increasing key (dropRepeats (fun a b => key a == key b) xs) := by
  fun_induction dropRepeats (fun a b => key a == key b) xs with
  | case1 => exact .nil
  | case2 a rest ih =>
    refine .cons (fun b hb => lt_of_mem_dropWhile h ((dropRepeats_sublist _ _).subset hb)) (ih ?_)
    exact (List.pairwise_cons.mp h).2.sublist (List.dropWhile_sublist _)

theorem find?_dropRepeats (key : α → String) (xs : List α) (k : String) :
    (dropRepeats (fun a b => key a == key b) xs).find? (key · == k) = xs.find? (key · == k) := by
  fun_induction dropRepeats (fun a b => key a == key b) xs with
  | case1 => rfl
  | case2 a rest ih =>
    rw [List.find?_cons, List.find?_cons, ih]
    cases hk : key a == k with
    | true => rfl
    | false =>
      have htake : (rest.takeWhile fun b => key a == key b).find? (key · == k) = none := by
        refine List.find?_eq_none.mpr fun b hb => ?_
        have hb : key a = key b := by simpa using List.mem_takeWhile_imp hb
        simpa [← hb] using hk
      conv_rhs => rw [← List.takeWhile_append_dropWhile (p := fun b => key a == key b) (l := rest)]
      rw [List.find?_append, htake, Option.none_or]

end Keys

namespace Completion

theorem increasing_arrange (items : List CompletionItem) :
    Increasing CompletionItem.label (arrange items) :=
  increasing_dropRepeats (pairwise_sortByText CompletionItem.label items)

theorem find?_arrange (items : List CompletionItem) (label : String) :
    (arrange items).find? (·.label == label) = items.find? (·.label == label) := by
  rw [arrange, find?_dropRepeats, ← List.head?_filter, filter_sortByText, List.head?_filter]

theorem arrange_of_increasing {items : List CompletionItem}
    (h : Increasing CompletionItem.label items) : arrange items = items :=
  eq_of_find?_key (increasing_arrange items) h (find?_arrange items)

end Completion

end SemanticIndex.Server
