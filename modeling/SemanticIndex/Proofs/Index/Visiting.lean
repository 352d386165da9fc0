import SemanticIndex.Proofs.Index.Inheritance

namespace SemanticIndex

namespace Index

variable {next : String → List String} {seen queue visited : List String}

inductive Visits (next : String → List String) : (seen queue visited : List String) → Prop where
  | done {seen : List String} : Visits next seen [] []
  | again {seen queue visited : List String} {name : String} (hseen : name ∈ seen)
      (hrest : Visits next seen queue visited) : Visits next seen (name :: queue) visited
  | visit {seen queue visited : List String} {name : String} (hnew : name ∉ seen)
      (hrest : Visits next (name :: seen) (queue ++ next name) visited) :
      Visits next seen (name :: queue) (name :: visited)

theorem Visits.unique {visited' : List String} (h : Visits next seen queue visited)
    (h' : Visits next seen queue visited') : visited = visited' := by
  induction h generalizing visited' with
  | done =>
    cases h'
    rfl
  | again hseen _ ih =>
    cases h' with
    | again _ hrest => exact ih hrest
    | visit hnew _ => exact absurd hseen hnew
  | visit hnew _ ih =>
    cases h' with
    | again hseen _ => exact absurd hseen hnew
    | visit _ hrest => rw [ih hrest]

theorem visits_walk {bound : Nat}
    (hbound : ∀ names : List String, names.Nodup → links next names ≤ bound) (fuel : Nat)
    (seen queue : List String) (hs : seen.Nodup)
    (hf : queue.length + bound ≤ fuel + links next seen) :
    Visits next seen queue (walk next fuel seen queue) := by
  induction fuel generalizing seen queue with
  | zero =>
    have := hbound seen hs
    obtain rfl : queue = [] := List.eq_nil_of_length_eq_zero (by omega)
    exact .done
  | succ fuel ih =>
    cases queue with
    | nil => exact .done
    | cons name queue =>
      rw [List.length_cons] at hf
      unfold walk
      split
      · next hseen => exact .again (by simpa using hseen) (ih seen queue hs (by omega))
      · next hseen =>
        have hnew : name ∉ seen := by simpa using hseen
        have hmore : links next (name :: seen) = (next name).length + links next seen := rfl
        refine .visit hnew (ih _ _ (List.nodup_cons.mpr ⟨hnew, hs⟩) ?_)
        rw [List.length_append, hmore]
        omega

structure Nearest (next : String → List String) (start : List String) (P : String → Prop)
    (name : String) : Prop where
  holds : P name
  visited : ∃ front rest, Visits next [] start (front ++ name :: rest) ∧ ∀ other ∈ front, ¬P other
  closest : ∃ k front rest, generation next k start = front ++ name :: rest ∧
    (∀ j < k, ∀ other ∈ generation next j start, ¬P other) ∧ ∀ other ∈ front, ¬P other

end Index

namespace IndexState

open Index

variable {β : Type} {s : IndexState} {start : List String} {f : String → Option β}

theorem visits_iff {visited : List String} :
    Visits s.parents [] start visited ↔ visited = s.ancestry start := by
  have hwalk : Visits s.parents [] start (s.ancestry start) :=
    visits_walk (fun _ hn => s.links_le_linkCount hn) _ [] start List.nodup_nil (Nat.le_refl _)
  constructor
  · exact fun h => h.unique hwalk
  · rintro rfl
    exact hwalk

theorem exists_nearest {P : String → Prop} (hP : ∀ name, P name ↔ (f name).isSome) {b : β}
    (h : (s.ancestry start).findSome? f = some b) :
    ∃ name, f name = some b ∧ Nearest s.parents start P name := by
  have hnot {name : String} (hf : f name = none) : ¬P name := by rw [hP, hf]; simp
  obtain ⟨front, name, rest, hlist, hf, hfront⟩ := List.findSome?_eq_some_iff.mp h
  have hvisits : Visits s.parents [] start (front ++ name :: rest) := visits_iff.mpr hlist.symm
  let found : String → Option String := fun name => (f name).map fun _ => name
  have hfound : (s.ancestry start).findSome? found = some name := by
    refine List.findSome?_eq_some_iff.mpr ⟨front, name, rest, hlist, ?_, fun other hother => ?_⟩
    · simp only [found, hf, Option.map_some]
    · simp only [found, hfront other hother, Option.map_none]
  obtain ⟨k, hanswer, hbefore⟩ :=
    exists_first_generation (Option.isSome_iff_exists.mpr ⟨name, hfound⟩)
  rw [findSome?_ancestry hbefore hanswer, List.findSome?_eq_some_iff] at hfound
  obtain ⟨before, name', after, hgeneration, hname, hnone⟩ := hfound
  obtain ⟨_, -, rfl⟩ := Option.map_eq_some_iff.mp hname
  refine ⟨name', hf, (hP name').mpr (by rw [hf]; rfl), ⟨front, rest, hvisits, ?_⟩,
    k, before, after, hgeneration, ?_, ?_⟩
  · exact fun other hother => hnot (hfront other hother)
  · exact fun j hj other hother => hnot (Option.map_eq_none_iff.mp (hbefore j hj other hother))
  · exact fun other hother => hnot (Option.map_eq_none_iff.mp (hnone other hother))

end IndexState

end SemanticIndex
