import SemanticIndex.Proofs.Index.Ancestry

namespace SemanticIndex

namespace IndexState

def inheritedNames (s : IndexState) (fqn : String) : List String :=
  match Fqn.splitMember? fqn with
  | some (owner, member) => ((s.ancestry [owner]).filter (· != owner)).map (· ++ member)
  | none => []

def trail (s : IndexState) (candidates : List String) : List String :=
  candidates ++ candidates.flatMap s.inheritedNames

theorem inherited?_eq (s : IndexState) (fqn : String) :
    s.inherited? fqn = (s.inheritedNames fqn).findSome? s.definition? := by
  unfold inherited? inheritedNames
  cases Fqn.splitMember? fqn with
  | none => rfl
  | some parts => simp [List.findSome?_map, Function.comp_def]

theorem lookup?_eq (s : IndexState) (candidates : List String) :
    s.lookup? candidates = (s.trail candidates).findSome? s.definition? := by
  have hi : candidates.findSome? s.inherited? =
      (candidates.flatMap s.inheritedNames).findSome? s.definition? := by
    rw [funext s.inherited?_eq]
    induction candidates with
    | nil => rfl
    | cons c candidates ih =>
      rw [List.findSome?_cons, List.flatMap_cons, List.findSome?_append, ih]
      cases (s.inheritedNames c).findSome? s.definition? <;> rfl
  rw [lookup?, trail, List.findSome?_append, hi]

theorem mem_inheritedNames {s : IndexState} {fqn name : String} :
    name ∈ s.inheritedNames fqn ↔ ∃ owner member type, Fqn.splitMember? fqn = some (owner, member) ∧
      s.Ancestor owner type ∧ type ≠ owner ∧ type ++ member = name := by
  unfold inheritedNames
  cases Fqn.splitMember? fqn with
  | none => simp
  | some parts =>
    obtain ⟨owner, member⟩ := parts
    simp [mem_ancestry, and_assoc]

theorem lookup?_eq_some_iff {s : IndexState} {candidates : List String} {d : Definition}
    (hm : d.fqn ∈ s.trail candidates) (hd : s.definition? d.fqn = some d) :
    s.lookup? candidates = some d ↔
      ∀ name ∈ (s.trail candidates).takeWhile (· != d.fqn), s.definition? name = none := by
  rw [lookup?_eq]
  generalize s.trail candidates = names at hm
  induction names with
  | nil => exact absurd hm List.not_mem_nil
  | cons name names ih =>
    by_cases hn : name = d.fqn
    · simp [hn, hd]
    · have hm := (List.mem_cons.mp hm).resolve_left (Ne.symm hn)
      rw [List.findSome?_cons, List.takeWhile_cons_of_pos (by simpa using hn)]
      cases hother : s.definition? name with
      | none => simpa [hother] using ih hm
      | some other =>
        have hne : other ≠ d := by
          rintro rfl
          exact hn (definition?_spec hother).1.symm
        simp [hother, hne]

namespace Extends

variable {s t : IndexState}

theorem mem_trail (h : Extends s t) {candidates : List String} {name : String}
    (hm : name ∈ s.trail candidates) : name ∈ t.trail candidates := by
  rcases List.mem_append.mp hm with hm | hm
  · exact List.mem_append_left _ hm
  · obtain ⟨c, hc, hm⟩ := List.mem_flatMap.mp hm
    obtain ⟨owner, member, type, hs, ha, hne, rfl⟩ := mem_inheritedNames.mp hm
    exact List.mem_append_right _ (List.mem_flatMap.mpr
      ⟨c, hc, mem_inheritedNames.mpr ⟨owner, member, type, hs, h.ancestor ha, hne, rfl⟩⟩)

theorem lookup?_stays_iff (h : Extends s t) {candidates : List String} {d : Definition}
    (hl : s.lookup? candidates = some d) :
    t.lookup? candidates = some d ↔
      ∀ name ∈ (t.trail candidates).takeWhile (· != d.fqn), t.definition? name = none := by
  rw [lookup?_eq] at hl
  obtain ⟨name, hm, hd⟩ := List.exists_of_findSome?_eq_some hl
  obtain ⟨rfl, -⟩ := definition?_spec hd
  exact lookup?_eq_some_iff (h.mem_trail hm) (h _ d hd)

end Extends

end IndexState

end SemanticIndex
