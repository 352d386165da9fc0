import Mathlib.Data.Nat.Find
import SemanticIndex.Proofs.Index.Ancestry
import SemanticIndex.Proofs.Index.FileList

namespace SemanticIndex

namespace Index

def generation (next : String → List String) : (k : Nat) → List String → List String
  | 0, names => names
  | k + 1, names => generation next k (names.flatMap next)

inductive Leads (next : String → List String) : Nat → String → String → Prop where
  | refl {a : String} : Leads next 0 a a
  | link {k : Nat} {a b c : String} (hab : b ∈ next a) (hbc : Leads next k b c) :
      Leads next (k + 1) a c

def fresh : (seen names : List String) → List String
  | _, [] => []
  | seen, name :: names =>
      if seen.contains name then fresh seen names else name :: fresh (name :: seen) names

variable {next : String → List String}

theorem mem_generation {k : Nat} {names : List String} {c : String} :
    c ∈ generation next k names ↔ ∃ a ∈ names, Leads next k a c := by
  induction k generalizing names with
  | zero =>
    constructor
    · exact fun hc => ⟨c, hc, .refl⟩
    · rintro ⟨a, ha, hac⟩
      cases hac
      exact ha
  | succ k ih =>
    rw [generation, ih]
    constructor
    · rintro ⟨b, hb, hbc⟩
      obtain ⟨a, ha, hab⟩ := List.mem_flatMap.mp hb
      exact ⟨a, ha, .link hab hbc⟩
    · rintro ⟨a, ha, hac⟩
      cases hac with
      | link hab hbc => exact ⟨_, List.mem_flatMap.mpr ⟨a, ha, hab⟩, hbc⟩

theorem leads_of_mem_generation {k : Nat} {a c : String} (h : c ∈ generation next k [a]) :
    Leads next k a c := by
  obtain ⟨b, hb, hbc⟩ := mem_generation.mp h
  rwa [List.mem_singleton.mp hb] at hbc

theorem exists_leads_iff {a c : String} :
    (∃ k, Leads next k a c) ↔ Relation.ReflTransGen (fun a b => b ∈ next a) a c := by
  constructor
  · rintro ⟨k, h⟩
    induction h with
    | refl => exact .refl
    | link hab _ ih => exact .head hab ih
  · intro h
    induction h using Relation.ReflTransGen.head_induction_on with
    | refl => exact ⟨0, .refl⟩
    | head hab _ ih =>
      obtain ⟨k, hk⟩ := ih
      exact ⟨k + 1, .link hab hk⟩

section Fresh

variable {seen seen' names : List String}

theorem mem_of_mem_fresh {a : String} (h : a ∈ fresh seen names) : a ∈ names := by
  fun_induction fresh seen names with
  | case1 seen => exact h
  | case2 seen name names hseen ih => exact List.mem_cons_of_mem name (ih h)
  | case3 seen name names hseen ih =>
    rcases List.mem_cons.mp h with rfl | h
    · exact List.mem_cons_self
    · exact List.mem_cons_of_mem name (ih h)

theorem mem_seen_or_fresh {a : String} (h : a ∈ names) : a ∈ seen ∨ a ∈ fresh seen names := by
  fun_induction fresh seen names with
  | case1 seen => exact absurd h List.not_mem_nil
  | case2 seen name names hseen ih =>
    rcases List.mem_cons.mp h with rfl | h
    · exact .inl (by simpa using hseen)
    · exact ih h
  | case3 seen name names hseen ih =>
    rcases List.mem_cons.mp h with rfl | h
    · exact .inr List.mem_cons_self
    · rcases ih h with ha | ha
      · rcases List.mem_cons.mp ha with rfl | ha
        · exact .inr List.mem_cons_self
        · exact .inl ha
      · exact .inr (List.mem_cons_of_mem name ha)

theorem fresh_congr (h : ∀ a, a ∈ seen ↔ a ∈ seen') : fresh seen names = fresh seen' names := by
  induction names generalizing seen seen' with
  | nil => rfl
  | cons name names ih =>
    have hname : seen.contains name = seen'.contains name := by
      rw [Bool.eq_iff_iff, List.contains_iff_mem, List.contains_iff_mem]
      exact h name
    have hmore : ∀ a, a ∈ name :: seen ↔ a ∈ name :: seen' := fun a => by
      rw [List.mem_cons, List.mem_cons, h]
    rw [fresh, fresh, hname, ih h, ih hmore]

theorem fresh_append (seen front rest : List String) :
    fresh seen (front ++ rest) = fresh seen front ++ fresh (front ++ seen) rest := by
  induction front generalizing seen with
  | nil => rfl
  | cons name front ih =>
    rw [List.cons_append, fresh, fresh]
    split
    · next hseen =>
      have hseen : name ∈ seen := by simpa using hseen
      rw [ih]
      congr 1
      refine fresh_congr fun a => ?_
      simp only [List.cons_append, List.mem_cons, List.mem_append]
      constructor
      · exact .inr
      · rintro (rfl | ha)
        · exact .inr hseen
        · exact ha
    · rw [ih, List.cons_append]
      congr 2
      refine fresh_congr fun a => ?_
      simp only [List.cons_append, List.mem_cons, List.mem_append]
      exact or_left_comm

theorem fresh_of_subset (h : ∀ a ∈ names, a ∈ seen) : fresh seen names = [] := by
  fun_induction fresh seen names with
  | case1 seen => rfl
  | case2 seen name names hseen ih => exact ih fun a ha => h a (List.mem_cons_of_mem name ha)
  | case3 seen name names hseen ih =>
    exact absurd (h name List.mem_cons_self) (by simpa using hseen)

theorem findSome?_fresh {β : Type} {f : String → Option β} (h : ∀ a ∈ seen, f a = none) :
    (fresh seen names).findSome? f = names.findSome? f := by
  fun_induction fresh seen names with
  | case1 seen => rfl
  | case2 seen name names hseen ih =>
    rw [List.findSome?_cons, h name (by simpa using hseen)]
    exact ih h
  | case3 seen name names hseen ih =>
    rw [List.findSome?_cons, List.findSome?_cons]
    cases hname : f name with
    | some b => rfl
    | none =>
      refine ih fun a ha => ?_
      rcases List.mem_cons.mp ha with rfl | ha
      · exact hname
      · exact h a ha

theorem nodup_fresh (h : seen.Nodup) : ((fresh seen names).reverse ++ seen).Nodup := by
  fun_induction fresh seen names with
  | case1 seen => exact h
  | case2 seen name names hseen ih => exact ih h
  | case3 seen name names hseen ih =>
    rw [List.reverse_cons, List.append_assoc, List.singleton_append]
    exact ih (List.nodup_cons.mpr ⟨by simpa using hseen, h⟩)

theorem fresh_flatMap {known : List String} (h : ∀ a ∈ seen, ∀ b ∈ next a, b ∈ known) :
    fresh known ((fresh seen names).flatMap next) = fresh known (names.flatMap next) := by
  induction names generalizing seen known with
  | nil => rfl
  | cons name names ih =>
    rw [List.flatMap_cons, fresh_append, fresh]
    split
    · next hseen =>
      have hknown := h name (by simpa using hseen)
      rw [fresh_of_subset hknown, List.nil_append, ih h]
      refine fresh_congr fun a => ?_
      rw [List.mem_append]
      exact ⟨.inr, fun ha => ha.elim (hknown a) id⟩
    · rw [List.flatMap_cons, fresh_append]
      congr 1
      refine ih fun a ha b hb => List.mem_append.mpr ?_
      rcases List.mem_cons.mp ha with rfl | ha
      · exact .inl hb
      · exact .inr (h a ha b hb)

end Fresh

theorem walk_append (fuel : Nat) (seen front rest : List String) :
    walk next (front.length + fuel) seen (front ++ rest) =
      fresh seen front ++ walk next fuel ((fresh seen front).reverse ++ seen)
        (rest ++ (fresh seen front).flatMap next) := by
  induction front generalizing seen rest with
  | nil => simp [fresh]
  | cons name front ih =>
    rw [List.length_cons, Nat.add_right_comm, List.cons_append, walk, fresh]
    split
    · exact ih seen rest
    · rw [List.append_assoc, ih, List.cons_append, List.reverse_cons, List.flatMap_cons]
      simp only [List.append_assoc, List.singleton_append]

theorem walk_layer (fuel : Nat) (seen queue : List String) :
    walk next (queue.length + fuel) seen queue =
      fresh seen queue ++ walk next fuel ((fresh seen queue).reverse ++ seen)
        ((fresh seen queue).flatMap next) := by
  simpa using @walk_append next fuel seen queue []

theorem links_reverse_append (names seen : List String) :
    links next (names.reverse ++ seen) = (names.flatMap next).length + links next seen := by
  induction names generalizing seen with
  | nil => simp
  | cons name names ih =>
    rw [List.reverse_cons, List.append_assoc, List.singleton_append, ih, List.flatMap_cons,
      List.length_append]
    simp only [links, total, List.foldr_cons]
    omega

section Layers

variable {β : Type} {f : String → Option β} {bound fuel k : Nat} {seen queue names : List String}

structure Abreast (next : String → List String) (f : String → Option β) (bound fuel : Nat)
    (seen queue names : List String) : Prop where
  nodup : seen.Nodup
  fuelled : queue.length + bound ≤ fuel + links next seen
  missed : ∀ a ∈ seen, f a = none
  closed : ∀ a ∈ seen, ∀ b ∈ next a, b ∈ seen ∨ b ∈ queue
  same : fresh seen queue = fresh seen names

theorem Abreast.exists_fuel (hbound : ∀ names : List String, names.Nodup → links next names ≤ bound)
    (h : Abreast next f bound fuel seen queue names) : ∃ n, fuel = queue.length + n := by
  have hlinks := hbound seen h.nodup
  have hfuel := h.fuelled
  exact ⟨fuel - queue.length, by omega⟩

theorem Abreast.findSome?_fresh (h : Abreast next f bound fuel seen queue names) :
    (fresh seen queue).findSome? f = names.findSome? f := by
  rw [h.same, Index.findSome?_fresh h.missed]

theorem Abreast.next_layer (h : Abreast next f bound (queue.length + fuel) seen queue names)
    (hnone : ∀ a ∈ names, f a = none) :
    Abreast next f bound fuel ((fresh seen queue).reverse ++ seen) ((fresh seen queue).flatMap next)
      (names.flatMap next) := by
  have hseen : ∀ a ∈ seen, ∀ b ∈ next a, b ∈ (fresh seen queue).reverse ++ seen := by
    intro a ha b hb
    rw [List.mem_append, List.mem_reverse]
    rcases h.closed a ha b hb with hb | hb
    · exact .inr hb
    · exact (mem_seen_or_fresh hb).symm
  constructor
  · exact nodup_fresh h.nodup
  · have hfuel := h.fuelled
    rw [links_reverse_append]
    omega
  · intro a ha
    rcases List.mem_append.mp ha with ha | ha
    · rw [List.mem_reverse, h.same] at ha
      exact hnone a (mem_of_mem_fresh ha)
    · exact h.missed a ha
  · intro a ha b hb
    rcases List.mem_append.mp ha with ha | ha
    · exact .inr (List.mem_flatMap.mpr ⟨a, List.mem_reverse.mp ha, hb⟩)
    · exact .inl (hseen a ha b hb)
  · rw [h.same] at hseen ⊢
    exact fresh_flatMap hseen

theorem findSome?_walk (hbound : ∀ names : List String, names.Nodup → links next names ≤ bound)
    (h : Abreast next f bound fuel seen queue names)
    (hbefore : ∀ j < k, ∀ a ∈ generation next j names, f a = none)
    (hanswer : ((generation next k names).findSome? f).isSome) :
    (walk next fuel seen queue).findSome? f = (generation next k names).findSome? f := by
  induction k generalizing fuel seen queue names with
  | zero =>
    obtain ⟨fuel, rfl⟩ : ∃ n, fuel = queue.length + n := h.exists_fuel hbound
    obtain ⟨b, hb⟩ := Option.isSome_iff_exists.mp hanswer
    rw [generation] at hb ⊢
    rw [walk_layer, List.findSome?_append, h.findSome?_fresh, hb, Option.some_or]
  | succ k ih =>
    obtain ⟨fuel, rfl⟩ : ∃ n, fuel = queue.length + n := h.exists_fuel hbound
    have hnone : ∀ a ∈ names, f a = none := hbefore 0 (Nat.succ_pos k)
    rw [walk_layer, List.findSome?_append, h.findSome?_fresh, List.findSome?_eq_none_iff.mpr hnone,
      Option.none_or]
    exact ih (h.next_layer hnone) (fun j hj => hbefore (j + 1) (Nat.succ_lt_succ hj)) hanswer

end Layers

end Index

theorem Fqn.splitMember?_append {fqn owner member : String}
    (h : splitMember? fqn = some (owner, member)) : fqn = owner ++ member := by
  obtain ⟨parts, hparts, heq⟩ := Option.map_eq_some_iff.mp h
  cases heq
  rw [← String.ofList_append, ← splitChars?_append hparts, String.ofList_toList]

namespace IndexState

open Index

variable {s : IndexState} {fqn owner member : String}

def memberIn (s : IndexState) (owner member name : String) : Option Definition :=
  if name = owner then none else s.definition? (name ++ member)

inductive Searches (s : IndexState) (owner member : String) :
    (seen queue : List String) → Option Definition → Prop where
  | exhausted {seen : List String} : Searches s owner member seen [] none
  | again {seen queue : List String} {name : String} {answer : Option Definition}
      (hseen : name ∈ seen) (hrest : Searches s owner member seen queue answer) :
      Searches s owner member seen (name :: queue) answer
  | found {seen queue : List String} {name : String} {d : Definition} (hnew : name ∉ seen)
      (hd : s.memberIn owner member name = some d) :
      Searches s owner member seen (name :: queue) (some d)
  | onward {seen queue : List String} {name : String} {answer : Option Definition}
      (hnew : name ∉ seen) (hd : s.memberIn owner member name = none)
      (hrest : Searches s owner member (name :: seen) (queue ++ s.parents name) answer) :
      Searches s owner member seen (name :: queue) answer

theorem Searches.unique {seen queue : List String} {answer answer' : Option Definition}
    (h : Searches s owner member seen queue answer)
    (h' : Searches s owner member seen queue answer') : answer = answer' := by
  induction h with
  | exhausted =>
    cases h'
    rfl
  | again hseen _ ih =>
    cases h' with
    | again _ hrest => exact ih hrest
    | found hnew _ => exact absurd hseen hnew
    | onward hnew _ _ => exact absurd hseen hnew
  | found hnew hd =>
    cases h' with
    | again hseen _ => exact absurd hseen hnew
    | found _ hd' => exact hd.symm.trans hd'
    | onward _ hd' _ => rw [hd] at hd'; cases hd'
  | onward hnew hd _ ih =>
    cases h' with
    | again hseen _ => exact absurd hseen hnew
    | found _ hd' => rw [hd] at hd'; cases hd'
    | onward _ _ hrest => exact ih hrest

theorem searches_walk (owner member : String) (fuel : Nat) (seen queue : List String)
    (hs : seen.Nodup) (hf : queue.length + s.linkCount ≤ fuel + links s.parents seen) :
    s.Searches owner member seen queue
      ((walk s.parents fuel seen queue).findSome? (s.memberIn owner member)) := by
  induction fuel generalizing seen queue with
  | zero =>
    have hlinks := s.links_le_linkCount hs
    obtain rfl : queue = [] := List.eq_nil_of_length_eq_zero (by omega)
    exact .exhausted
  | succ fuel ih =>
    cases queue with
    | nil => exact .exhausted
    | cons name queue =>
      rw [List.length_cons] at hf
      unfold walk
      split
      · next hseen => exact .again (by simpa using hseen) (ih seen queue hs (by omega))
      · next hseen =>
        have hnew : name ∉ seen := by simpa using hseen
        have hmore : links s.parents (name :: seen) =
            (s.parents name).length + links s.parents seen := rfl
        rw [List.findSome?_cons]
        cases hd : s.memberIn owner member name with
        | some d => exact .found hnew hd
        | none =>
          refine .onward hnew hd (ih _ _ (List.nodup_cons.mpr ⟨hnew, hs⟩) ?_)
          rw [List.length_append, hmore]
          omega

theorem inherited?_eq_findSome? (hsplit : Fqn.splitMember? fqn = some (owner, member)) :
    s.inherited? fqn = (s.ancestry [owner]).findSome? (s.memberIn owner member) := by
  simp only [inherited?, hsplit, Option.bind_eq_bind, Option.bind_some]
  induction s.ancestry [owner] with
  | nil => rfl
  | cons name names ih =>
    by_cases hname : name = owner
    · simp [memberIn, hname, ih]
    · simp [memberIn, hname, ih, List.findSome?_cons]

theorem searches_iff (hsplit : Fqn.splitMember? fqn = some (owner, member))
    {answer : Option Definition} :
    s.Searches owner member [] [owner] answer ↔ answer = s.inherited? fqn := by
  have hsearch := s.searches_walk owner member ([owner].length + s.linkCount) [] [owner]
    List.nodup_nil (Nat.le_refl _)
  rw [inherited?_eq_findSome? hsplit]
  constructor
  · exact fun h => h.unique hsearch
  · rintro rfl
    exact hsearch

section Generations

variable {β : Type} {start : List String} {f : String → Option β} {k : Nat}

theorem findSome?_ancestry (hbefore : ∀ j < k, ∀ a ∈ generation s.parents j start, f a = none)
    (hanswer : ((generation s.parents k start).findSome? f).isSome) :
    (s.ancestry start).findSome? f = (generation s.parents k start).findSome? f :=
  findSome?_walk (fun _ hn => s.links_le_linkCount hn)
    ⟨List.nodup_nil, Nat.le_refl _, nofun, nofun, rfl⟩ hbefore hanswer

theorem exists_first_generation (h : ((s.ancestry start).findSome? f).isSome) :
    ∃ k, ((generation s.parents k start).findSome? f).isSome ∧
      ∀ j < k, ∀ a ∈ generation s.parents j start, f a = none := by
  have hsome : ∃ k, ((generation s.parents k start).findSome? f).isSome := by
    obtain ⟨name, hname, hf⟩ := List.findSome?_isSome_iff.mp h
    obtain ⟨a, ha, hreach⟩ := mem_ancestry.mp hname
    obtain ⟨k, hk⟩ := exists_leads_iff.mpr hreach
    exact ⟨k, List.findSome?_isSome_iff.mpr ⟨name, mem_generation.mpr ⟨a, ha, hk⟩, hf⟩⟩
  refine ⟨Nat.find hsome, Nat.find_spec hsome, fun j hj => ?_⟩
  have hnone := Nat.find_min hsome hj
  rwa [Option.not_isSome_iff_eq_none, List.findSome?_eq_none_iff] at hnone

end Generations

theorem inherited?_eq_generation (hsplit : Fqn.splitMember? fqn = some (owner, member)) {k : Nat}
    (hbefore : ∀ j < k, ∀ a ∈ generation s.parents j [owner], s.memberIn owner member a = none)
    (hanswer : ((generation s.parents k [owner]).findSome? (s.memberIn owner member)).isSome) :
    s.inherited? fqn = (generation s.parents k [owner]).findSome? (s.memberIn owner member) := by
  rw [inherited?_eq_findSome? hsplit]
  exact findSome?_ancestry hbefore hanswer

theorem memberIn_eq_some {name : String} {d : Definition} :
    s.memberIn owner member name = some d ↔
      name ≠ owner ∧ s.definition? (name ++ member) = some d := by
  unfold memberIn
  split
  · next h => simp [h]
  · next h => simp [h]

theorem memberIn_eq_none {name : String} :
    s.memberIn owner member name = none ↔
      (name ≠ owner → s.definition? (name ++ member) = none) := by
  unfold memberIn
  split
  · next h => simp [h]
  · next h => simp [h]

theorem exists_generation (hsplit : Fqn.splitMember? fqn = some (owner, member))
    (h : (s.inherited? fqn).isSome) :
    ∃ k, ((generation s.parents k [owner]).findSome? (s.memberIn owner member)).isSome ∧
      ∀ j < k, ∀ a ∈ generation s.parents j [owner], s.memberIn owner member a = none := by
  rw [inherited?_eq_findSome? hsplit] at h
  exact exists_first_generation h

theorem nearest_definition_is_inherited (s : IndexState) (fqn owner member : String)
    (hsplit : Fqn.splitMember? fqn = some (owner, member)) :
    fqn = owner ++ member ∧
      (∀ answer, s.Searches owner member [] [owner] answer ↔ answer = s.inherited? fqn) ∧
      ((s.inherited? fqn).isSome ↔ ∃ name, name ≠ owner ∧ s.Ancestor owner name ∧
        (s.definition? (name ++ member)).isSome) ∧
      ∀ d, s.inherited? fqn = some d → ∃ k name front rest,
        name ≠ owner ∧ Leads s.parents k owner name ∧ s.definition? (name ++ member) = some d ∧
        (∀ j < k, ∀ other, Leads s.parents j owner other → other ≠ owner →
          s.definition? (other ++ member) = none) ∧
        generation s.parents k [owner] = front ++ name :: rest ∧
        ∀ other ∈ front, other ≠ owner → s.definition? (other ++ member) = none := by
  refine ⟨?_, fun answer => searches_iff hsplit, ?_, fun d hd => ?_⟩
  · exact Fqn.splitMember?_append hsplit
  · rw [inherited?_isSome_iff]
    simp only [hsplit, Option.some.injEq, Prod.mk.injEq]
    constructor
    · rintro ⟨_, _, name, ⟨rfl, rfl⟩, hreach, hname, hd⟩
      exact ⟨name, hname, hreach, hd⟩
    · rintro ⟨name, hname, hreach, hd⟩
      exact ⟨owner, member, name, ⟨rfl, rfl⟩, hreach, hname, hd⟩
  · obtain ⟨k, hanswer, hbefore⟩ := exists_generation hsplit (Option.isSome_iff_exists.mpr ⟨d, hd⟩)
    rw [inherited?_eq_generation hsplit hbefore hanswer, List.findSome?_eq_some_iff] at hd
    obtain ⟨front, name, rest, hlist, hd, hfront⟩ := hd
    obtain ⟨hname, hd⟩ := memberIn_eq_some.mp hd
    have hmem : name ∈ generation s.parents k [owner] := by rw [hlist]; simp
    refine ⟨k, name, front, rest, hname, leads_of_mem_generation hmem, hd, ?_, hlist, ?_⟩
    · intro j hj other hother
      exact memberIn_eq_none.mp (hbefore j hj other (mem_generation.mpr ⟨owner, by simp, hother⟩))
    · exact fun other hother => memberIn_eq_none.mp (hfront other hother)

def relatives (types : List (String × List String)) : File :=
  { File.outline "file:///a.php" [] [] with
    definitions := types.map fun (fqn, parents) =>
      ⟨fqn, fqn, .classType, "file:///a.php", ⟨⟨0, 0⟩, ⟨0, 0⟩⟩, none, none, none, parents⟩ }

theorem nearest_definition_is_inherited_in_circle :
    let s := (Repository.empty.run [.upsert (relatives
      [("A", ["Gone", "B", "C", "B"]), ("B", ["A", "D"]), ("C", ["E"]), ("D", []), ("E", []),
       ("A::m()", []), ("E::m()", []), ("D::m()", [])])]).state
    Fqn.splitMember? "A::m()" = some ("A", "::m()") ∧
      s.Searches "A" "::m()" [] ["A"] (s.inherited? "A::m()") ∧
      (s.inherited? "A::m()").map Definition.fqn = some "D::m()" ∧
      ∃ k front rest, Leads s.parents k "A" "D" ∧
        generation s.parents k ["A"] = front ++ "D" :: rest ∧
        ∀ other ∈ front, other ≠ "A" → s.definition? (other ++ "::m()") = none := by
  intro s
  have hsplit : Fqn.splitMember? "A::m()" = some ("A", "::m()") := by decide +kernel
  have hfound : (s.inherited? "A::m()").map Definition.fqn = some "D::m()" := by decide +kernel
  obtain ⟨-, hsearch, -, hnearest⟩ :=
    nearest_definition_is_inherited s "A::m()" "A" "::m()" hsplit
  obtain ⟨d, hd, hfqn⟩ := Option.map_eq_some_iff.mp hfound
  obtain ⟨k, name, front, rest, -, hleads, hmember, -, hlist, hfront⟩ := hnearest d hd
  obtain rfl : name = "D" := by
    have hname : name ++ "::m()" = "D" ++ "::m()" := (definition?_spec hmember).1.symm.trans hfqn
    exact (String.append_left_inj _).mp hname
  exact ⟨hsplit, (hsearch _).mpr rfl, hfound, k, front, rest, hleads, hlist, hfront⟩

end IndexState

end SemanticIndex
