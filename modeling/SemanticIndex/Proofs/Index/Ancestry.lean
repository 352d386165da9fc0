import SemanticIndex.Index.Lookup
import Mathlib.Logic.Relation

namespace SemanticIndex

namespace Index

theorem total_perm {α : Type} (measure : α → Nat) {xs ys : List α} (h : xs.Perm ys) :
    total measure xs = total measure ys := by
  induction h with
  | nil => rfl
  | cons x _ ih => exact congrArg (measure x + ·) ih
  | swap x y xs =>
    simp only [total, List.foldr_cons]
    omega
  | trans _ _ ih ih' => exact ih.trans ih'

def links (next : String → List String) (names : List String) : Nat :=
  total (fun name => (next name).length) names

variable {next : String → List String}

theorem walk_sound (P : String → Prop) (hstep : ∀ a, P a → ∀ b ∈ next a, P b) (fuel : Nat)
    (seen queue : List String) (hq : ∀ a ∈ queue, P a) : ∀ a ∈ walk next fuel seen queue, P a := by
  induction fuel generalizing seen queue with
  | zero => intro a ha; simp [walk] at ha
  | succ fuel ih =>
    cases queue with
    | nil => intro a ha; simp [walk] at ha
    | cons x queue =>
      have hx := hq x List.mem_cons_self
      have hrest : ∀ a ∈ queue, P a := fun a ha => hq a (List.mem_cons_of_mem x ha)
      unfold walk
      split
      · exact ih seen queue hrest
      · intro a ha
        rcases List.mem_cons.mp ha with rfl | ha
        · exact hx
        · refine ih _ _ ?_ a ha
          intro b hb
          rcases List.mem_append.mp hb with hb | hb
          · exact hrest b hb
          · exact hstep x hx b hb

-- The fuel covers the queue and every link that a name not yet seen can still add to it.
theorem walk_closed {bound : Nat}
    (hbound : ∀ names : List String, names.Nodup → links next names ≤ bound) (fuel : Nat)
    (seen queue : List String) (hs : seen.Nodup)
    (hf : queue.length + bound ≤ fuel + links next seen) :
    (∀ a ∈ queue, a ∈ seen ∨ a ∈ walk next fuel seen queue) ∧
      ∀ a ∈ walk next fuel seen queue, ∀ b ∈ next a,
        b ∈ seen ∨ b ∈ walk next fuel seen queue := by
  induction fuel generalizing seen queue with
  | zero =>
    have := hbound seen hs
    have hq : queue = [] := List.eq_nil_of_length_eq_zero (by omega)
    simp [hq, walk]
  | succ fuel ih =>
    cases queue with
    | nil => simp [walk]
    | cons x queue =>
      unfold walk
      split
      · next hx =>
        have hx : x ∈ seen := by simpa using hx
        obtain ⟨hq, hc⟩ := ih seen queue hs (by simp only [List.length_cons] at hf; omega)
        refine ⟨?_, hc⟩
        intro a ha
        rcases List.mem_cons.mp ha with rfl | ha
        · exact .inl hx
        · exact hq a ha
      · next hx =>
        have hs' : (x :: seen).Nodup := List.nodup_cons.mpr ⟨by simpa using hx, hs⟩
        have hl : links next (x :: seen) = (next x).length + links next seen := rfl
        obtain ⟨hq, hc⟩ := ih (x :: seen) (queue ++ next x) hs' (by
          simp only [List.length_cons, List.length_append] at hf ⊢
          omega)
        have shift {b : String}
            (hb : b ∈ x :: seen ∨ b ∈ walk next fuel (x :: seen) (queue ++ next x)) :
            b ∈ seen ∨ b ∈ x :: walk next fuel (x :: seen) (queue ++ next x) := by
          simp only [List.mem_cons] at hb ⊢
          rcases hb with (rfl | hb) | hb
          · exact .inr (.inl rfl)
          · exact .inl hb
          · exact .inr (.inr hb)
        constructor
        · intro a ha
          rcases List.mem_cons.mp ha with rfl | ha
          · exact .inr List.mem_cons_self
          · exact shift (hq a (List.mem_append_left _ ha))
        · intro a ha b hb
          rcases List.mem_cons.mp ha with rfl | ha
          · exact shift (hq b (List.mem_append_right _ hb))
          · exact shift (hc a ha b hb)

theorem mem_walk_iff {bound : Nat}
    (hbound : ∀ names : List String, names.Nodup → links next names ≤ bound)
    {start : List String} {name : String} :
    name ∈ walk next (start.length + bound) [] start ↔
      ∃ a ∈ start, Relation.ReflTransGen (fun a b => b ∈ next a) a name := by
  constructor
  · refine walk_sound (fun b => ∃ a ∈ start, Relation.ReflTransGen (fun a b => b ∈ next a) a b)
      ?_ _ [] start (fun a ha => ⟨a, ha, .refl⟩) name
    rintro b ⟨a, ha, hab⟩ c hc
    exact ⟨a, ha, hab.tail hc⟩
  · rintro ⟨a, ha, hab⟩
    obtain ⟨hq, hc⟩ := walk_closed hbound (start.length + bound) [] start List.nodup_nil (by omega)
    simp only [List.not_mem_nil, false_or] at hq hc
    induction hab with
    | refl => exact hq a ha
    | tail _ hbc ih => exact hc _ ih _ hbc

end Index

namespace IndexState

def Builds (s : IndexState) (name parent : String) : Prop := parent ∈ s.parents name

def Ancestor (s : IndexState) : String → String → Prop := Relation.ReflTransGen s.Builds

theorem definition?_spec {s : IndexState} {fqn : String} {d : Definition}
    (h : s.definition? fqn = some d) :
    d.fqn = fqn ∧ d ∈ s.stored.flatMap fun slot => slot.file.definitions := by
  simp only [definition?, Option.bind_eq_bind, Option.bind_eq_some_iff, file?,
    Option.map_eq_some_iff] at h
  obtain ⟨uri, -, f, ⟨slot, hs, rfl⟩, hd⟩ := h
  refine ⟨by simpa using List.find?_some hd, ?_⟩
  refine List.mem_flatMap.mpr ⟨slot, ?_, List.mem_of_find?_eq_some hd⟩
  exact List.mem_map.mpr ⟨(uri, slot), Std.ExtTreeMap.mem_toList_iff_getElem?_eq_some.mpr hs, rfl⟩

theorem links_le_total {next : String → List String} {ds : List Definition} {names : List String}
    (hn : names.Nodup)
    (h : ∀ name ∈ names, next name = [] ∨ ∃ d ∈ ds, d.fqn = name ∧ next name = d.parents) :
    Index.links next names ≤ Index.total (fun d => d.parents.length) ds := by
  induction names generalizing ds with
  | nil => exact Nat.zero_le _
  | cons name names ih =>
    obtain ⟨hnew, hn⟩ := List.nodup_cons.mp hn
    have hl : Index.links next (name :: names) = (next name).length + Index.links next names := rfl
    rcases h name List.mem_cons_self with he | ⟨d, hd, hf, he⟩
    · rw [hl, he, List.length_nil, Nat.zero_add]
      exact ih hn fun other ho => h other (List.mem_cons_of_mem name ho)
    · have hrest : Index.links next names ≤
          Index.total (fun d => d.parents.length) (ds.erase d) := by
        refine ih hn fun other ho => ?_
        rcases h other (List.mem_cons_of_mem name ho) with he' | ⟨d', hd', hf', he'⟩
        · exact .inl he'
        · refine .inr ⟨d', (List.mem_erase_of_ne ?_).mpr hd', hf', he'⟩
          rintro rfl
          exact hnew (hf ▸ hf' ▸ ho)
      rw [hl, he, Index.total_perm _ (List.perm_cons_erase hd)]
      exact Nat.add_le_add_left hrest _

theorem links_le_linkCount (s : IndexState) {names : List String} (hn : names.Nodup) :
    Index.links s.parents names ≤ s.linkCount := by
  refine links_le_total hn fun name _ => ?_
  unfold parents
  cases hd : s.definition? name with
  | none => exact .inl rfl
  | some d =>
    obtain ⟨hf, hm⟩ := definition?_spec hd
    exact .inr ⟨d, hm, hf, rfl⟩

theorem mem_ancestry {s : IndexState} {start : List String} {name : String} :
    name ∈ s.ancestry start ↔ ∃ a ∈ start, s.Ancestor a name :=
  Index.mem_walk_iff fun _ hn => s.links_le_linkCount hn

theorem inherited?_isSome_iff {s : IndexState} {fqn : String} :
    (s.inherited? fqn).isSome ↔ ∃ owner member name, Fqn.splitMember? fqn = some (owner, member) ∧
      s.Ancestor owner name ∧ name ≠ owner ∧ (s.definition? (name ++ member)).isSome := by
  unfold inherited?
  cases hs : Fqn.splitMember? fqn with
  | none => simp
  | some parts =>
    obtain ⟨owner, member⟩ := parts
    simp [List.findSome?_isSome_iff, mem_ancestry, and_assoc]

def Extends (s t : IndexState) : Prop :=
  ∀ (fqn : String) (d : Definition), s.definition? fqn = some d → t.definition? fqn = some d

namespace Extends

variable {s t : IndexState}

theorem trans {u : IndexState} (h : Extends s t) (h' : Extends t u) : Extends s u :=
  fun fqn d hd => h' fqn d (h fqn d hd)

theorem definition?_isSome (h : Extends s t) {fqn : String} (hd : (s.definition? fqn).isSome) :
    (t.definition? fqn).isSome := by
  obtain ⟨d, hd⟩ := Option.isSome_iff_exists.mp hd
  exact Option.isSome_iff_exists.mpr ⟨d, h fqn d hd⟩

theorem builds (h : Extends s t) {a b : String} (hb : s.Builds a b) : t.Builds a b := by
  unfold Builds parents at hb ⊢
  cases hd : s.definition? a with
  | none => simp [hd] at hb
  | some d =>
    rw [hd] at hb
    rwa [h a d hd]

theorem ancestor (h : Extends s t) {a b : String} (hab : s.Ancestor a b) : t.Ancestor a b :=
  Relation.ReflTransGen.mono (fun _ _ => h.builds) _ _ hab

theorem inherited?_isSome (h : Extends s t) {fqn : String} (hi : (s.inherited? fqn).isSome) :
    (t.inherited? fqn).isSome := by
  obtain ⟨owner, member, name, hs, ha, hne, hd⟩ := inherited?_isSome_iff.mp hi
  exact inherited?_isSome_iff.mpr
    ⟨owner, member, name, hs, h.ancestor ha, hne, h.definition?_isSome hd⟩

theorem lookup?_isSome (h : Extends s t) {candidates : List String}
    (hl : (s.lookup? candidates).isSome) : (t.lookup? candidates).isSome := by
  simp only [lookup?, Option.isSome_or, Bool.or_eq_true, List.findSome?_isSome_iff] at hl ⊢
  rcases hl with ⟨c, hc, hd⟩ | ⟨c, hc, hi⟩
  · exact .inl ⟨c, hc, h.definition?_isSome hd⟩
  · exact .inr ⟨c, hc, h.inherited?_isSome hi⟩

theorem lookup?_eq_none (h : Extends s t) {candidates : List String}
    (hl : t.lookup? candidates = none) : s.lookup? candidates = none := by
  apply Option.not_isSome_iff_eq_none.mp
  intro hs
  simpa [hl] using h.lookup?_isSome hs

end Extends

end IndexState

end SemanticIndex
