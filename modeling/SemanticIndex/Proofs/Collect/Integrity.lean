import SemanticIndex.Proofs.Collect.Records
import SemanticIndex.Proofs.Resolve.Choices

namespace SemanticIndex

open Resolve

theorem perm_flatMap_filter {α κ : Type} [BEq κ] [LawfulBEq κ] (key : α → κ) {keys : List κ}
    (hn : keys.Nodup) {xs : List α} (hall : ∀ a ∈ xs, key a ∈ keys) :
    (keys.flatMap fun k => xs.filter (key · == k)).Perm xs := by
  induction keys generalizing xs with
  | nil =>
    cases xs with
    | nil => exact .refl _
    | cons a xs => exact absurd (hall a List.mem_cons_self) List.not_mem_nil
  | cons k keys ih =>
    obtain ⟨hk, hn⟩ := List.nodup_cons.mp hn
    have hrest : (keys.flatMap fun k' => xs.filter (key · == k')) =
        keys.flatMap fun k' => (xs.filter fun a => !(key a == k)).filter (key · == k') := by
      refine List.flatMap_congr fun k' hk' => ?_
      rw [List.filter_filter]
      refine List.filter_congr fun a _ => ?_
      by_cases ha : key a = k'
      · have hne : k' ≠ k := by
          rintro rfl
          exact hk hk'
        simp [ha, hne]
      · simp [ha]
    rw [List.flatMap_cons, hrest]
    refine (List.Perm.append_left _ (ih hn ?_)).trans (List.filter_append_perm _ xs)
    intro a ha
    obtain ⟨ha, hne⟩ := List.mem_filter.mp ha
    refine (List.mem_cons.mp (hall a ha)).resolve_left ?_
    simpa using hne

namespace Collect

variable {t : Tree} {n : Nat} {s : Symbol} {found : Findings} {v : Nat × Scope}

def met? (t : Tree) (v : Nat × Scope) : Option Symbol :=
  if (t.kind v.1).isDeclaration then symbol? t v.1 v.2.context else none

theorem met?_eq_some_iff : met? t v = some s ↔ Meets t v s := by
  unfold met? Meets
  split
  · next hd => simp [hd]
  · next hd => simp [hd]

def metSymbols (t : Tree) : List Symbol := (visits t).filterMap (met? t)

inductive Visits (t : Tree) (found : Findings) (v : Nat × Scope) : Findings → Prop where
  | space (h : met? t v = none) : Visits t found v
      { found with namespaces := withNamespace v.2.context.space found.namespaces }
  | symbol {s : Symbol} (h : met? t v = some s) : Visits t found v
      { found with
        namespaces := withSymbol s found.namespaces
        definitions :=
          if found.definitions.any (·.fqn == s.fqn) then found.definitions
          else found.definitions ++ [definition t v.1 v.2.context s] }
  | other (references : List Reference) (h : met? t v = none)
      (hnew : ∀ r ∈ references, reference? t v.1 v.2.context = some r) : Visits t found v
      { found with references := found.references ++ references }

theorem visits_visit (t : Tree) (found : Findings) (v : Nat × Scope) :
    Visits t found v (found.visit t v) := by
  obtain ⟨n, scope⟩ := v
  have hstay (hm : met? t (n, scope) = none) : Visits t found (n, scope) found := by
    have hother : Visits t found (n, scope) { found with references := found.references ++ [] } :=
      .other [] hm (by simp)
    simpa using hother
  simp only [Findings.visit]
  split
  · next hk => exact .space (by simp [met?, hk, NodeKind.isDeclaration, NodeKind.isClassLike])
  · split
    · next hd =>
      unfold Findings.declare
      split
      · next hs => exact hstay (by simp [met?, hd, hs])
      · next s hs => exact .symbol (by simp [met?, hd, hs])
    · next hd =>
      have hm : met? t (n, scope) = none := by simp [met?, hd]
      split
      · exact .other _ hm fun r hr => Option.mem_toList.mp hr
      · exact hstay hm

structure Filed (met : List Symbol) (namespaces : List Namespace) : Prop where
  nodup : (namespaces.map Namespace.name).Nodup
  symbols_eq : ∀ space ∈ namespaces, space.symbols = met.filter (·.space == space.name)
  housed : ∀ s ∈ met, s.space ∈ namespaces.map Namespace.name

variable {met : List Symbol} {namespaces : List Namespace}

theorem Filed.withNamespace (h : Filed met namespaces) (name : String) :
    Filed met (withNamespace name namespaces) := by
  unfold Collect.withNamespace
  split
  · exact h
  · next hnew =>
    have hout : name ∉ namespaces.map Namespace.name := by simpa using hnew
    refine ⟨?_, ?_, fun s hs => ?_⟩
    · rw [List.map_append, List.map_singleton]
      exact List.nodup_append'.mpr ⟨h.nodup, List.nodup_singleton _, by simpa using hout⟩
    · intro space hspace
      rcases List.mem_append.mp hspace with hspace | hspace
      · exact h.symbols_eq space hspace
      · rw [List.mem_singleton.mp hspace]
        refine (List.filter_eq_nil_iff.mpr fun s hs he => ?_).symm
        have hhoused := h.housed s hs
        rw [beq_iff_eq.mp he] at hhoused
        exact hout hhoused
    · rw [List.map_append]
      exact List.mem_append_left _ (h.housed s hs)

theorem Filed.withSymbol (h : Filed met namespaces) (s : Symbol) :
    Filed (met ++ [s]) (withSymbol s namespaces) := by
  have hlisted := h.withNamespace s.space
  obtain ⟨home, hhome, hname⟩ := exists_mem_withNamespace s.space namespaces
  unfold Collect.withSymbol
  generalize Collect.withNamespace s.space namespaces = spaces at hlisted hhome
  have hnames : (spaces.map fun n : Namespace =>
      if n.name == s.space then { n with symbols := n.symbols ++ [s] } else n).map
        Namespace.name = spaces.map Namespace.name := by
    rw [List.map_map]
    refine List.map_congr_left fun space _ => ?_
    dsimp only [Function.comp]
    split <;> rfl
  refine ⟨hnames ▸ hlisted.nodup, ?_, ?_⟩
  · intro space hspace
    obtain ⟨old, hold, rfl⟩ := List.mem_map.mp hspace
    have hsymbols := hlisted.symbols_eq old hold
    by_cases hu : old.name = s.space
    · simp [hu, hsymbols]
    · simp [hu, Ne.symm hu, hsymbols]
  · intro other hother
    rw [hnames]
    rcases List.mem_append.mp hother with hother | hother
    · exact hlisted.housed other hother
    · rw [List.mem_singleton.mp hother, ← hname]
      exact List.mem_map_of_mem hhome

theorem Filed.perm (h : Filed met namespaces) : (symbolsIn namespaces).Perm met := by
  have hgroups : symbolsIn namespaces =
      (namespaces.map Namespace.name).flatMap fun name => met.filter (·.space == name) := by
    rw [List.flatMap_map]
    exact List.flatMap_congr h.symbols_eq
  rw [hgroups]
  exact perm_flatMap_filter Symbol.space h.nodup h.housed

structure Tidy (t : Tree) (done : List (Nat × Scope)) (found : Findings) : Prop where
  filed : Filed (done.filterMap (met? t)) found.namespaces
  made : ∀ d ∈ found.definitions, ∃ v s, v ∈ done ∧ met? t v = some s ∧
    (done.filterMap (met? t)).find? (·.fqn == s.fqn) = some s ∧
    d = definition t v.1 v.2.context s
  named : ∀ s ∈ done.filterMap (met? t), s.fqn ∈ found.definitions.map Definition.fqn
  referred : ∀ r ∈ found.references, ∃ v ∈ done, reference? t v.1 v.2.context = some r

theorem tidy_empty : Tidy t [] .empty where
  filed := ⟨List.nodup_nil, by simp [Findings.empty], by simp⟩
  made := by simp [Findings.empty]
  named := by simp
  referred := by simp [Findings.empty]

theorem Tidy.visit {done : List (Nat × Scope)} (h : Tidy t done found) (v : Nat × Scope) :
    Tidy t (done ++ [v]) (found.visit t v) := by
  have hmade : ∀ d ∈ found.definitions, ∃ w s, w ∈ done ++ [v] ∧ met? t w = some s ∧
      ((done ++ [v]).filterMap (met? t)).find? (·.fqn == s.fqn) = some s ∧
      d = definition t w.1 w.2.context s := by
    intro d hd
    obtain ⟨w, s, hw, hs, hfirst, he⟩ := h.made d hd
    refine ⟨w, s, List.mem_append_left _ hw, hs, ?_, he⟩
    rw [List.filterMap_append, List.find?_append, hfirst, Option.some_or]
  have hreferred : ∀ r ∈ found.references,
      ∃ w ∈ done ++ [v], reference? t w.1 w.2.context = some r := by
    intro r hr
    obtain ⟨w, hw, he⟩ := h.referred r hr
    exact ⟨w, List.mem_append_left _ hw, he⟩
  have hstep := visits_visit t found v
  generalize found.visit t v = after at hstep ⊢
  cases hstep with
  | space hm =>
    have hnone : (done ++ [v]).filterMap (met? t) = done.filterMap (met? t) := by simp [hm]
    exact ⟨hnone ▸ h.filed.withNamespace _, hmade, hnone ▸ h.named, hreferred⟩
  | @symbol s hm =>
    have hsome : (done ++ [v]).filterMap (met? t) = done.filterMap (met? t) ++ [s] := by simp [hm]
    refine ⟨hsome ▸ h.filed.withSymbol s, ?_, ?_, hreferred⟩
    · dsimp only
      split
      · exact hmade
      · next hnew =>
        intro d hd
        rcases List.mem_append.mp hd with hd | hd
        · exact hmade d hd
        · refine ⟨v, s, by simp, hm, ?_, List.mem_singleton.mp hd⟩
          rw [hsome, List.find?_append, List.find?_eq_none.mpr, Option.none_or]
          · simp
          · intro other hother he
            refine hnew (List.any_eq_true.mpr ?_)
            obtain ⟨d, hd, hfqn⟩ := List.mem_map.mp (h.named other hother)
            exact ⟨d, hd, by simpa [hfqn] using he⟩
    · dsimp only
      rw [hsome]
      intro other hother
      rcases List.mem_append.mp hother with hother | hother
      · have hold := h.named other hother
        split
        · exact hold
        · rw [List.map_append]
          exact List.mem_append_left _ hold
      · rw [List.mem_singleton.mp hother]
        split
        · next hany =>
          obtain ⟨d, hd, hfqn⟩ := List.any_eq_true.mp hany
          exact List.mem_map.mpr ⟨d, hd, beq_iff_eq.mp hfqn⟩
        · simp [definition]
  | other references hm hnew =>
    have hnone : (done ++ [v]).filterMap (met? t) = done.filterMap (met? t) := by simp [hm]
    refine ⟨hnone ▸ h.filed, hmade, hnone ▸ h.named, fun r hr => ?_⟩
    rcases List.mem_append.mp hr with hr | hr
    · exact hreferred r hr
    · exact ⟨v, by simp, hnew r hr⟩

theorem Tidy.foldl {done : List (Nat × Scope)} (h : Tidy t done found) (vs : List (Nat × Scope)) :
    Tidy t (done ++ vs) (vs.foldl (Findings.visit t) found) := by
  induction vs generalizing done found with
  | nil => rwa [List.append_nil]
  | cons v vs ih =>
    have hrest := ih (h.visit v)
    rwa [List.append_assoc, List.singleton_append] at hrest

theorem tidy_findings (t : Tree) : Tidy t (visits t) (findings t) :=
  tidy_empty.foldl (visits t)

theorem fallback_ne_of_reference? {context : NameContext} {r : Reference} {fallback : String}
    (h : reference? t n context = some r) (hf : r.fallback = some fallback) : fallback ≠ r.fqn := by
  have hchoices : Choices (referencedIn t n context) := choices_referencedIn t n context
  unfold reference? at h
  generalize referencedIn t n context = names at h hchoices
  cases hchoices with
  | none => cases h
  | one name =>
    cases h
    cases hf
  | two hne =>
    cases h
    cases hf
    exact hne.symm

structure WellFormed (t : Tree) (f : File) : Prop where
  uri_eq : f.uri = t.uri
  preorder : (visits t).map Prod.fst = (t.preorder Tree.root).tail
  symbols_perm : f.symbols.Perm (metSymbols t)
  namespaces_nodup : (f.namespaces.map Namespace.name).Nodup
  space_eq : ∀ space ∈ f.namespaces, ∀ s ∈ space.symbols, s.space = space.name
  in_order : ∀ space ∈ f.namespaces, space.symbols = (metSymbols t).filter (·.space == space.name)
  definitions_nodup : (f.definitions.map Definition.fqn).Nodup
  names_eq : ∀ fqn, fqn ∈ f.definitions.map Definition.fqn ↔ fqn ∈ f.symbols.map Symbol.fqn
  first : ∀ d ∈ f.definitions, ∃ s ∈ f.symbols, (metSymbols t).find? (·.fqn == d.fqn) = some s ∧
    d.name = s.name ∧ d.kind = s.kind ∧ d.range = s.range ∧ d.container = s.container
  definition_uri : ∀ d ∈ f.definitions, d.uri = f.uri
  reference_uri : ∀ r ∈ f.references, r.uri = f.uri
  parents : ∀ d ∈ f.definitions, d.parents ≠ [] → d.kind.isClassLike = true
  fallback_ne : ∀ r ∈ f.references, ∀ fallback, r.fallback = some fallback → fallback ≠ r.fqn

theorem collected_record_is_well_formed (t : Tree) (hash : String) (millis : UInt64) :
    WellFormed t (collect t hash millis) := by
  have h : Tidy t (visits t) (findings t) := tidy_findings t
  have hlocal := collect_local t hash millis
  have hperm : (collect t hash millis).symbols.Perm (metSymbols t) := h.filed.perm
  refine
    { uri_eq := rfl
      preorder := map_fst_visits t
      symbols_perm := hperm
      namespaces_nodup := h.filed.nodup
      space_eq := ?_
      in_order := h.filed.symbols_eq
      definitions_nodup := (collect_orderly t hash millis).nodup
      names_eq := fun fqn => ⟨?_, ?_⟩
      first := ?_
      definition_uri := hlocal.1
      reference_uri := hlocal.2
      parents := ?_
      fallback_ne := ?_ }
  · intro space hspace s hs
    rw [h.filed.symbols_eq space hspace] at hs
    exact beq_iff_eq.mp (List.mem_filter.mp hs).2
  · intro hfqn
    obtain ⟨d, hd, rfl⟩ := List.mem_map.mp hfqn
    obtain ⟨v, s, -, -, hfirst, rfl⟩ := h.made d hd
    exact List.mem_map_of_mem (hperm.mem_iff.mpr (List.mem_of_find?_eq_some hfirst))
  · intro hfqn
    obtain ⟨s, hs, rfl⟩ := List.mem_map.mp hfqn
    exact h.named s (hperm.mem_iff.mp hs)
  · intro d hd
    obtain ⟨v, s, -, -, hfirst, rfl⟩ := h.made d hd
    exact ⟨s, hperm.mem_iff.mpr (List.mem_of_find?_eq_some hfirst), hfirst, rfl, rfl, rfl, rfl⟩
  · intro d hd hne
    obtain ⟨v, s, -, -, -, rfl⟩ := h.made d hd
    by_contra hk
    exact hne (if_neg hk)
  · intro r hr fallback hf
    obtain ⟨v, -, href⟩ := h.referred r hr
    exact fallback_ne_of_reference? href hf

end Collect

end SemanticIndex
