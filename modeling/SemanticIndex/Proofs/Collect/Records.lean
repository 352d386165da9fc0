import SemanticIndex.Proofs.Collect.Agreement
import SemanticIndex.Proofs.Snapshot.RoundTrip

namespace SemanticIndex

open Resolve

structure File.Orderly (f : File) : Prop where
  uri_eq : ∀ d ∈ f.definitions, d.uri = f.uri
  nodup : (IndexState.declaredNames f).Nodup

instance (f : File) : Decidable f.Orderly :=
  decidable_of_iff ((∀ d ∈ f.definitions, d.uri = f.uri) ∧ (IndexState.declaredNames f).Nodup)
    ⟨fun h => ⟨h.1, h.2⟩, fun h => ⟨h.uri_eq, h.nodup⟩⟩

namespace Collect

variable {t : Tree} {n : Nat} {s : Symbol}

def symbolsIn (namespaces : List Namespace) : List Symbol :=
  namespaces.flatMap Namespace.symbols

theorem symbolsIn_withNamespace (name : String) (namespaces : List Namespace) :
    symbolsIn (withNamespace name namespaces) = symbolsIn namespaces := by
  unfold withNamespace
  split
  · rfl
  · simp [symbolsIn]

theorem exists_mem_withNamespace (name : String) (namespaces : List Namespace) :
    ∃ space ∈ withNamespace name namespaces, space.name = name := by
  unfold withNamespace
  split
  · next h =>
    obtain ⟨space, hm, hs⟩ := List.any_eq_true.mp h
    exact ⟨space, hm, beq_iff_eq.mp hs⟩
  · exact ⟨⟨name, []⟩, by simp, rfl⟩

theorem mem_symbolsIn_withSymbol {new : Symbol} {namespaces : List Namespace} :
    s ∈ symbolsIn (withSymbol new namespaces) ↔ s ∈ symbolsIn namespaces ∨ s = new := by
  rw [← symbolsIn_withNamespace new.space namespaces, withSymbol]
  obtain ⟨home, hhome, hname⟩ := exists_mem_withNamespace new.space namespaces
  generalize withNamespace new.space namespaces = spaces at hhome
  simp only [symbolsIn, List.flatMap_map, List.mem_flatMap]
  constructor
  · rintro ⟨space, hspace, hs⟩
    split at hs
    · rcases List.mem_append.mp hs with hs | hs
      · exact .inl ⟨space, hspace, hs⟩
      · exact .inr (List.mem_singleton.mp hs)
    · exact .inl ⟨space, hspace, hs⟩
  · rintro (⟨space, hspace, hs⟩ | rfl)
    · refine ⟨space, hspace, ?_⟩
      split
      · exact List.mem_append_left _ hs
      · exact hs
    · exact ⟨home, hhome, by simp [hname]⟩

def Meets (t : Tree) (v : Nat × Scope) (s : Symbol) : Prop :=
  (t.kind v.1).isDeclaration = true ∧ symbol? t v.1 v.2.context = some s

instance (t : Tree) (v : Nat × Scope) (s : Symbol) : Decidable (Meets t v s) :=
  inferInstanceAs (Decidable (_ ∧ _))

theorem mem_symbolsIn_visit {found : Findings} {v : Nat × Scope} :
    s ∈ symbolsIn (found.visit t v).namespaces ↔ s ∈ symbolsIn found.namespaces ∨ Meets t v s := by
  obtain ⟨n, scope⟩ := v
  unfold Meets Findings.visit
  dsimp only
  split
  · next hk => simp [symbolsIn_withNamespace, hk, NodeKind.isDeclaration, NodeKind.isClassLike]
  · split
    · next hd =>
      unfold Findings.declare
      cases hs : symbol? t n scope.context with
      | none => simp
      | some new => simp [mem_symbolsIn_withSymbol, hd, eq_comm]
    · next hd => split <;> simp [hd, Findings.refer]

theorem mem_symbolsIn_foldl {found : Findings} {vs : List (Nat × Scope)} :
    s ∈ symbolsIn (vs.foldl (Findings.visit t) found).namespaces ↔
      s ∈ symbolsIn found.namespaces ∨ ∃ v ∈ vs, Meets t v s := by
  induction vs generalizing found with
  | nil => simp
  | cons v vs ih =>
    rw [List.foldl_cons, ih, mem_symbolsIn_visit, or_assoc]
    simp only [List.mem_cons, or_and_right, exists_or, exists_eq_left]

def RecordsSymbol (t : Tree) (n : Nat) (s : Symbol) : Prop :=
  ∃ v ∈ visits t, v.1 = n ∧ Meets t v s

instance (t : Tree) (n : Nat) (s : Symbol) : Decidable (RecordsSymbol t n s) :=
  inferInstanceAs (Decidable (∃ v ∈ visits t, _))

theorem mem_symbols_collect {hash : String} {millis : UInt64} :
    s ∈ (collect t hash millis).symbols ↔ ∃ n, RecordsSymbol t n s := by
  have hall : s ∈ symbolsIn (findings t).namespaces ↔ ∃ v ∈ visits t, Meets t v s := by
    rw [findings, mem_symbolsIn_foldl]
    simp [Findings.empty, symbolsIn]
  refine hall.trans ⟨?_, ?_⟩
  · rintro ⟨v, hv, hs⟩
    exact ⟨v.1, v, hv, rfl, hs⟩
  · rintro ⟨n, v, hv, -, hs⟩
    exact ⟨v, hv, hs⟩

theorem meets_iff {v : Nat × Scope} (hroot : t.kind Tree.root = .program) (hv : v ∈ visits t)
    (hd : (t.kind v.1).isDeclaration = true) :
    Meets t v s ↔ symbol? t v.1 (NameContext.ofNode t v.1) = some s := by
  have hcontext := (visits_fit (by simp [hroot]) v hv).context_eq
    (NodeKind.ne_namespaceDefinition_of_isDeclaration hd)
  simp only [Meets, hd, true_and, hcontext]

theorem recordsSymbol_iff (hroot : t.kind Tree.root = .program) (hn : n ∈ t.preorder Tree.root)
    (hd : (t.kind n).isDeclaration = true) :
    RecordsSymbol t n s ↔ symbol? t n (NameContext.ofNode t n) = some s := by
  constructor
  · rintro ⟨v, hv, rfl, hs⟩
    exact (meets_iff hroot hv hd).mp hs
  · intro hs
    have hne : n ≠ Tree.root := by
      rintro rfl
      rw [hroot] at hd
      cases hd
    have htail : n ∈ (visits t).map Prod.fst := by
      rw [map_fst_visits]
      rw [Tree.preorder_eq] at hn ⊢
      exact (List.mem_cons.mp hn).resolve_left hne
    obtain ⟨v, hv, rfl⟩ := List.mem_map.mp htail
    exact ⟨v, hv, rfl, (meets_iff hroot hv hd).mpr hs⟩

theorem definitions_visit (found : Findings) (v : Nat × Scope) :
    (found.visit t v).definitions = found.definitions ∨
      ∃ d, d.fqn ∉ found.definitions.map Definition.fqn ∧
        (found.visit t v).definitions = found.definitions ++ [d] := by
  obtain ⟨n, scope⟩ := v
  unfold Findings.visit Findings.declare
  dsimp only
  split
  · exact .inl rfl
  · split
    · split
      · exact .inl rfl
      · next s _ =>
        dsimp only
        split
        · exact .inl rfl
        · next hnew =>
          refine .inr ⟨definition t n scope.context s, ?_, rfl⟩
          simpa [definition] using hnew
    · split <;> exact .inl rfl

theorem nodup_visit {found : Findings} (h : (found.definitions.map Definition.fqn).Nodup)
    (v : Nat × Scope) : ((found.visit t v).definitions.map Definition.fqn).Nodup := by
  rcases definitions_visit found v with hsame | ⟨d, hnew, hmore⟩
  · rwa [hsame]
  · rw [hmore, List.map_append, List.nodup_append]
    refine ⟨h, by simp, ?_⟩
    rintro a ha b hb rfl
    exact hnew (List.mem_singleton.mp hb ▸ ha)

theorem collect_orderly (t : Tree) (hash : String) (millis : UInt64) :
    (collect t hash millis).Orderly := by
  have hfold (vs : List (Nat × Scope)) {found : Findings}
      (h : (found.definitions.map Definition.fqn).Nodup) :
      ((vs.foldl (Findings.visit t) found).definitions.map Definition.fqn).Nodup := by
    induction vs generalizing found with
    | nil => exact h
    | cons v vs ih => exact ih (nodup_visit h v)
  exact ⟨(collect_local t hash millis).1, hfold (visits t) List.nodup_nil⟩

end Collect

end SemanticIndex
