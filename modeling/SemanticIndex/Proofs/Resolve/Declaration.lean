import SemanticIndex.Proofs.Collect.Records
import SemanticIndex.Proofs.Resolve.Cursor

namespace SemanticIndex

namespace Resolve

variable {t : Tree} {n m c : Nat} {context : NameContext} {fqn : String}

def IsSimpleName (t : Tree) (m : Nat) : Prop :=
  t.kind m = .name ∧ t.children m = [] ∨
    t.kind m = .variableName ∧ ∀ c ∈ t.children m, t.kind c = .name ∧ t.children c = []

instance (t : Tree) (m : Nat) : Decidable (IsSimpleName t m) :=
  inferInstanceAs (Decidable (_ ∨ _))

theorem mem_children_of_leaves (hleaves : ∀ d ∈ t.children m, t.children d = [])
    (hc : m ∈ t.ancestors c) : c ∈ t.children m := by
  have hbelow : c ∈ t.preorder m := Tree.mem_preorder_iff.mpr (List.mem_cons_of_mem c hc)
  rcases Tree.mem_preorder_cases.mp hbelow with rfl | ⟨d, hd, hcd⟩
  · exact absurd (Tree.lt_of_mem_ancestors hc) (Nat.lt_irrefl c)
  · rw [Tree.preorder_eq, hleaves d hd, List.flatMap_nil, List.mem_singleton] at hcd
    exact hcd ▸ hd

theorem IsSimpleName.isName (h : IsSimpleName t m) : (t.kind m).isName = true := by
  rcases h with ⟨hk, -⟩ | ⟨hk, -⟩ <;> rw [hk] <;> rfl

theorem IsSimpleName.ledBySegments (h : IsSimpleName t m) : LedBySegments t m := by
  intro c _ hc _
  rcases h with ⟨-, hleaf⟩ | ⟨hk, hparts⟩
  · have hchild := mem_children_of_leaves (by simp [hleaf]) hc
    rw [hleaf] at hchild
    cases hchild
  · have hchild := mem_children_of_leaves (fun d hd => (hparts d hd).2) hc
    simp [isSegment, (hparts c hchild).1, Tree.parent_eq_some_iff.mpr hchild, isSegmentOf, hk]

theorem not_isSegmentOf_of_isDeclaration (h : (t.kind n).isDeclaration = true) :
    isSegmentOf t n = false := by
  unfold isSegmentOf
  split <;> simp_all [NodeKind.isDeclaration, NodeKind.isClassLike]

theorem isSegment_eq_false_of_declaration (hd : (t.kind n).isDeclaration = true)
    (hp : t.parent m = some n) : isSegment t m = false := by
  unfold isSegment
  split <;> simp [hp, not_isSegmentOf_of_isDeclaration hd]

theorem isDeclaration_of_declaredFqnIn (h : declaredFqnIn t n context = some fqn) :
    (t.kind n).isDeclaration = true := by
  by_contra hd
  rw [declaredFqnIn_eq_none (by simpa using hd)] at h
  cases h

theorem widen_of_field_name (hd : (t.kind n).isDeclaration = true)
    (hf : t.field m = some .name) : widen t m n = n := by
  cases hk : t.kind n <;> simp_all [widen, NodeKind.isDeclaration, NodeKind.isClassLike]

theorem nameNode_of_childByField (hd : (t.kind n).isDeclaration = true)
    (hm : t.childByField n .name = some m) : nameNode t n = m := by
  cases hk : t.kind n <;>
    simp_all [nameNode, declaredNameNode, NodeKind.isDeclaration, NodeKind.isClassLike]

theorem widen_declaredName (h : declaredFqnIn t n context = some fqn) :
    widen t (nameNode t n) n = n := by
  have hd := isDeclaration_of_declaredFqnIn h
  have hfield {m : Nat} (hm : t.childByField n .name = some m) : widen t (nameNode t n) n = n := by
    rw [nameNode_of_childByField hd hm]
    exact widen_of_field_name hd (childByField_eq_some hm).2
  unfold declaredFqnIn at h
  split at h
  case h_1 =>
    obtain ⟨m, hm, -⟩ := Option.bind_eq_some_iff.mp h
    exact hfield hm
  case h_2 =>
    obtain ⟨owner, -, h⟩ := Option.bind_eq_some_iff.mp h
    obtain ⟨m, hm, -⟩ := Option.bind_eq_some_iff.mp h
    exact hfield hm
  case h_3 hk | h_4 hk | h_5 hk | h_6 hk => simp [widen, hk]
  case h_7 =>
    split at h
    · obtain ⟨m, hm, -⟩ := Option.map_eq_some_iff.mp h
      exact hfield hm
    · cases h

theorem target_of_declaredName {leaf : Nat} (h : declaredFqnIn t n context = some fqn)
    (hp : t.parent (nameNode t n) = some n) (hname : IsSimpleName t (nameNode t n))
    (hleaf : wholeName t leaf = wholeName t (nameNode t n)) : target t leaf = n := by
  have hd := isDeclaration_of_declaredFqnIn h
  rw [wholeName_of_not_segment (isSegment_eq_false_of_declaration hd hp)] at hleaf
  rw [target_eq_widen hleaf hname.isName hp, widen_declaredName h]

theorem candidates_of_declaredFqn (h : declaredFqn t n = some fqn) : candidates t n = [fqn] := by
  unfold declaredFqn at h
  simp [candidates, h]

end Resolve

namespace Collect

open Resolve

theorem cursor_on_declared_name (t : Tree) (hroot : t.kind Tree.root = .program)
    (hsize : Text.byteLength t.source < 0x100000000) (ha : t.Aligned) (hn : t.Nested)
    {n : Nat} (hmem : n ∈ t.preorder Tree.root) {fqn : String} (hd : declaredFqn t n = some fqn)
    (hchild : nameNode t n ∈ t.children n)
    (hne : t.start (nameNode t n) < t.stop (nameNode t n))
    (hname : IsSimpleName t (nameNode t n)) (hash : String) (millis : UInt64) :
    (∃ leaf, t.nodeAt? (t.range (nameNode t n)).start = some leaf ∧ target t leaf = n ∧
        candidates t (target t leaf) = [fqn]) ∧
      ∃ s, (∀ other, RecordsSymbol t n other ↔ other = s) ∧
        s ∈ (collect t hash millis).symbols ∧ s.fqn = fqn := by
  constructor
  · have htarget := target_of_declaredName hd (Tree.parent_eq_some_iff.mpr hchild) hname
      (wholeName_descend hn hname.ledBySegments)
    have hleaf := Tree.nodeAt?_start hn ha hsize (Tree.child_mem_preorder hmem hchild) hne
    refine ⟨_, hleaf, htarget, ?_⟩
    rw [htarget, candidates_of_declaredFqn hd]
  · obtain ⟨s, hs, hfqn, -⟩ := symbol?_eq_some hd
    have hall (other : Symbol) : RecordsSymbol t n other ↔ other = s := by
      rw [recordsSymbol_iff hroot hmem (isDeclaration_of_declaredFqnIn hd), hs, Option.some.injEq,
        eq_comm]
    exact ⟨s, hall, mem_symbols_collect.mpr ⟨n, (hall s).mpr rfl⟩, hfqn⟩

def classWithProperty : Tree :=
  .ofNodes "file:///a.php" "/*é*/class C{static $p;}"
    [(.program, none, 0, 25, none), (.comment, none, 0, 6, some 0),
     (.classDeclaration, none, 6, 25, some 0), (.name, some .name, 12, 13, some 2),
     (.declarationList, some .body, 13, 25, some 2), (.propertyDeclaration, none, 14, 24, some 4),
     (.staticModifier, none, 14, 20, some 5), (.propertyElement, none, 21, 23, some 5),
     (.variableName, some .name, 21, 23, some 7), (.name, none, 22, 23, some 8)]

theorem cursor_on_declared_name_of_property :
    let t := classWithProperty
    (declaredFqn t 2 = some "C" ∧ ∃ leaf, t.nodeAt? ⟨0, 11⟩ = some leaf ∧ target t leaf = 2 ∧
        candidates t (target t leaf) = ["C"]) ∧
      declaredFqn t 7 = some "C::$p" ∧ ∃ leaf, t.nodeAt? ⟨0, 20⟩ = some leaf ∧ target t leaf = 7 ∧
        candidates t (target t leaf) = ["C::$p"] := by
  intro t
  have hroot : t.kind Tree.root = .program := by decide
  have hsize : Text.byteLength t.source < 0x100000000 := by decide +kernel
  have ha : t.Aligned := by decide +kernel
  have hn : t.Nested := by decide +kernel
  have hclass : declaredFqn t 2 = some "C" := by decide +kernel
  have hproperty : declaredFqn t 7 = some "C::$p" := by decide +kernel
  have hone := (cursor_on_declared_name t hroot hsize ha hn (by decide +kernel) hclass
    (by decide +kernel) (by decide +kernel) (by decide +kernel) "" 0).1
  have htwo := (cursor_on_declared_name t hroot hsize ha hn (by decide +kernel) hproperty
    (by decide +kernel) (by decide +kernel) (by decide +kernel) "" 0).1
  exact ⟨⟨hclass, hone⟩, hproperty, htwo⟩

end Collect

end SemanticIndex
