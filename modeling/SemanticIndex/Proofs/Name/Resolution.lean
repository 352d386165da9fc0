import SemanticIndex.Proofs.Name.Imports

namespace SemanticIndex.NameContext

open Text Fqn

structure ResolvesImports (t : Tree) (region : Region) : Prop where
  classes {d c : Nat} {i : Import} (h : Import.Last t region d c i) (hkind : i.kind = .classes)
    (hsegment : IsSegment (Import.aliasOf t c i))
    (hword : lower (Import.aliasOf t c i) ∉ ["self", "static", "parent", "namespace"])
    (name : String) (hname : lower name = lower (Import.aliasOf t c i)) :
    (ofRegion t region).resolveClass name = some i.target ∧
      ∀ rest, IsTrimmed (name ++ "\\" ++ rest) →
        (ofRegion t region).resolveClass (name ++ "\\" ++ rest) = some (i.target ++ "\\" ++ rest)
  functions {d c : Nat} {i : Import} (h : Import.Last t region d c i) (hkind : i.kind = .functions)
    (hsegment : IsSegment (Import.aliasOf t c i))
    (name : String) (hname : lower name = lower (Import.aliasOf t c i)) :
    (ofRegion t region).resolveFunction name = [ofFunction i.target]
  constants {d c : Nat} {i : Import} (h : Import.Last t region d c i) (hkind : i.kind = .constants)
    (hsegment : IsSegment (Import.aliasOf t c i))
    (hword : lower (Import.aliasOf t c i) ∉ ["true", "false", "null"]) :
    (ofRegion t region).resolveConstant (Import.aliasOf t c i) = [i.target]
  others (first : String) (more : List String) (hsegments : ∀ s ∈ first :: more, IsSegment s)
    (hscope : more = [] → lower first ∉ ["self", "static", "parent"])
    (hkeyword : more ≠ [] → lower first ≠ "namespace")
    (hunbound : ∀ d c i, Import.Made t region d c i → i.kind = .classes →
      lower (Import.aliasOf t c i) ≠ lower first) :
    (ofRegion t region).resolveClass ("\\".intercalate (first :: more)) =
      some ((ofRegion t region).qualify ("\\".intercalate (first :: more)))

theorem imports_resolve_to_their_targets (t : Tree) (region : Region)
    (hregular : Import.AllRegular t region) : ResolvesImports t region where
  classes h hkind hsegment hword name hname := by
    have hlookup := lookup_of_last hregular h
    rw [hkind, ImportKind.key, ← hname, table] at hlookup
    rw [← hname] at hword
    have hsegment := hsegment.of_lower_eq hname
    constructor
    · have hscope : lower name ∉ ["self", "static", "parent"] := fun hm =>
        hword (List.mem_append_left ["namespace"] hm)
      rw [resolveClass_of_segment hsegment hscope, hlookup]
      rfl
    · intro rest htrim
      have hkeyword : lower name ≠ "namespace" := fun heq => hword (by simp [heq])
      rw [resolveClass_of_path hsegment hkeyword htrim, hlookup]
      rfl
  functions h hkind hsegment name hname := by
    have hlookup := lookup_of_last hregular h
    rw [hkind, ImportKind.key, ← hname, table] at hlookup
    rw [resolveFunction, resolvePlain_of_segment (hsegment.of_lower_eq hname) hlookup]
    rfl
  constants h hkind hsegment hword := by
    have hlookup := lookup_of_last hregular h
    rw [hkind, ImportKind.key, table] at hlookup
    have hcontains : ["true", "false", "null"].contains (lower (Import.aliasOf t _ _)) = false :=
      Bool.eq_false_iff.mpr fun hc => hword (List.contains_iff_mem.mp hc)
    rw [resolveConstant, hcontains, if_neg Bool.false_ne_true]
    exact resolvePlain_of_segment hsegment hlookup
  others first more hsegments hscope hkeyword hunbound := by
    have hfirst := hsegments first List.mem_cons_self
    have hlookup : ((ofRegion t region).table .classes).lookup (lower first) = none :=
      lookup_eq_none hregular hunbound
    rw [table] at hlookup
    cases more with
    | nil =>
      rw [String.intercalate_singleton, resolveClass_of_segment hfirst (hscope rfl), hlookup]
      rfl
    | cons next more =>
      have htrim := IsTrimmed.intercalate hsegments
      rw [String.intercalate_cons_cons] at htrim ⊢
      rw [resolveClass_of_path hfirst (hkeyword (List.cons_ne_nil _ _)) htrim, hlookup]
      rfl

def importing : Tree :=
  .ofNodes "file:///a.php"
    "namespace A;use V\\\x7bC,D as E,function f\x7d;use const V\\L;use W\\D as e;"
    [(.program, none, 0, 67, none), (.namespaceDefinition, none, 0, 12, some 0),
     (.namespaceName, some .name, 10, 11, some 1),
     (.useDeclaration .classes, none, 12, 40, some 0), (.namespaceName, none, 16, 17, some 3),
     (.useGroup, none, 18, 39, some 3),
     (.useClause .classes, none, 19, 20, some 5), (.name, none, 19, 20, some 6),
     (.useClause .classes, none, 21, 27, some 5), (.name, none, 21, 22, some 8),
     (.name, some .aliased, 26, 27, some 8),
     (.useClause .functions, none, 28, 38, some 5), (.name, none, 37, 38, some 11),
     (.useDeclaration .constants, none, 40, 54, some 0),
     (.useClause .classes, none, 50, 53, some 13), (.qualifiedName, none, 50, 53, some 14),
     (.useDeclaration .classes, none, 54, 67, some 0),
     (.useClause .classes, none, 58, 66, some 16), (.qualifiedName, none, 58, 61, some 17),
     (.name, some .aliased, 65, 66, some 17)]

theorem imports_resolve_to_their_targets_group :
    let context := ofRegion importing (some 1)
    context.resolveClass "c" = some "V\\C" ∧
      context.resolveClass "E\\User" = some "W\\D\\User" ∧
      context.resolveFunction "F" = ["V\\f()"] ∧
      context.resolveConstant "L" = ["V\\L"] ∧
      context.resolveClass "D\\User" = some "A\\D\\User" := by
  intro context
  have hregular : Import.AllRegular importing (some 1) := by decide +kernel
  have h := imports_resolve_to_their_targets importing (some 1) hregular
  have hclass : Import.Last importing (some 1) 3 6 ⟨.classes, "V\\C"⟩ :=
    (Import.last_iff hregular).mpr (by decide +kernel)
  have htaken : Import.Last importing (some 1) 16 17 ⟨.classes, "W\\D"⟩ :=
    (Import.last_iff hregular).mpr (by decide +kernel)
  have hfunction : Import.Last importing (some 1) 3 11 ⟨.functions, "V\\f"⟩ :=
    (Import.last_iff hregular).mpr (by decide +kernel)
  have hconstant : Import.Last importing (some 1) 13 14 ⟨.constants, "V\\L"⟩ :=
    (Import.last_iff hregular).mpr (by decide +kernel)
  have hunbound : ∀ p ∈ Import.uses importing (some 1), ∀ i ∈ Import.at? importing p.2,
      i.kind = .classes → lower (Import.aliasOf importing p.2 i) ≠ lower "D" := by
    decide +kernel
  have haliases : Import.aliasOf importing 6 ⟨.classes, "V\\C"⟩ = "C" ∧
      Import.aliasOf importing 17 ⟨.classes, "W\\D"⟩ = "e" ∧
      Import.aliasOf importing 11 ⟨.functions, "V\\f"⟩ = "f" ∧
      Import.aliasOf importing 14 ⟨.constants, "V\\L"⟩ = "L" := by
    decide +kernel
  obtain ⟨hC, he, hf, hL⟩ := haliases
  have hclasses := h.classes hclass rfl
  have htakes := h.classes htaken rfl
  have hfunctions := h.functions hfunction rfl
  have hconstants := h.constants hconstant rfl
  rw [hC] at hclasses
  rw [he] at htakes
  rw [hf] at hfunctions
  rw [hL] at hconstants
  refine ⟨?_, ?_, ?_, ?_, ?_⟩
  · exact (hclasses (by decide) (by decide) "c" (by decide)).1
  · exact (htakes (by decide) (by decide) "E" (by decide)).2 "User" (by decide)
  · exact hfunctions (by decide) "F" (by decide)
  · exact hconstants (by decide) (by decide)
  · refine (h.others "D" ["User"] (by decide) (by decide) (by decide) ?_).trans ?_
    · intro d c i hmade hkind
      obtain ⟨hmem, htarget⟩ := (Import.made_iff hregular).mp hmade
      exact hunbound (d, c) hmem i htarget hkind
    · decide +kernel

end SemanticIndex.NameContext
