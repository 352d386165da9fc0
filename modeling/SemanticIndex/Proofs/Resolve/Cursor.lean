import SemanticIndex.Proofs.Collect.Agreement
import SemanticIndex.Proofs.Resolve.Choices
import SemanticIndex.Proofs.Tree.Descent
import SemanticIndex.Resolve.Target

namespace SemanticIndex

namespace NodeKind

variable {k : NodeKind}

theorem isName_of_isPlainName (h : k.isPlainName = true) : k.isName = true := by
  cases k <;> simp_all [isPlainName, isName]

theorem not_target_of_isName (h : k.isName = true) :
    k.isDeclaration = false ∧ k.isAccess = false := by
  cases k <;> simp_all [isName, isDeclaration, isClassLike, isAccess]

end NodeKind

namespace Resolve

open Collect

variable {t : Tree} {n m p : Nat} {context : NameContext}

def isSegment (t : Tree) (c : Nat) : Bool :=
  match t.kind c with
  | .name | .namespaceName | .other => (t.parent c).any (isSegmentOf t)
  | _ => false

def LedBySegments (t : Tree) (m : Nat) : Prop :=
  ∀ c < t.size, m ∈ t.ancestors c → t.start c = t.start m → isSegment t c = true

instance (t : Tree) (m : Nat) : Decidable (LedBySegments t m) :=
  inferInstanceAs (Decidable (∀ c < t.size, _ → _ → _))

theorem wholeName_eq (t : Tree) (n : Nat) :
    wholeName t n = if isSegment t n then ((t.parent n).map (wholeName t)).getD n else n := by
  rw [wholeName]
  unfold isSegment
  cases hk : t.kind n
  case name | namespaceName | other =>
    dsimp only
    split
    · next p hp => simp [hp]
    · next hp => simp [hp]
  all_goals simp

theorem wholeName_of_not_segment (h : isSegment t n = false) : wholeName t n = n := by
  simp [wholeName_eq, h]

theorem wholeName_descend (hn : t.Nested) (hm : LedBySegments t m) :
    wholeName t (t.descend (t.start m) m) = wholeName t m := by
  have hbelow (i : Nat) (hi : i ∈ t.preorder m) (hs : t.start i = t.start m) :
      wholeName t (t.descend (t.start m) i) = wholeName t i := by
    induction i using t.downward with
    | h i ih =>
      cases ht : t.toward (t.start m) i with
      | none => rw [Tree.descend_of_toward_none ht]
      | some c =>
        have hc := Tree.mem_children_of_toward ht
        have hcm := Tree.child_mem_preorder hi hc
        have hcs : t.start c = t.start m := by
          rw [← hs] at ht
          exact (Tree.start_of_toward hn ht).trans hs
        have hanc : m ∈ t.ancestors c :=
          Tree.ancestors_of_mem_children hc ▸ Tree.mem_preorder_iff.mp hi
        have hseg := hm c (Tree.lt_of_mem_children hc).2 hanc hcs
        rw [Tree.descend_of_toward ht, ih c hc hcm hcs, wholeName_eq, if_pos hseg,
          Tree.parent_eq_some_iff.mpr hc, Option.map_some, Option.getD_some]
  exact hbelow m (t.self_mem_preorder m) rfl

theorem target_eq_widen {leaf : Nat} (hw : wholeName t leaf = m) (hk : (t.kind m).isName = true)
    (hp : t.parent m = some p) : target t leaf = widen t m p := by
  obtain ⟨hd, ha⟩ := NodeKind.not_target_of_isName hk
  simp [target, hw, hd, ha, hk, hp]

theorem childByField_eq_some {f : Field} (h : t.childByField n f = some m) :
    t.parent m = some n ∧ t.field m = some f := by
  refine ⟨Tree.parent_eq_some_iff.mpr (List.mem_of_find?_eq_some h), ?_⟩
  simpa using List.find?_some h

theorem nameChild_eq_some (h : t.nameChild n = some m) :
    t.parent m = some n ∧ (t.kind m).isName = true := by
  refine ⟨Tree.parent_eq_some_iff.mpr (List.mem_of_find?_eq_some h), ?_⟩
  have hk := List.find?_some h
  simp only [Bool.or_eq_true, beq_iff_eq] at hk
  rcases hk with hk | hk
  · exact NodeKind.isName_of_isPlainName hk
  · rw [hk]
    rfl

theorem no_member (owner : Option String) (member : String → Nat → String) :
    (match owner, (none : Option Nat) with
      | some owner, some name => [member owner name]
      | _, _ => []) = [] := by
  cases owner <;> rfl

theorem scopedMember_name {kind : NodeKind} {member : String → String → String}
    (h : scopedMember t n context kind member ≠ []) :
    ∃ m, t.childByField n .name = some m ∧ t.kind m = kind := by
  cases hm : (t.childByField n .name).filter (t.kind · == kind) with
  | some m => exact ⟨m, by simpa [Option.filter_eq_some_iff] using hm⟩
  | none =>
    refine absurd ?_ h
    simp only [scopedMember, hm]
    exact no_member _ fun owner name => member owner (t.text name)

theorem ownMember_name {member : String → String → String}
    (h : ownMember t n context member ≠ []) :
    ∃ m, t.childByField n .name = some m ∧ t.kind m = .name := by
  cases hm : (t.childByField n .name).filter (t.kind · == .name) with
  | some m => exact ⟨m, by simpa [Option.filter_eq_some_iff] using hm⟩
  | none =>
    refine absurd ?_ h
    simp only [ownMember, hm]
    exact no_member _ fun owner name => member owner (t.text name)

theorem classConstant_name (h : classConstant t n context ≠ []) :
    ∃ m, (t.children n).getLast? = some m ∧ 1 < (t.children n).length ∧ t.kind m = .name := by
  unfold classConstant at h
  split at h
  · next scope m _ hm =>
    split at h
    · exact absurd rfl h
    · next hc =>
      simp only [Bool.or_eq_true, decide_eq_true_eq, bne_iff_ne, not_or, not_not] at hc
      exact ⟨m, hm, by omega, hc.1.2⟩
  · exact absurd rfl h

theorem useClause_name {i : Import} (h : Import.at? t n = some i) :
    ∃ m, t.nameChild n = some m := by
  cases hm : t.nameChild n with
  | some m => exact ⟨m, rfl⟩
  | none =>
    have hclause (declared : ImportKind) (lead : Option String) :
        Import.ofClause? t n declared lead = none := by
      unfold Import.ofClause?
      split <;> simp [hm]
    simp only [Import.at?, hclause, Option.bind_eq_bind, Option.bind_eq_some_iff] at h
    obtain ⟨above, -, h⟩ := h
    split at h
    · obtain ⟨declaration, -, h⟩ := Option.bind_eq_some_iff.mp h
      split at h <;> cases h
    · obtain ⟨declaration, -, h⟩ := Option.bind_eq_some_iff.mp h
      split at h <;> cases h

theorem not_isSegmentOf_of_isAccess (h : (t.kind n).isAccess = true) :
    isSegmentOf t n = false := by
  unfold isSegmentOf
  split <;> simp_all [NodeKind.isAccess]

theorem widen_nameNode (ha : (t.kind n).isAccess = true) (hr : referencedIn t n context ≠ []) :
    t.parent (nameNode t n) = some n ∧ (t.kind (nameNode t n)).isName = true ∧
      widen t (nameNode t n) n = n := by
  unfold referencedIn at hr
  split at hr
  case h_1 hk | h_2 hk => simp [hk, NodeKind.isAccess] at ha
  case h_3 hk =>
    split at hr
    · next m hm =>
      simp only [Option.filter_eq_some_iff] at hm
      obtain ⟨hp, hf⟩ := childByField_eq_some hm.1
      have hnode : nameNode t n = m := by simp [nameNode, hk, hm.1]
      rw [hnode]
      exact ⟨hp, NodeKind.isName_of_isPlainName hm.2, by simp [widen, hk, hf]⟩
    · exact absurd rfl hr
  case h_4 hk | h_6 hk =>
    obtain ⟨m, hm, hkm⟩ := scopedMember_name hr
    obtain ⟨hp, hf⟩ := childByField_eq_some hm
    have hnode : nameNode t n = m := by simp [nameNode, hk, hm]
    rw [hnode]
    exact ⟨hp, by simp [hkm, NodeKind.isName], by simp [widen, hk, hf]⟩
  case h_5 hk =>
    obtain ⟨m, hm, hlen, hkm⟩ := classConstant_name hr
    have hnode : nameNode t n = m := by simp [nameNode, hk, hm]
    rw [hnode]
    exact ⟨Tree.parent_eq_some_iff.mpr (List.mem_of_getLast? hm), by simp [hkm, NodeKind.isName],
      by simp [widen, hk, hm, hlen]⟩
  case h_7 hk | h_8 hk =>
    obtain ⟨m, hm, hkm⟩ := ownMember_name hr
    obtain ⟨hp, hf⟩ := childByField_eq_some hm
    have hnode : nameNode t n = m := by simp [nameNode, hk, hm]
    rw [hnode]
    exact ⟨hp, by simp [hkm, NodeKind.isName], by simp [widen, hk, hf]⟩
  case h_9 imports hk =>
    have himport : ∃ i, Import.at? t n = some i := by
      cases hi : Import.at? t n with
      | none => simp [hi] at hr
      | some i => exact ⟨i, rfl⟩
    obtain ⟨i, hi⟩ := himport
    obtain ⟨m, hm⟩ := useClause_name hi
    obtain ⟨hp, hkm⟩ := nameChild_eq_some hm
    have hnode : nameNode t n = m := by simp [nameNode, hk, hm]
    rw [hnode]
    exact ⟨hp, hkm, by simp [widen, hk]⟩
  case h_10 => exact absurd rfl hr

theorem isSegment_eq_false_of_access (ha : (t.kind n).isAccess = true)
    (hp : t.parent m = some n) : isSegment t m = false := by
  unfold isSegment
  split <;> simp [hp, not_isSegmentOf_of_isAccess ha]

def takesNames : NodeKind → Bool
  | .useClause _ | .useAlias | .propertyElement | .promotedProperty | .constElement
  | .enumCase => true
  | _ => false

structure StandsAlone (t : Tree) (n : Nat) : Prop where
  not_segment : isSegment t n = false
  not_taken : ∀ p ∈ t.parent n, takesNames (t.kind p) = false
  scope : ∀ p ∈ t.parent n, t.kind p = .classConstantAccess → (t.children p).head? = some n

instance (t : Tree) (n : Nat) : Decidable (StandsAlone t n) :=
  decidable_of_iff
    (isSegment t n = false ∧ (∀ p ∈ t.parent n, takesNames (t.kind p) = false) ∧
      ∀ p ∈ t.parent n, t.kind p = .classConstantAccess → (t.children p).head? = some n)
    ⟨fun h => ⟨h.1, h.2.1, h.2.2⟩, fun h => ⟨h.not_segment, h.not_taken, h.scope⟩⟩

theorem nameUsage_field (hp : t.parent n = some p) (h : nameUsage t n context ≠ []) :
    t.field n ≠ some .name ∧ (t.kind p = .functionCall → t.field n ≠ some .function) := by
  simp only [nameUsage, hp] at h
  constructor
  · intro hf
    simp [hf] at h
  · intro hk hf
    simp [hk, hf] at h

theorem getLast?_ne_of_head? (h : (t.children p).head? = some n)
    (hlen : 1 < (t.children p).length) : (t.children p).getLast? ≠ some n := by
  have hinc := t.children_increasing p
  obtain ⟨rest, hrest⟩ := List.head?_eq_some_iff.mp h
  rw [hrest] at hinc hlen ⊢
  cases rest with
  | nil => simp at hlen
  | cons c rest =>
    rw [List.getLast?_cons_cons]
    intro hlast
    exact Nat.lt_irrefl n ((List.pairwise_cons.mp hinc).1 n (List.mem_of_getLast? hlast))

theorem widen_of_standsAlone (hs : StandsAlone t n) (hp : t.parent n = some p)
    (h : nameUsage t n context ≠ []) : widen t n p = n := by
  obtain ⟨hname, hfunction⟩ := nameUsage_field hp h
  have htaken := hs.not_taken p hp
  have hscope := hs.scope p hp
  unfold widen
  split
  case h_1 hk => exact if_neg (by simpa using hfunction hk)
  case h_6 hk =>
    refine if_neg fun hc => ?_
    simp only [gt_iff_lt, Bool.and_eq_true, decide_eq_true_eq, beq_iff_eq] at hc
    exact getLast?_ne_of_head? (hscope hk) hc.1 hc.2
  case h_7 hk | h_8 hk | h_9 hk | h_10 hk | h_11 hk | h_12 hk => simp [hk, takesNames] at htaken
  all_goals simp [hname]

theorem declaredFqnIn_eq_none (h : (t.kind n).isDeclaration = false) :
    declaredFqnIn t n context = none := by
  have hc : (t.kind n).isClassLike = false := by
    cases hc : (t.kind n).isClassLike with
    | false => rfl
    | true => rw [NodeKind.isDeclaration_of_isClassLike hc] at h; cases h
  unfold declaredFqnIn
  split
  case h_7 => simp [hc]
  all_goals next hk => simp [hk, NodeKind.isDeclaration] at h

theorem nameNode_eq_self (h : (t.kind n).isPlainName = true) : nameNode t n = n := by
  unfold nameNode
  cases hk : t.kind n <;> simp_all [NodeKind.isPlainName, NodeKind.isDeclaration,
    NodeKind.isClassLike]

theorem candidates_of_used? {r : Reference} (h : used? t n = some r) :
    candidates t n = r.names ∧ r.range = t.range (nameNode t n) := by
  unfold used? at h
  split at h
  case isFalse => cases h
  case isTrue hu =>
    have hc : candidates t n = referenced t n := by
      have hd := NodeKind.not_isDeclaration_of_isUsage hu
      simp [candidates, referenced, declaredFqnIn_eq_none hd]
    have hchoices : Choices (referenced t n) := choices_referencedIn t n _
    rw [hc]
    generalize referenced t n = names at h hchoices ⊢
    cases hchoices with
    | none => cases h
    | one name =>
      cases h
      exact ⟨rfl, rfl⟩
    | two hne =>
      cases h
      exact ⟨rfl, rfl⟩

theorem usage_of_used? {r : Reference} (h : used? t n = some r) :
    (t.kind n).isUsage = true ∧ referencedIn t n (NameContext.ofNode t n) ≠ [] := by
  unfold used? at h
  split at h
  case isFalse => cases h
  case isTrue hu =>
    refine ⟨hu, fun hr => ?_⟩
    rw [referenced, hr] at h
    cases h

theorem nameNode_mem_preorder {r : Reference} {i : Nat} (h : used? t n = some r)
    (hn : n ∈ t.preorder i) : nameNode t n ∈ t.preorder i := by
  obtain ⟨hu, hr⟩ := usage_of_used? h
  simp only [NodeKind.isUsage, Bool.or_eq_true] at hu
  rcases hu with hp | ha
  · rwa [nameNode_eq_self hp]
  · have hparent := (widen_nameNode ha hr).1
    exact Tree.child_mem_preorder hn (Tree.parent_eq_some_iff.mp hparent)

theorem target_of_used? {r : Reference} {leaf : Nat} (h : used? t n = some r)
    (hplain : (t.kind n).isPlainName = true → StandsAlone t n)
    (hleaf : wholeName t leaf = wholeName t (nameNode t n)) : target t leaf = n := by
  obtain ⟨hu, hr⟩ := usage_of_used? h
  simp only [NodeKind.isUsage, Bool.or_eq_true] at hu
  rcases hu with hp | ha
  · have hs := hplain hp
    rw [nameNode_eq_self hp, wholeName_of_not_segment hs.not_segment] at hleaf
    have husage : nameUsage t n (NameContext.ofNode t n) ≠ [] := by
      cases hk : t.kind n <;> simp_all [NodeKind.isPlainName, referencedIn]
    cases hparent : t.parent n with
    | none => simp [nameUsage, hparent] at husage
    | some p =>
      rw [target_eq_widen hleaf (NodeKind.isName_of_isPlainName hp) hparent]
      exact widen_of_standsAlone hs hparent husage
  · obtain ⟨hparent, hname, hwiden⟩ := widen_nameNode ha hr
    rw [wholeName_of_not_segment (isSegment_eq_false_of_access ha hparent)] at hleaf
    rw [target_eq_widen hleaf hname hparent, hwiden]

end Resolve

namespace Collect

open Resolve

variable {t : Tree} {n : Nat} {r : Reference}

def Records (t : Tree) (n : Nat) (r : Reference) : Prop :=
  ∃ v ∈ visits t, v.1 = n ∧ (t.kind n).isUsage = true ∧ reference? t n v.2.context = some r

instance (t : Tree) (n : Nat) (r : Reference) : Decidable (Records t n r) :=
  inferInstanceAs (Decidable (∃ v ∈ visits t, _))

theorem Records.used? (h : Records t n r) (hroot : t.kind Tree.root = .program) :
    n ∈ t.preorder Tree.root ∧ used? t n = some r := by
  obtain ⟨v, hv, rfl, hu, hr⟩ := h
  have hmem : v.1 ∈ (t.preorder Tree.root).tail := by
    rw [← map_fst_visits]
    exact List.mem_map_of_mem hv
  have hcontext := (visits_fit (by simp [hroot]) v hv).context_eq
    (NodeKind.ne_namespaceDefinition_of_isUsage hu)
  refine ⟨List.mem_of_mem_tail hmem, ?_⟩
  rw [hcontext] at hr
  rw [Collect.used?, if_pos hu]
  exact hr

theorem Records.mem_references (h : Records t n r) (hroot : t.kind Tree.root = .program)
    (hash : String) (millis : UInt64) : r ∈ (collect t hash millis).references := by
  obtain ⟨hn, hu⟩ := h.used? hroot
  have hmem : r ∈ (findings t).references := by
    rw [findings_references hroot]
    exact List.mem_filterMap.mpr ⟨n, hn, hu⟩
  exact hmem

theorem cursor_on_recorded_reference (t : Tree) (hroot : t.kind Tree.root = .program)
    (hsize : Text.byteLength t.source < 0x100000000) (ha : t.Aligned) (hn : t.Nested)
    {n : Nat} {r : Reference} (hr : Records t n r)
    (hne : t.start (nameNode t n) < t.stop (nameNode t n))
    (hled : LedBySegments t (nameNode t n))
    (hplain : (t.kind n).isPlainName = true → StandsAlone t n) (hash : String) (millis : UInt64) :
    r ∈ (collect t hash millis).references ∧
      ∃ leaf, t.nodeAt? r.range.start = some leaf ∧ candidates t (target t leaf) = r.names := by
  obtain ⟨hmem, hu⟩ := hr.used? hroot
  obtain ⟨hnames, hrange⟩ := candidates_of_used? hu
  refine ⟨hr.mem_references hroot hash millis, t.descend (t.start (nameNode t n)) (nameNode t n),
    ?_, ?_⟩
  · rw [hrange]
    exact Tree.nodeAt?_start hn ha hsize (nameNode_mem_preorder hu hmem) hne
  · rw [target_of_used? hu hplain (wholeName_descend hn hled), hnames]

def callInNamespace : Tree :=
  .ofNodes "file:///a.php" "namespace N;\nf(A\\B::C);"
    [(.program, none, 0, 23, none), (.namespaceDefinition, none, 0, 12, some 0),
     (.namespaceName, some .name, 10, 11, some 1), (.other, none, 13, 23, some 0),
     (.functionCall, none, 13, 22, some 3), (.name, some .function, 13, 14, some 4),
     (.other, some .arguments, 14, 22, some 4), (.other, none, 15, 21, some 6),
     (.classConstantAccess, none, 15, 21, some 7), (.qualifiedName, none, 15, 18, some 8),
     (.other, none, 15, 17, some 9), (.namespaceName, none, 15, 16, some 10),
     (.name, none, 15, 16, some 11), (.name, none, 17, 18, some 9), (.name, none, 20, 21, some 8)]

theorem cursor_on_recorded_reference_in_call :
    let t := callInNamespace
    let call : Reference := ⟨"N\\f()", "file:///a.php", ⟨⟨1, 0⟩, ⟨1, 1⟩⟩, some "f()"⟩
    let scope : Reference := ⟨"N\\A\\B", "file:///a.php", ⟨⟨1, 2⟩, ⟨1, 5⟩⟩, none⟩
    (Records t 4 call ∧ ∃ leaf, t.nodeAt? ⟨1, 0⟩ = some leaf ∧
        candidates t (target t leaf) = ["N\\f()", "f()"]) ∧
      (Records t 9 scope ∧ StandsAlone t 9 ∧ ∃ leaf, t.nodeAt? ⟨1, 2⟩ = some leaf ∧
        candidates t (target t leaf) = ["N\\A\\B"]) := by
  intro t call scope
  have hroot : t.kind Tree.root = .program := by decide
  have hsize : Text.byteLength t.source < 0x100000000 := by decide +kernel
  have ha : t.Aligned := by decide +kernel
  have hn : t.Nested := by decide +kernel
  have hcall : Records t 4 call := by decide +kernel
  have hscope : Records t 9 scope := by decide +kernel
  have halone : StandsAlone t 9 := by decide +kernel
  have hfound := (cursor_on_recorded_reference t hroot hsize ha hn hcall (by decide +kernel)
    (by decide +kernel) (by decide +kernel) "" 0).2
  have hbefore := (cursor_on_recorded_reference t hroot hsize ha hn hscope (by decide +kernel)
    (by decide +kernel) (fun _ => halone) "" 0).2
  exact ⟨⟨hcall, hfound⟩, hscope, halone, hbefore⟩

def constantAlias : Tree :=
  .ofNodes "file:///a.php" "<?php\nconst A = B;\n"
    [(.program, none, 0, 19, none), (.other, none, 0, 5, some 0),
     (.constDeclaration, none, 6, 18, some 0), (.constElement, none, 12, 17, some 2),
     (.name, none, 12, 13, some 3), (.name, none, 16, 17, some 3)]

theorem cursor_on_constant_value :
    let t := constantAlias
    let r : Reference := ⟨"B", "file:///a.php", ⟨⟨1, 10⟩, ⟨1, 11⟩⟩, none⟩
    t.kind Tree.root = .program ∧ t.Aligned ∧ t.Nested ∧ Records t 5 r ∧
      t.start (nameNode t 5) < t.stop (nameNode t 5) ∧ LedBySegments t (nameNode t 5) ∧
      t.nodeAt? r.range.start = some 5 ∧ candidates t (target t 5) = ["A"] := by
  decide +kernel

end Collect

end SemanticIndex
