import SemanticIndex.Proofs.Collect.Regions

namespace SemanticIndex

open Resolve

namespace NodeKind

variable {k : NodeKind}

theorem ne_namespaceDefinition_of_isDeclaration (h : k.isDeclaration = true) :
    k ≠ .namespaceDefinition := by
  rintro rfl
  cases h

theorem ne_namespaceDefinition_of_isUsage (h : k.isUsage = true) : k ≠ .namespaceDefinition := by
  rintro rfl
  cases h

theorem not_isDeclaration_of_isUsage (h : k.isUsage = true) : k.isDeclaration = false := by
  cases hd : k.isDeclaration with
  | false => rfl
  | true => rw [not_isUsage_of_isDeclaration hd] at h; cases h

end NodeKind

namespace Collect

variable {t : Tree} {n : Nat}

def declared? (t : Tree) (n : Nat) : Option String :=
  if (t.kind n).isDeclaration then declaredFqn t n else none

def newName? (t : Tree) (n : Nat) : Option String :=
  (declared? t n).filter fun fqn =>
    ((t.preorder Tree.root).takeWhile (· != n)).all (declared? t · != some fqn)

def used? (t : Tree) (n : Nat) : Option Reference :=
  if (t.kind n).isUsage then
    match referenced t n with
    | [] => none
    | fqn :: others => some ⟨fqn, t.uri, t.range (nameNode t n), others.head?⟩
  else none

theorem declared?_eq (h : (t.kind n).isDeclaration = true) :
    declared? t n = declaredFqnIn t n (NameContext.ofNode t n) :=
  if_pos h

theorem declaredName_isSome {context : NameContext} {fqn : String}
    (h : declaredFqnIn t n context = some fqn) : (declaredName t n).isSome = true := by
  unfold declaredFqnIn at h
  unfold declaredName
  split at h
  case h_7 hp hq _ _ =>
    split at h
    · simp only [classFqn, Option.map_eq_some_iff] at h
      obtain ⟨name, hname, -⟩ := h
      split
      · next hk => exact absurd hk hp
      · next hk => exact absurd hk hq
      · simp [declaredNameNode, hname]
    · cases h
  all_goals simp only [Option.bind_eq_bind, Option.bind_eq_some_iff] at h
  case h_1 hk | h_5 hk =>
    obtain ⟨name, hname, -⟩ := h
    simp [hk, declaredNameNode, hname]
  all_goals obtain ⟨-, -, name, hname, -⟩ := h
  case h_2 hk => simp [hk, declaredNameNode, hname]
  case h_3 hk | h_4 hk | h_6 hk => simp [hk, hname]

theorem symbol?_eq_none {context : NameContext} (h : declaredFqnIn t n context = none) :
    symbol? t n context = none := by
  simp [symbol?, h]

theorem symbol?_eq_some {context : NameContext} {fqn : String}
    (h : declaredFqnIn t n context = some fqn) :
    ∃ s, symbol? t n context = some s ∧ s.fqn = fqn ∧ s.range = t.range n := by
  obtain ⟨name, hname⟩ := Option.isSome_iff_exists.mp (declaredName_isSome h)
  simp [symbol?, h, hname]

theorem Fits.context_eq {scope : Scope} (h : Fits t (n, scope))
    (hk : t.kind n ≠ .namespaceDefinition) : scope.context = NameContext.ofNode t n :=
  congrArg Scope.context (h hk)

theorem visit_references {found : Findings} {v : Nat × Scope} (h : Fits t v) :
    (found.visit t v).references = found.references ++ (used? t v.1).toList := by
  obtain ⟨n, scope⟩ := v
  by_cases hu : (t.kind n).isUsage = true
  · have hk := NodeKind.ne_namespaceDefinition_of_isUsage hu
    have hd := NodeKind.not_isDeclaration_of_isUsage hu
    simp only [Findings.visit, hk, hd, hu, if_true, if_false, Bool.false_eq_true, Findings.refer,
      h.context_eq hk, used?]
    rfl
  · simp only [Findings.visit, used?, hu, Findings.declare]
    split
    · simp
    · split
      · split <;> simp
      · simp

theorem references_foldl {found : Findings} {vs : List (Nat × Scope)} (h : ∀ v ∈ vs, Fits t v) :
    (vs.foldl (Findings.visit t) found).references =
      found.references ++ (vs.map Prod.fst).filterMap (used? t) := by
  induction vs generalizing found with
  | nil => simp
  | cons v vs ih =>
    rw [List.foldl_cons, ih fun w hw => h w (List.mem_cons_of_mem v hw),
      visit_references (h v List.mem_cons_self), List.map_cons, List.filterMap_cons,
      List.append_assoc]
    cases used? t v.1 <;> rfl

theorem visit_definitions_of_none {found : Findings} {scope : Scope} (h : Fits t (n, scope))
    (hn : declared? t n = none) :
    (found.visit t (n, scope)).definitions = found.definitions := by
  simp only [Findings.visit]
  split
  · rfl
  · next hk =>
    split
    · next hd =>
      have hf : declaredFqnIn t n scope.context = none := by
        rw [h.context_eq hk, ← declared?_eq hd, hn]
      simp only [Findings.declare, symbol?_eq_none hf]
    · split <;> rfl

theorem visit_definitions_of_some {found : Findings} {scope : Scope} {fqn : String}
    (h : Fits t (n, scope)) (hn : declared? t n = some fqn) :
    ∃ d : Definition, d.fqn = fqn ∧ d.uri = t.uri ∧ d.range = t.range n ∧
      (found.visit t (n, scope)).definitions =
        if found.definitions.any (·.fqn == fqn) then found.definitions
        else found.definitions ++ [d] := by
  have hd : (t.kind n).isDeclaration = true := by
    by_contra hd
    simp [declared?, hd] at hn
  have hk := NodeKind.ne_namespaceDefinition_of_isDeclaration hd
  have hf : declaredFqnIn t n (NameContext.ofNode t n) = some fqn := by
    rw [← declared?_eq hd, hn]
  obtain ⟨s, hs, rfl, hr⟩ := symbol?_eq_some hf
  refine ⟨definition t n (NameContext.ofNode t n) s, rfl, rfl, hr, ?_⟩
  simp only [Findings.visit, hk, hd, if_true, if_false, Findings.declare, h.context_eq hk, hs]

structure Recorded (t : Tree) (done : List Nat) (ds : List Definition) : Prop where
  keys : ds.map (fun d => (d.fqn, d.uri, d.range)) =
    done.filterMap fun n => (newName? t n).map fun fqn => (fqn, t.uri, t.range n)
  names : ∀ fqn, ds.any (·.fqn == fqn) = true ↔ ∃ n ∈ done, declared? t n = some fqn

theorem newName?_eq {done rest : List Nat} (hs : t.preorder Tree.root = done ++ n :: rest) :
    newName? t n = (declared? t n).filter fun fqn => done.all (declared? t · != some fqn) := by
  have hn : ∀ m ∈ done, m ≠ n := by
    have hnodup := t.preorder_nodup Tree.root
    rw [hs] at hnodup
    rintro m hm rfl
    exact (List.nodup_append.mp hnodup).2.2 m hm m List.mem_cons_self rfl
  have hb : (t.preorder Tree.root).takeWhile (· != n) = done := by
    rw [hs, List.takeWhile_append_of_pos (by simpa using hn)]
    simp
  rw [newName?, hb]

theorem Recorded.visit {done rest : List Nat} {found : Findings} {scope : Scope}
    (h : Recorded t done found.definitions) (hf : Fits t (n, scope))
    (hs : t.preorder Tree.root = done ++ n :: rest) :
    Recorded t (done ++ [n]) (found.visit t (n, scope)).definitions := by
  cases hn : declared? t n with
  | none =>
    rw [visit_definitions_of_none hf hn]
    refine ⟨by simp [h.keys, newName?_eq hs, hn], fun fqn => ?_⟩
    simp only [h.names, List.mem_append, List.mem_singleton, or_and_right, exists_or,
      exists_eq_left, hn, reduceCtorEq, or_false]
  | some fqn =>
    obtain ⟨d, hd, hu, hr, hds⟩ := visit_definitions_of_some hf hn
    rw [hds]
    by_cases hany : found.definitions.any (·.fqn == fqn) = true
    · obtain ⟨m, hm, hdm⟩ := (h.names fqn).mp hany
      have hold : newName? t n = none := by
        simp only [newName?_eq hs, hn, Option.filter_eq_none_iff, Option.some.injEq, forall_eq']
        simpa using ⟨m, hm, hdm⟩
      rw [if_pos hany]
      refine ⟨by simp [h.keys, hold], fun other => ?_⟩
      rw [h.names]
      constructor
      · rintro ⟨k, hk, he⟩
        exact ⟨k, List.mem_append_left _ hk, he⟩
      · rintro ⟨k, hk, he⟩
        rcases List.mem_append.mp hk with hk | hk
        · exact ⟨k, hk, he⟩
        · rw [List.mem_singleton.mp hk, hn] at he
          exact ⟨m, hm, hdm.trans he⟩
    · have hnew : newName? t n = some fqn := by
        rw [newName?_eq hs, hn, Option.filter_some, if_pos]
        simpa using fun m hm he => hany ((h.names fqn).mpr ⟨m, hm, he⟩)
      rw [if_neg hany]
      refine ⟨by simp [h.keys, hnew, hd, hu, hr], fun other => ?_⟩
      simp only [List.any_append, Bool.or_eq_true, h.names, List.mem_append, or_and_right,
        exists_or, List.mem_singleton, exists_eq_left, hn]
      simp [hd]

theorem Recorded.foldl {done : List Nat} {found : Findings} {vs : List (Nat × Scope)}
    (h : Recorded t done found.definitions) (hf : ∀ v ∈ vs, Fits t v)
    (hs : t.preorder Tree.root = done ++ vs.map Prod.fst) :
    Recorded t (done ++ vs.map Prod.fst) (vs.foldl (Findings.visit t) found).definitions := by
  induction vs generalizing done found with
  | nil => simpa using h
  | cons v vs ih =>
    have hv := h.visit (hf v List.mem_cons_self) hs
    have hrest := ih hv (fun w hw => hf w (List.mem_cons_of_mem v hw)) (by simp [hs])
    simpa using hrest

theorem recorded_findings (hroot : t.kind Tree.root = .program) :
    Recorded t (t.preorder Tree.root) (findings t).definitions := by
  have hnone : declared? t Tree.root = none := by simp [declared?, hroot, NodeKind.isDeclaration,
    NodeKind.isClassLike]
  have hstart : Recorded t [Tree.root] Findings.empty.definitions :=
    ⟨by simp [Findings.empty, newName?, hnone], by simp [Findings.empty, hnone]⟩
  have hs : t.preorder Tree.root = [Tree.root] ++ (visits t).map Prod.fst := by
    rw [map_fst_visits, Tree.preorder_eq]
    rfl
  have hfits : ∀ v ∈ visits t, Fits t v := visits_fit (by simp [hroot])
  have hall := hstart.foldl hfits hs
  rwa [← hs] at hall

theorem findings_references (hroot : t.kind Tree.root = .program) :
    (findings t).references = (t.preorder Tree.root).filterMap (used? t) := by
  have hnone : used? t Tree.root = none := by simp [used?, hroot, NodeKind.isUsage,
    NodeKind.isPlainName, NodeKind.isAccess]
  rw [findings, references_foldl (visits_fit (by simp [hroot])), map_fst_visits, Tree.preorder_eq,
    List.tail_cons, List.filterMap_cons_none hnone]
  rfl

theorem collect_agrees_with_resolution (t : Tree) (hroot : t.kind Tree.root = .program)
    (hash : String) (millis : UInt64) :
    let f := collect t hash millis
    let order := t.preorder Tree.root
    order.Nodup ∧ (∀ n, n ∈ order ↔ n = Tree.root ∨ Tree.root ∈ t.ancestors n) ∧
      (f.definitions.map fun d => (d.fqn, d.uri, d.range)) =
        (order.filterMap fun n => (newName? t n).map fun fqn => (fqn, t.uri, t.range n)) ∧
      f.references = order.filterMap (used? t) ∧
      (visits t).map Prod.fst = order.tail ∧
      ∀ v ∈ visits t, (t.kind v.1).isDeclaration = true ∨ (t.kind v.1).isUsage = true →
        v.2.region = Region.of t v.1 := by
  intro f order
  refine ⟨t.preorder_nodup _, fun n => ?_, (recorded_findings hroot).keys, findings_references hroot,
    map_fst_visits t, fun v hv hk => ?_⟩
  · rw [Tree.mem_preorder_iff, List.mem_cons, eq_comm]
  · have hne : t.kind v.1 ≠ .namespaceDefinition :=
      hk.elim NodeKind.ne_namespaceDefinition_of_isDeclaration
        NodeKind.ne_namespaceDefinition_of_isUsage
    rw [visits_fit (by simp [hroot]) v hv hne]
    rfl

def twoNamespaces : Tree :=
  .ofNodes "file:///a.php" "namespace A;f();namespace B;f();function f(){}function f(){}"
    [(.program, none, 0, 60, none), (.namespaceDefinition, none, 0, 12, some 0),
     (.namespaceName, some .name, 10, 11, some 1), (.functionCall, none, 12, 15, some 0),
     (.name, some .function, 12, 13, some 3), (.namespaceDefinition, none, 16, 28, some 0),
     (.namespaceName, some .name, 26, 27, some 5), (.functionCall, none, 28, 31, some 0),
     (.name, some .function, 28, 29, some 7), (.functionDefinition, none, 32, 46, some 0),
     (.name, some .name, 41, 42, some 9), (.functionDefinition, none, 46, 60, some 0),
     (.name, some .name, 55, 56, some 11)]

theorem collect_agrees_with_resolution_in_two_namespaces :
    twoNamespaces.kind Tree.root = .program ∧
      ((collect twoNamespaces "" 0).definitions.map fun d => (d.fqn, d.uri, d.range)) =
        [("B\\f()", "file:///a.php", ⟨⟨0, 32⟩, ⟨0, 46⟩⟩)] ∧
      (collect twoNamespaces "" 0).references =
        [⟨"A\\f()", "file:///a.php", ⟨⟨0, 12⟩, ⟨0, 13⟩⟩, some "f()"⟩,
         ⟨"B\\f()", "file:///a.php", ⟨⟨0, 28⟩, ⟨0, 29⟩⟩, some "f()"⟩] := by
  have hroot : twoNamespaces.kind Tree.root = .program := by decide
  obtain ⟨-, -, hdefs, hrefs, -, -⟩ := collect_agrees_with_resolution twoNamespaces hroot "" 0
  rw [hdefs, hrefs]
  exact ⟨hroot, by decide +kernel, by decide +kernel⟩

end Collect

end SemanticIndex
