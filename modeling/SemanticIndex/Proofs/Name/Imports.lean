import SemanticIndex.Proofs.Name.Segments

namespace SemanticIndex

open Text Fqn

def NodeKind.isUseDeclaration : NodeKind → Bool
  | .useDeclaration _ => true
  | _ => false

def ImportKind.key : ImportKind → String → String
  | .classes, name => lower name
  | .functions, name => lower name
  | .constants, name => name

namespace Import

def IsClause (t : Tree) (d c : Nat) : Prop :=
  (t.kind c).isUseClause = true ∧
    (c ∈ t.children d ∨ ∃ g ∈ t.children d, t.kind g = .useGroup ∧ c ∈ t.children g)

def IsRegular (t : Tree) (d : Nat) : Prop :=
  (t.children d).countP (t.kind · == .useGroup) = 0 ∨
    (t.children d).countP (t.kind · == .useGroup) = 1 ∧
      ∀ c ∈ t.children d, (t.kind c).isUseClause = false

instance (t : Tree) (d : Nat) : Decidable (IsRegular t d) :=
  inferInstanceAs (Decidable (_ ∨ _ ∧ ∀ c ∈ t.children d, _))

def aliasOf (t : Tree) (c : Nat) (i : Import) : String :=
  (NameContext.alias? t c).getD (lastSegment i.target)

structure Made (t : Tree) (region : Region) (d c : Nat) (i : Import) : Prop where
  statement : d ∈ NameContext.statements t region
  declaration : (t.kind d).isUseDeclaration = true
  clause : IsClause t d c
  target : Import.at? t c = some i

structure Last (t : Tree) (region : Region) (d c : Nat) (i : Import) : Prop
    extends Made t region d c i where
  last : ∀ d' c' i', Made t region d' c' i' → (d < d' ∨ d = d' ∧ c < c') → i'.kind = i.kind →
    i.kind.key (aliasOf t c' i') ≠ i.kind.key (aliasOf t c i)

variable {t : Tree} {region : Region} {d c : Nat} {i : Import}

inductive Layout (t : Tree) (d : Nat) : Prop
  | plain (hnone : ∀ g ∈ t.children d, t.kind g ≠ .useGroup)
      (hgroup : t.childOfKind d .useGroup = none)
      (hclauses : NameContext.clauses t d = (t.children d).filter fun c => (t.kind c).isUseClause)
  | grouped (g : Nat) (hg : ∀ g', g' ∈ t.children d ∧ t.kind g' = .useGroup ↔ g' = g)
      (hdirect : ∀ c ∈ t.children d, (t.kind c).isUseClause = false)
      (hgroup : t.childOfKind d .useGroup = some g)
      (hclauses : NameContext.clauses t d = (t.children g).filter fun c => (t.kind c).isUseClause)

theorem IsRegular.layout (h : IsRegular t d) : Layout t d := by
  have hfind : t.childOfKind d .useGroup =
      ((t.children d).filter (t.kind · == .useGroup)).head? := List.head?_filter.symm
  rcases h with hnone | ⟨hone, hdirect⟩
  · have hfilter : (t.children d).filter (t.kind · == .useGroup) = [] :=
      List.length_eq_zero_iff.mp (List.countP_eq_length_filter ▸ hnone)
    rw [hfilter] at hfind
    refine .plain (fun g hg hkind => ?_) hfind ?_
    · exact List.filter_eq_nil_iff.mp hfilter g hg (beq_iff_eq.mpr hkind)
    · simp [NameContext.clauses, hfind]
  · obtain ⟨g, hfilter⟩ : ∃ g, (t.children d).filter (t.kind · == .useGroup) = [g] :=
      List.length_eq_one_iff.mp (List.countP_eq_length_filter ▸ hone)
    rw [hfilter] at hfind
    refine .grouped g (fun g' => ?_) hdirect hfind ?_
    · have hmem : g' ∈ (t.children d).filter (t.kind · == .useGroup) ↔
          g' ∈ t.children d ∧ t.kind g' = .useGroup := by
        rw [List.mem_filter, beq_iff_eq]
      rw [← hmem, hfilter, List.mem_singleton]
    · have hfront : (t.children d).filter (fun c => (t.kind c).isUseClause) = [] := by
        simpa using hdirect
      simp [NameContext.clauses, hfind, List.filter_append, hfront]

theorem mem_clauses (hr : IsRegular t d) : c ∈ NameContext.clauses t d ↔ IsClause t d c := by
  unfold IsClause
  cases hr.layout with
  | plain hnone _ hclauses =>
    rw [hclauses, List.mem_filter, and_comm]
    refine and_congr_right fun _ => (or_iff_left ?_).symm
    rintro ⟨g, hg, hkind, -⟩
    exact hnone g hg hkind
  | grouped g hg hdirect _ hclauses =>
    rw [hclauses, List.mem_filter, and_comm]
    refine and_congr_right fun hkind => ?_
    constructor
    · intro hc
      obtain ⟨hmem, hgkind⟩ := (hg g).mpr rfl
      exact .inr ⟨g, hmem, hgkind, hc⟩
    · rintro (hc | ⟨g', hmem, hgkind, hc⟩)
      · rw [hdirect c hc] at hkind
        cases hkind
      · rwa [← (hg g').mp ⟨hmem, hgkind⟩]

theorem pairwise_clauses (hr : IsRegular t d) : (NameContext.clauses t d).Pairwise (· < ·) := by
  cases hr.layout with
  | plain _ _ hclauses => exact hclauses ▸ (t.children_increasing d).filter _
  | grouped g _ _ _ hclauses => exact hclauses ▸ (t.children_increasing g).filter _

theorem at?_eq_ofClause? {declared : ImportKind} (hd : t.kind d = .useDeclaration declared)
    (hr : IsRegular t d) (hc : c ∈ NameContext.clauses t d) :
    Import.at? t c = Import.ofClause? t c declared
      ((t.childOfKind d .useGroup).bind fun _ => Import.groupLead t d) := by
  cases hr.layout with
  | plain _ hgroup hclauses =>
    rw [hclauses] at hc
    have hparent := Tree.parent_eq_some_iff.mpr (List.mem_of_mem_filter hc)
    simp [Import.at?, hparent, hd, hgroup]
  | grouped g hg _ hgroup hclauses =>
    rw [hclauses] at hc
    have hparent := Tree.parent_eq_some_iff.mpr (List.mem_of_mem_filter hc)
    obtain ⟨hmem, hkind⟩ := (hg g).mpr rfl
    simp [Import.at?, hparent, Tree.parent_eq_some_iff.mpr hmem, hkind, hd, hgroup]

def uses (t : Tree) (region : Region) : List (Nat × Nat) :=
  ((NameContext.statements t region).filter fun d => (t.kind d).isUseDeclaration).flatMap fun d =>
    (NameContext.clauses t d).map (d, ·)

theorem statements_increasing (t : Tree) (region : Region) :
    (NameContext.statements t region).Pairwise (· < ·) := by
  cases region with
  | none => exact (t.children_increasing Tree.root).sublist (List.takeWhile_sublist _)
  | some definition =>
    rw [NameContext.statements]
    split
    · next body _ => exact t.children_increasing body
    · exact (t.children_increasing Tree.root).sublist ((List.takeWhile_sublist _).trans
        ((List.drop_sublist 1 _).trans (List.dropWhile_sublist _)))

def AllRegular (t : Tree) (region : Region) : Prop :=
  ∀ d ∈ NameContext.statements t region, (t.kind d).isUseDeclaration = true → IsRegular t d

instance (t : Tree) (region : Region) : Decidable (AllRegular t region) :=
  inferInstanceAs (Decidable (∀ d ∈ NameContext.statements t region, _ → _))

theorem made_iff (h : AllRegular t region) :
    Made t region d c i ↔ (d, c) ∈ uses t region ∧ Import.at? t c = some i := by
  simp only [uses, List.mem_flatMap, List.mem_filter, List.mem_map, Prod.mk.injEq]
  constructor
  · rintro ⟨hmem, hkind, hc, htarget⟩
    exact ⟨⟨d, ⟨hmem, hkind⟩, c, (mem_clauses (h d hmem hkind)).mpr hc, rfl, rfl⟩, htarget⟩
  · rintro ⟨⟨d, ⟨hmem, hkind⟩, c, hc, rfl, rfl⟩, htarget⟩
    exact ⟨hmem, hkind, (mem_clauses (h d hmem hkind)).mp hc, htarget⟩

theorem pairwise_uses (h : AllRegular t region) :
    (uses t region).Pairwise fun p q => p.1 < q.1 ∨ p.1 = q.1 ∧ p.2 < q.2 := by
  rw [uses, List.pairwise_flatMap]
  constructor
  · intro d hd
    obtain ⟨hmem, hkind⟩ := List.mem_filter.mp hd
    rw [List.pairwise_map]
    exact (pairwise_clauses (h d hmem hkind)).imp fun hlt => .inr ⟨rfl, hlt⟩
  · refine ((statements_increasing t region).filter _).imp fun hlt p hp q hq => ?_
    obtain ⟨c, -, rfl⟩ := List.mem_map.mp hp
    obtain ⟨c', -, rfl⟩ := List.mem_map.mp hq
    exact .inl hlt

theorem last_iff (h : AllRegular t region) : Last t region d c i ↔
    (d, c) ∈ uses t region ∧ Import.at? t c = some i ∧
      ∀ p ∈ uses t region, (d < p.1 ∨ d = p.1 ∧ c < p.2) → ∀ i' ∈ Import.at? t p.2,
        i'.kind = i.kind → i.kind.key (aliasOf t p.2 i') ≠ i.kind.key (aliasOf t c i) := by
  constructor
  · rintro ⟨hmade, hlast⟩
    obtain ⟨hmem, htarget⟩ := (made_iff h).mp hmade
    refine ⟨hmem, htarget, fun p hp hafter i' hi' hkind => ?_⟩
    exact hlast p.1 p.2 i' ((made_iff h).mpr ⟨hp, hi'⟩) hafter hkind
  · rintro ⟨hmem, htarget, hlast⟩
    refine ⟨(made_iff h).mpr ⟨hmem, htarget⟩, fun d' c' i' hmade hafter hkind => ?_⟩
    obtain ⟨hmem', htarget'⟩ := (made_iff h).mp hmade
    exact hlast (d', c') hmem' hafter i' htarget' hkind

end Import

namespace NameContext

variable {t : Tree} {region : Region} {d c : Nat} {i : Import} {kind : ImportKind} {name : String}

def table (context : NameContext) : ImportKind → List (String × String)
  | .classes => context.classes
  | .functions => context.functions
  | .constants => context.constants

theorem table_insert (context : NameContext) (i : Import) (name : String) (kind : ImportKind) :
    (context.insert i name).table kind =
      if i.kind = kind then (kind.key name, i.target) :: context.table kind
      else context.table kind := by
  unfold insert
  cases hi : i.kind <;> cases kind <;> rfl

def addImport (t : Tree) (context : NameContext) (c : Nat) : NameContext :=
  match Import.at? t c with
  | none => context
  | some i => context.insert i (Import.aliasOf t c i)

theorem addClause_eq_addImport {context : NameContext} {declared : ImportKind} {lead : Option String}
    (h : Import.at? t c = Import.ofClause? t c declared lead) :
    addClause t declared lead context c = addImport t context c := by
  rw [addClause, addImport, h]
  rfl

theorem addDeclaration_eq_foldl {context : NameContext} (hd : (t.kind d).isUseDeclaration = true)
    (hr : Import.IsRegular t d) :
    addDeclaration t context d = (clauses t d).foldl (addImport t) context := by
  obtain ⟨declared, hkind⟩ : ∃ declared, t.kind d = .useDeclaration declared := by
    cases hk : t.kind d <;> rw [hk] at hd <;> first | exact ⟨_, rfl⟩ | cases hd
  simp only [addDeclaration, hkind]
  exact List.foldl_ext _ _ _ fun context c hc =>
    addClause_eq_addImport (Import.at?_eq_ofClause? hkind hr hc)

theorem addDeclaration_of_not_use {context : NameContext}
    (hd : (t.kind d).isUseDeclaration = false) : addDeclaration t context d = context := by
  unfold addDeclaration
  split
  · next hkind =>
    rw [hkind] at hd
    cases hd
  · rfl

theorem foldl_addDeclaration {ds : List Nat} (context : NameContext)
    (h : ∀ d ∈ ds, (t.kind d).isUseDeclaration = true → Import.IsRegular t d) :
    ds.foldl (addDeclaration t) context =
      ((ds.filter fun d => (t.kind d).isUseDeclaration).flatMap (clauses t)).foldl (addImport t)
        context := by
  induction ds generalizing context with
  | nil => rfl
  | cons d ds ih =>
    have ih := fun context => ih context fun d hd => h d (List.mem_cons_of_mem _ hd)
    cases hd : (t.kind d).isUseDeclaration with
    | false =>
      rw [List.foldl_cons, addDeclaration_of_not_use hd, ih, List.filter_cons_of_neg (by simp [hd])]
    | true =>
      rw [List.foldl_cons, addDeclaration_eq_foldl hd (h d List.mem_cons_self hd), ih,
        List.filter_cons_of_pos (by simp [hd]), List.flatMap_cons, List.foldl_append]

theorem ofRegion_eq_foldl (h : Import.AllRegular t region) : ∃ space, ofRegion t region =
    ((Import.uses t region).map Prod.snd).foldl (addImport t) ⟨space, [], [], []⟩ := by
  have huses : (Import.uses t region).map Prod.snd =
      ((statements t region).filter fun d => (t.kind d).isUseDeclaration).flatMap (clauses t) := by
    simp [Import.uses, List.map_flatMap, Function.comp_def]
  rw [huses]
  exact ⟨_, foldl_addDeclaration _ h⟩

theorem lookup_addImport_self {context : NameContext} (h : Import.at? t c = some i) :
    ((addImport t context c).table i.kind).lookup (i.kind.key (Import.aliasOf t c i)) =
      some i.target := by
  simp [addImport, h, table_insert]

theorem lookup_addImport_of_ne {context : NameContext}
    (h : ∀ i, Import.at? t c = some i → i.kind = kind →
      kind.key (Import.aliasOf t c i) ≠ name) :
    ((addImport t context c).table kind).lookup name = (context.table kind).lookup name := by
  cases hi : Import.at? t c with
  | none => simp [addImport, hi]
  | some i =>
    simp only [addImport, hi, table_insert]
    split
    · next hkind =>
      rw [List.lookup_cons, beq_eq_false_iff_ne.mpr (Ne.symm (h i hi hkind))]
    · rfl

theorem lookup_foldl_of_ne {cs : List Nat} (context : NameContext)
    (h : ∀ c ∈ cs, ∀ i, Import.at? t c = some i → i.kind = kind →
      kind.key (Import.aliasOf t c i) ≠ name) :
    ((cs.foldl (addImport t) context).table kind).lookup name =
      (context.table kind).lookup name := by
  induction cs generalizing context with
  | nil => rfl
  | cons c cs ih =>
    rw [List.foldl_cons, ih _ fun c hc => h c (List.mem_cons_of_mem _ hc),
      lookup_addImport_of_ne (h c List.mem_cons_self)]

theorem lookup_of_last (hr : Import.AllRegular t region) (h : Import.Last t region d c i) :
    ((ofRegion t region).table i.kind).lookup (i.kind.key (Import.aliasOf t c i)) =
      some i.target := by
  obtain ⟨space, hfold⟩ := ofRegion_eq_foldl hr
  obtain ⟨hmem, htarget, hlast⟩ := (Import.last_iff hr).mp h
  obtain ⟨front, rest, hsplit⟩ := List.append_of_mem hmem
  have hafter : ∀ p ∈ rest, d < p.1 ∨ d = p.1 ∧ c < p.2 := by
    have hpairwise := Import.pairwise_uses hr
    rw [hsplit, List.pairwise_append] at hpairwise
    exact (List.pairwise_cons.mp hpairwise.2.1).1
  rw [hfold, hsplit, List.map_append, List.map_cons, List.foldl_append, List.foldl_cons,
    lookup_foldl_of_ne, lookup_addImport_self htarget]
  intro c' hc' i' hi' hkind
  obtain ⟨p, hp, rfl⟩ := List.mem_map.mp hc'
  have hmem' : p ∈ Import.uses t region :=
    hsplit ▸ List.mem_append_right _ (List.mem_cons_of_mem _ hp)
  exact hlast p hmem' (hafter p hp) i' hi' hkind

theorem lookup_eq_none (hr : Import.AllRegular t region)
    (h : ∀ d c i, Import.Made t region d c i → i.kind = kind →
      kind.key (Import.aliasOf t c i) ≠ name) :
    ((ofRegion t region).table kind).lookup name = none := by
  obtain ⟨space, hfold⟩ := ofRegion_eq_foldl hr
  rw [hfold, lookup_foldl_of_ne]
  · cases kind <;> rfl
  · intro c hc i hi hkind
    obtain ⟨p, hp, rfl⟩ := List.mem_map.mp hc
    exact h p.1 p.2 i ((Import.made_iff hr).mpr ⟨hp, hi⟩) hkind

end NameContext

end SemanticIndex
