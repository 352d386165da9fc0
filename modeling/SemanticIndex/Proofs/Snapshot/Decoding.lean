import Mathlib.Data.List.Perm.Basic
import SemanticIndex.Proofs.Snapshot.Assembly

namespace SemanticIndex

def SpanColumns.Fits (s : SpanColumns) : Prop :=
  ∀ n ∈ [s.startLine, s.startCharacter, s.endLine, s.endCharacter], 0 ≤ n ∧ n < 0x100000000

def KnownKind (name : String) : Prop := ∃ kind : SymbolKind, kind.name = name

def ListsNames (text : String) : Prop := ∃ names, Tables.names? text = some names

structure SymbolRow.Says (row : SymbolRow) (s : Symbol) : Prop where
  fqn : s.fqn = row.fqn
  name : s.name = row.name
  kind : s.kind.name = row.kind
  space : s.space = row.space
  container : s.container = row.container
  span : Tables.spanOf s.range = row.span

structure DefinitionRow.Says (row : DefinitionRow) (uri : String) (d : Definition) : Prop where
  fqn : d.fqn = row.fqn
  name : d.name = row.name
  kind : d.kind.name = row.kind
  uri : d.uri = uri
  span : Tables.spanOf d.range = row.span
  container : d.container = row.container
  signature : d.signature = row.signature
  documentation : d.documentation = row.documentation
  parents : Tables.names? row.parents = some d.parents

structure ReferenceRow.Says (row : ReferenceRow) (uri : String) (r : Reference) : Prop where
  fqn : r.fqn = row.fqn
  uri : r.uri = uri
  span : Tables.spanOf r.range = row.span
  fallback : r.fallback = row.fallback

namespace SymbolKind

theorem ofName?_eq_some {name : String} {kind : SymbolKind} :
    ofName? name = some kind ↔ kind.name = name := by
  constructor
  · intro h
    simpa using List.find?_some h
  · rintro rfl
    exact ofName?_name kind

theorem ofName?_isSome {name : String} : (ofName? name).isSome = true ↔ KnownKind name := by
  rw [Option.isSome_iff_exists]
  exact exists_congr fun kind => ofName?_eq_some

end SymbolKind

namespace Tables

theorem word?_eq_some {n : Int} {w : UInt32} : word? n = some w ↔ (w.toNat : Int) = n := by
  constructor
  · intro h
    unfold word? at h
    split at h
    · next hn =>
      cases h
      have hlt : n.toNat < UInt32.size := by simp only [UInt32.size]; omega
      rw [Nat.toUInt32_eq, UInt32.toNat_ofNat_of_lt' hlt]
      omega
    · cases h
  · rintro rfl
    exact word?_toNat w

theorem word?_isSome {n : Int} : (word? n).isSome = true ↔ 0 ≤ n ∧ n < 0x100000000 := by
  unfold word?
  split <;> simp_all

theorem range?_eq_some {span : SpanColumns} {r : Range} :
    range? span = some r ↔ spanOf r = span := by
  constructor
  · intro h
    simp only [range?, Option.bind_eq_bind, Option.bind_eq_some_iff, word?_eq_some,
      Option.some.injEq] at h
    obtain ⟨a, ha, b, hb, c, hc, d, hd, rfl⟩ := h
    rw [spanOf, ha, hb, hc, hd]
  · rintro rfl
    exact range?_spanOf r

theorem range?_isSome {span : SpanColumns} : (range? span).isSome = true ↔ span.Fits := by
  simp only [SpanColumns.Fits, List.forall_mem_cons, List.not_mem_nil, false_imp_iff, forall_const,
    and_true, ← word?_isSome]
  unfold range?
  cases word? span.startLine <;> cases word? span.startCharacter <;> cases word? span.endLine <;>
    cases word? span.endCharacter <;> simp

theorem symbol?_eq_some {row : SymbolRow} {s : Symbol} : symbol? row = some s ↔ row.Says s := by
  simp only [symbol?, Option.bind_eq_bind, Option.bind_eq_some_iff, SymbolKind.ofName?_eq_some,
    range?_eq_some, Option.some.injEq]
  constructor
  · rintro ⟨kind, hkind, range, hrange, rfl⟩
    exact ⟨rfl, rfl, hkind, rfl, rfl, hrange⟩
  · obtain ⟨name, kind, fqn, range, space, container⟩ := s
    rintro ⟨rfl, rfl, hkind, rfl, rfl, hrange⟩
    exact ⟨kind, hkind, range, hrange, rfl⟩

theorem definition?_eq_some {uri : String} {row : DefinitionRow} {d : Definition} :
    definition? uri row = some d ↔ row.Says uri d := by
  simp only [definition?, Option.bind_eq_bind, Option.bind_eq_some_iff, SymbolKind.ofName?_eq_some,
    range?_eq_some, Option.some.injEq]
  constructor
  · rintro ⟨kind, hkind, range, hrange, parents, hparents, rfl⟩
    exact ⟨rfl, rfl, hkind, rfl, hrange, rfl, rfl, rfl, hparents⟩
  · obtain ⟨fqn, name, kind, uri, range, container, signature, documentation, parents⟩ := d
    rintro ⟨rfl, rfl, hkind, rfl, hrange, rfl, rfl, rfl, hparents⟩
    exact ⟨kind, hkind, range, hrange, parents, hparents, rfl⟩

theorem reference?_eq_some {uri : String} {row : ReferenceRow} {x : Reference} :
    reference? uri row = some x ↔ row.Says uri x := by
  simp only [reference?, Option.map_eq_some_iff, range?_eq_some]
  constructor
  · rintro ⟨range, hrange, rfl⟩
    exact ⟨rfl, rfl, hrange, rfl⟩
  · obtain ⟨fqn, uri, range, fallback⟩ := x
    rintro ⟨rfl, rfl, hrange, rfl⟩
    exact ⟨range, hrange, rfl⟩

theorem symbol?_isSome {row : SymbolRow} :
    (symbol? row).isSome = true ↔ KnownKind row.kind ∧ row.span.Fits := by
  rw [← SymbolKind.ofName?_isSome, ← range?_isSome]
  unfold symbol?
  cases SymbolKind.ofName? row.kind <;> cases range? row.span <;> simp

theorem definition?_isSome {uri : String} {row : DefinitionRow} :
    (definition? uri row).isSome = true ↔
      KnownKind row.kind ∧ row.span.Fits ∧ ListsNames row.parents := by
  rw [← SymbolKind.ofName?_isSome, ← range?_isSome, ListsNames, ← Option.isSome_iff_exists]
  unfold definition?
  cases SymbolKind.ofName? row.kind <;> cases range? row.span <;> cases names? row.parents <;> simp

theorem reference?_isSome {uri : String} {row : ReferenceRow} :
    (reference? uri row).isSome = true ↔ row.span.Fits := by
  rw [reference?, Option.isSome_map, range?_isSome]

namespace Rows

structure Decodable (r : Rows) : Prop where
  symbols : ∀ row ∈ r.symbols, KnownKind row.kind ∧ row.span.Fits
  definitions : ∀ row ∈ r.definitions,
    KnownKind row.kind ∧ row.span.Fits ∧ ListsNames row.parents
  references : ∀ row ∈ r.references, row.span.Fits

structure Housed (r : Rows) : Prop where
  namespaces : ∀ row ∈ r.namespaces, row.fileSeq ∈ r.files.map FileRow.seq
  symbols : ∀ row ∈ r.symbols, row.fileSeq ∈ r.files.map FileRow.seq
  definitions : ∀ row ∈ r.definitions, row.fileSeq ∈ r.files.map FileRow.seq
  references : ∀ row ∈ r.references, row.fileSeq ∈ r.files.map FileRow.seq
  places : ∀ row ∈ r.symbols, max row.namespaceOrdinal 0 <
    (r.namespaces.filter (·.fileSeq = row.fileSeq)).length

theorem mem_symbolsOf {r : Rows} {s : Int} {row : SymbolRow} :
    row ∈ r.symbolsOf s ↔ row ∈ r.symbols ∧ row.fileSeq = s := by
  simp [symbolsOf, symbolsInOrder]

theorem mem_definitionsOf {r : Rows} {s : Int} {row : DefinitionRow} :
    row ∈ r.definitionsOf s ↔ row ∈ r.definitions ∧ row.fileSeq = s := by
  simp [definitionsOf, definitionsInOrder]

theorem mem_referencesOf {r : Rows} {s : Int} {row : ReferenceRow} :
    row ∈ r.referencesOf s ↔ row ∈ r.references ∧ row.fileSeq = s := by
  simp [referencesOf, referencesInOrder]

theorem forall_mem_owners {r : Rows} {p : Int → Prop} :
    (∀ k ∈ r.owners, p k) ↔ (∀ row ∈ r.namespaces, p row.fileSeq) ∧
      (∀ row ∈ r.symbols, p row.fileSeq) ∧ (∀ row ∈ r.definitions, p row.fileSeq) ∧
      ∀ row ∈ r.references, p row.fileSeq := by
  simp only [owners, namespacesInOrder, symbolsInOrder, definitionsInOrder, referencesInOrder,
    List.forall_mem_append, List.forall_mem_map, List.mem_mergeSort, and_assoc]

theorem length_namespacesOf (r : Rows) (s : Int) :
    (r.namespacesOf s).length = (r.namespaces.filter (·.fileSeq = s)).length :=
  ((List.mergeSort_perm _ _).filter _).length_eq

end Rows

section Items

variable {ρ α : Type} {item? : ρ → Option α}

theorem exists_items {rows : List ρ} :
    (∃ xs, List.Forall₂ (fun row x => item? row = some x) rows xs) ↔
      ∀ row ∈ rows, (item? row).isSome = true := by
  induction rows with
  | nil => simp
  | cons row rows ih =>
    rw [List.forall_mem_cons, ← ih, Option.isSome_iff_exists]
    constructor
    · rintro ⟨_, hxs⟩
      obtain ⟨x, xs, hx, hrest, -⟩ := List.forall₂_cons_left_iff.mp hxs
      exact ⟨⟨x, hx⟩, xs, hrest⟩
    · rintro ⟨⟨x, hx⟩, xs, hrest⟩
      exact ⟨x :: xs, .cons hx hrest⟩

theorem forall₂_of_map_eq {γ : Type} {f : ρ → γ} {g : α → γ} {rows : List ρ} {xs : List α}
    (h : rows.map f = xs.map g) : List.Forall₂ (fun row x => f row = g x) rows xs := by
  rwa [← List.forall₂_eq_eq_eq, List.forall₂_map_left_iff, List.forall₂_map_right_iff] at h

end Items

structure Filled (r : Rows) (row : FileRow) (g : File) : Prop where
  rest : g = { draftOf row with
    namespaces := g.namespaces, definitions := g.definitions, references := g.references }
  names : (r.namespacesOf row.seq).map NamespaceRow.name = g.namespaces.map Namespace.name
  symbols : ∃ symbols, List.Forall₂ (fun x sym => symbol? x = some sym) (r.symbolsOf row.seq) symbols ∧
    g.symbols.Perm symbols
  definitions : List.Forall₂ (fun x d => definition? row.uri x = some d) (r.definitionsOf row.seq)
    g.definitions
  references : List.Forall₂ (fun x y => reference? row.uri x = some y) (r.referencesOf row.seq)
    g.references
  places : ∀ x ∈ r.symbolsOf row.seq, namespacePlace x < (r.namespacesOf row.seq).length

theorem filled_of_fill {r : Rows} {row : FileRow} {g : File}
    (h : r.fill row.seq (draftOf row) = some g) : Filled r row g := by
  simp only [Rows.fill, foldlM_placeNamespace, Option.bind_eq_bind, Option.bind_some,
    Option.bind_eq_some_iff, foldlM_placeDefinition, foldlM_placeReference] at h
  obtain ⟨_, ⟨f, hf, ds, hds, rfl⟩, rs, hrs, rfl⟩ := h
  obtain ⟨hplaces, symbols, hitems, hrest, hnames, hperm⟩ := foldlM_placeSymbol hf
  obtain ⟨uri, hash, millis, errors, namespaces, definitions, references⟩ := f
  simp only [draftOf, File.mk.injEq] at hrest
  obtain ⟨rfl, rfl, rfl, rfl, -, rfl, rfl⟩ := hrest
  have hnone : (((r.namespacesOf row.seq).map fun x => (⟨x.name, []⟩ : Namespace)).flatMap
      Namespace.symbols) = [] := by simp [List.flatMap_map]
  refine ⟨rfl, by simpa [draftOf, Function.comp_def] using hnames.symm, ⟨symbols, hitems, ?_⟩, hds, hrs,
    by simpa [draftOf] using hplaces⟩
  simpa [File.symbols, draftOf, hnone] using hperm

theorem fill_isSome {r : Rows} {s : Int} {row : FileRow}
    (hsymbols : ∀ x ∈ r.symbolsOf s, (symbol? x).isSome = true ∧
      namespacePlace x < (r.namespacesOf s).length)
    (hdefinitions : ∀ x ∈ r.definitionsOf s, ∀ uri, (definition? uri x).isSome = true)
    (hreferences : ∀ x ∈ r.referencesOf s, ∀ uri, (reference? uri x).isSome = true) :
    (r.fill s (draftOf row)).isSome = true := by
  obtain ⟨f, hf⟩ := Option.isSome_iff_exists.mp (foldlM_placeSymbol_isSome
    (f := { draftOf row with namespaces := (r.namespacesOf s).map fun x => ⟨x.name, []⟩ })
    (by simpa using hsymbols))
  obtain ⟨ds, hds⟩ := exists_items.mpr fun x hx => hdefinitions x hx f.uri
  obtain ⟨rs, hrs⟩ := exists_items.mpr fun x hx => hreferences x hx f.uri
  rw [Option.isSome_iff_exists]
  simp only [Rows.fill, foldlM_placeNamespace, Option.bind_eq_bind, Option.bind_some,
    Option.bind_eq_some_iff, foldlM_placeDefinition, foldlM_placeReference]
  exact ⟨_, _, ⟨f, hf, ds, hds, rfl⟩, rs, hrs, rfl⟩

section Drafts

variable {rows : List FileRow} {s : Int} {f : File}

theorem map_fst_drafts : (drafts rows).map Prod.fst =
    (rows.mergeSort fun a b => a.seq ≤ b.seq).map FileRow.seq := by
  rw [drafts, List.map_map]
  rfl

theorem mem_keys_drafts : s ∈ (drafts rows).map Prod.fst ↔ s ∈ rows.map FileRow.seq := by
  rw [map_fst_drafts]
  exact ((List.mergeSort_perm rows _).map FileRow.seq).mem_iff

theorem draft?_of_mem {files : Drafts} (hkeys : (files.map Prod.fst).Nodup) (h : (s, f) ∈ files) :
    draft? files s = some f := by
  induction files with
  | nil => cases h
  | cons a files ih =>
    rw [List.map_cons, List.nodup_cons] at hkeys
    rw [draft?, List.lookup_cons]
    rcases List.mem_cons.mp h with rfl | h
    · simp
    · have hne : (s == a.1) = false := by
        rw [beq_eq_false_iff_ne]
        rintro rfl
        exact hkeys.1 (List.mem_map.mpr ⟨(a.1, f), h, rfl⟩)
      rw [hne]
      exact ih hkeys.2 h

theorem draft?_drafts (h : draft? (drafts rows) s = some f) : ∃ row, row.seq = s ∧ f = draftOf row := by
  rw [draft?, List.lookup_eq_some_iff] at h
  obtain ⟨before, after, hfiles, -⟩ := h
  have hmem : (s, f) ∈ drafts rows := by simp [hfiles]
  obtain ⟨row, -, hrow⟩ := List.mem_map.mp hmem
  cases hrow
  exact ⟨row, rfl, rfl⟩

end Drafts

theorem enterAll_isOk {r : Rows} :
    (∃ files, r.enterAll (drafts r.files) = .ok files) ↔ r.Decodable ∧ r.Housed := by
  constructor
  · rintro ⟨files, hrun⟩
    obtain ⟨-, howners, hfill⟩ := r.fills.sound hrun
    obtain ⟨hns, hsyms, hdefs, hrefs⟩ := Rows.forall_mem_owners.mp howners
    have hfilled (s : Int) (hs : s ∈ (drafts r.files).map Prod.fst) :
        ∃ row g, row.seq = s ∧ Filled r row g := by
      obtain ⟨f, hf⟩ := Option.isSome_iff_exists.mp (draft?_isSome.mpr hs)
      obtain ⟨row, rfl, rfl⟩ := draft?_drafts hf
      obtain ⟨g, hg⟩ := Option.isSome_iff_exists.mp (hfill _ _ hf).1
      exact ⟨row, g, rfl, filled_of_fill hg⟩
    simp only [mem_keys_drafts] at hns hsyms hdefs hrefs
    refine ⟨⟨fun x hx => ?_, fun x hx => ?_, fun x hx => ?_⟩, hns, hsyms, hdefs, hrefs, fun x hx => ?_⟩
    · obtain ⟨row, g, hrow, hg⟩ := hfilled _ (mem_keys_drafts.mpr (hsyms x hx))
      obtain ⟨symbols, hitems, -⟩ := hg.symbols
      exact symbol?_isSome.mp
        (exists_items.mp ⟨_, hitems⟩ x (Rows.mem_symbolsOf.mpr ⟨hx, hrow.symm⟩))
    · obtain ⟨row, g, hrow, hg⟩ := hfilled _ (mem_keys_drafts.mpr (hdefs x hx))
      exact definition?_isSome.mp
        (exists_items.mp ⟨_, hg.definitions⟩ x (Rows.mem_definitionsOf.mpr ⟨hx, hrow.symm⟩))
    · obtain ⟨row, g, hrow, hg⟩ := hfilled _ (mem_keys_drafts.mpr (hrefs x hx))
      exact reference?_isSome.mp
        (exists_items.mp ⟨_, hg.references⟩ x (Rows.mem_referencesOf.mpr ⟨hx, hrow.symm⟩))
    · obtain ⟨row, g, hrow, hg⟩ := hfilled _ (mem_keys_drafts.mpr (hsyms x hx))
      have hplace := hg.places x (Rows.mem_symbolsOf.mpr ⟨hx, hrow.symm⟩)
      rw [hrow, Rows.length_namespacesOf, namespacePlace] at hplace
      omega
  · rintro ⟨hdec, hhoused⟩
    refine r.fills.complete (Rows.forall_mem_owners.mpr ?_) fun s f hf => ?_
    · simp only [mem_keys_drafts]
      exact ⟨hhoused.namespaces, hhoused.symbols, hhoused.definitions, hhoused.references⟩
    · obtain ⟨row, -, rfl⟩ := draft?_drafts hf
      refine fill_isSome (fun x hx => ?_) (fun x hx uri => ?_) (fun x hx uri => ?_)
      · obtain ⟨hmem, rfl⟩ := Rows.mem_symbolsOf.mp hx
        have hplace := hhoused.places x hmem
        refine ⟨symbol?_isSome.mpr (hdec.symbols x hmem), ?_⟩
        rw [Rows.length_namespacesOf, namespacePlace]
        omega
      · exact definition?_isSome.mpr (hdec.definitions x (Rows.mem_definitionsOf.mp hx).1)
      · exact reference?_isSome.mpr (hdec.references x (Rows.mem_referencesOf.mp hx).1)

def Listed {ρ α : Type} (rows : List ρ) (key ordinal : ρ → Int) (s : Int) (Tells : ρ → α → Prop)
    (items : List α) : Prop :=
  ∃ own, own.Perm (rows.filter (key · = s)) ∧ own.Pairwise (ordinal · ≤ ordinal ·) ∧
    List.Forall₂ Tells own items

structure Rows.Gives (r : Rows) (row : FileRow) (f : File) : Prop where
  uri : f.uri = row.uri
  contentHash : f.contentHash = row.contentHash
  parseMillis : f.parseMillis = (max row.parseMillis 0).toNat.toUInt64
  hasErrors : f.hasErrors = row.hasErrors
  namespaces : Listed r.namespaces NamespaceRow.fileSeq NamespaceRow.ordinal row.seq
    (fun x n => x.name = n.name) f.namespaces
  definitions : Listed r.definitions DefinitionRow.fileSeq DefinitionRow.ordinal row.seq
    (fun x d => x.Says row.uri d) f.definitions
  references : Listed r.references ReferenceRow.fileSeq ReferenceRow.ordinal row.seq
    (fun x y => x.Says row.uri y) f.references
  symbols : ∃ own, own.Perm (r.symbols.filter (·.fileSeq = row.seq)) ∧
    List.Forall₂ SymbolRow.Says own f.symbols

theorem inOrder_total (a b : Int × Int) : (inOrder a b || inOrder b a) = true := by
  simp only [inOrder, Bool.or_eq_true, Bool.and_eq_true, decide_eq_true_eq, beq_iff_eq]
  omega

theorem inOrder_trans (a b c : Int × Int) (hab : inOrder a b = true) (hbc : inOrder b c = true) :
    inOrder a c = true := by
  simp only [inOrder, Bool.or_eq_true, Bool.and_eq_true, decide_eq_true_eq, beq_iff_eq] at *
  omega

theorem listed_of_sorted {ρ α : Type} {rows : List ρ} {key ordinal : ρ → Int} {s : Int}
    {Tells : ρ → α → Prop} {items : List α}
    (h : List.Forall₂ Tells
      ((rows.mergeSort fun a b => inOrder (key a, ordinal a) (key b, ordinal b)).filter (key · = s))
      items) : Listed rows key ordinal s Tells items := by
  refine ⟨_, (List.mergeSort_perm _ _).filter _, ?_, h⟩
  have hsorted : (rows.mergeSort fun a b => inOrder (key a, ordinal a) (key b, ordinal b)).Pairwise
      fun a b => inOrder (key a, ordinal a) (key b, ordinal b) = true := by
    refine List.pairwise_mergeSort (fun a b c => ?_) (fun a b => ?_) rows
    · exact inOrder_trans _ _ _
    · exact inOrder_total _ _
  rw [List.pairwise_filter]
  refine hsorted.imp fun hab ha hb => ?_
  simp only [inOrder, Bool.or_eq_true, Bool.and_eq_true, decide_eq_true_eq, beq_iff_eq] at hab ha hb
  omega

theorem Filled.gives {r : Rows} {row : FileRow} {f : File} (h : Filled r row f) : r.Gives row f := by
  obtain ⟨hrest, hnames, ⟨symbols, hitems, hperm⟩, hdefs, hrefs, -⟩ := h
  refine ⟨by rw [hrest]; rfl, by rw [hrest]; rfl, by rw [hrest]; rfl, by rw [hrest]; rfl,
    listed_of_sorted (forall₂_of_map_eq hnames),
    listed_of_sorted (hdefs.imp fun _ _ => definition?_eq_some.mp),
    listed_of_sorted (hrefs.imp fun _ _ => reference?_eq_some.mp), ?_⟩
  have hcomp : Relation.Comp (List.Forall₂ SymbolRow.Says) List.Perm (r.symbolsOf row.seq) f.symbols :=
    ⟨symbols, hitems.imp fun _ _ => symbol?_eq_some.mp, hperm.symm⟩
  rw [List.forall₂_comp_perm_eq_perm_comp_forall₂] at hcomp
  obtain ⟨own, hown, hsays⟩ := hcomp
  exact ⟨own, hown.symm.trans ((List.mergeSort_perm _ _).filter _), hsays⟩

theorem filled_of_enterAll {r : Rows} {files : Drafts}
    (hrun : r.enterAll (drafts r.files) = .ok files) (hkeys : (r.files.map FileRow.seq).Nodup) :
    ∃ sorted, sorted.Perm r.files ∧ sorted.Pairwise (·.seq < ·.seq) ∧
      List.Forall₂ (fun row f => r.fill row.seq (draftOf row) = some f) sorted
        (files.map Prod.snd) := by
  obtain ⟨hsame, -, hfill⟩ := r.fills.sound hrun
  let sorted := r.files.mergeSort fun a b => a.seq ≤ b.seq
  have hperm : sorted.Perm r.files := List.mergeSort_perm _ _
  have hkeys : (sorted.map FileRow.seq).Nodup := (hperm.map FileRow.seq).nodup_iff.mpr hkeys
  rw [map_fst_drafts] at hsame
  refine ⟨sorted, hperm, ?_, ?_⟩
  · have hle : sorted.Pairwise fun a b => decide (a.seq ≤ b.seq) = true := by
      refine List.pairwise_mergeSort (fun a b c hab hbc => ?_) (fun a b => ?_) r.files
      · simp only [decide_eq_true_eq] at hab hbc ⊢
        exact Int.le_trans hab hbc
      · simpa using Int.le_total a.seq b.seq
    refine hle.imp₂ (fun a b hab hne => ?_) (List.pairwise_map.mp hkeys)
    exact Int.lt_iff_le_and_ne.mpr ⟨of_decide_eq_true hab, hne⟩
  · have hrows : List.Forall₂ (fun row entry => row.seq = entry.1) sorted files :=
      forall₂_of_map_eq hsame.symm
    rw [List.forall₂_map_right_iff, List.forall₂_iff_zip]
    refine ⟨hrows.length_eq, fun {row entry} hzip => ?_⟩
    obtain ⟨s, f⟩ := entry
    obtain rfl : row.seq = s := (List.forall₂_iff_zip.mp hrows).2 hzip
    have hdraft : draft? (drafts r.files) row.seq = some (draftOf row) :=
      draft?_of_mem (map_fst_drafts ▸ hkeys) (List.mem_map.mpr ⟨row, (List.of_mem_zip hzip).1, rfl⟩)
    have hfile : draft? files row.seq = some f :=
      draft?_of_mem (hsame ▸ hkeys) (List.of_mem_zip hzip).2
    exact (hfill _ _ hdraft).2.symm.trans hfile

end Tables

end SemanticIndex
