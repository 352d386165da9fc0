import SemanticIndex.Proofs.Snapshot.Acceptance

namespace SemanticIndex.Tables

variable {r : Rows} {row : FileRow} {f g : File}

theorem foldlM_placeSymbol_at {rows : List SymbolRow} (h : rows.foldlM placeSymbol f = some g)
    {i : Nat} {n : Namespace} (hn : f.namespaces[i]? = some n) :
    ∃ symbols, List.Forall₂ (fun x s => symbol? x = some s)
        (rows.filter (namespacePlace · = i)) symbols ∧
      g.namespaces[i]? = some { n with symbols := n.symbols ++ symbols } := by
  induction rows generalizing f n with
  | nil =>
    cases h
    exact ⟨[], .nil, by simpa using hn⟩
  | cons x rows ih =>
    rw [List.foldlM_cons] at h
    obtain ⟨mid, hmid, hrest⟩ := Option.bind_eq_some_iff.mp h
    simp only [placeSymbol, Option.bind_eq_bind, Option.bind_eq_some_iff, Option.some.injEq] at hmid
    obtain ⟨s, hs, m, hm, rfl⟩ := hmid
    by_cases hi : namespacePlace x = i
    · subst hi
      obtain rfl := Option.some.inj (hm.symm.trans hn)
      obtain ⟨symbols, hsymbols, hg⟩ := ih hrest (getElem?_set_of_some hm _)
      rw [List.filter_cons_of_pos (by simp)]
      exact ⟨s :: symbols, .cons hs hsymbols, by simpa using hg⟩
    · rw [List.filter_cons_of_neg (by simpa using hi)]
      exact ih hrest ((List.getElem?_set_ne hi).trans hn)

structure Rows.Houses (r : Rows) (row : FileRow) (f : File) : Prop where
  names : (r.namespacesOf row.seq).map NamespaceRow.name = f.namespaces.map Namespace.name
  symbols : ∀ i n, f.namespaces[i]? = some n → List.Forall₂ SymbolRow.Says
    ((r.symbolsOf row.seq).filter (namespacePlace · = i)) n.symbols
  places : ∀ x ∈ r.symbolsOf row.seq, namespacePlace x < f.namespaces.length

theorem houses_of_fill (h : r.fill row.seq (draftOf row) = some f) : r.Houses row f := by
  have hfilled : Filled r row f := filled_of_fill h
  have hlength : (r.namespacesOf row.seq).length = f.namespaces.length := by
    simpa using congrArg List.length hfilled.names
  refine ⟨hfilled.names, fun i n hn => ?_, hlength ▸ hfilled.places⟩
  simp only [Rows.fill, foldlM_placeNamespace, Option.bind_eq_bind, Option.bind_some,
    Option.bind_eq_some_iff, foldlM_placeDefinition, foldlM_placeReference] at h
  obtain ⟨_, ⟨peopled, hpeopled, _, -, rfl⟩, _, -, rfl⟩ := h
  obtain ⟨hi, -⟩ := List.getElem?_eq_some_iff.mp hn
  obtain ⟨m, hm⟩ : ∃ m, (r.namespacesOf row.seq)[i]? = some m :=
    ⟨_, List.getElem?_eq_getElem (hlength ▸ hi)⟩
  have hstart : (List.map (fun x : NamespaceRow => (⟨x.name, []⟩ : Namespace))
      (r.namespacesOf row.seq))[i]? = some ⟨m.name, []⟩ := by
    rw [List.getElem?_map, hm]
    rfl
  obtain ⟨symbols, hsymbols, hend⟩ := foldlM_placeSymbol_at hpeopled (i := i) hstart
  obtain rfl := Option.some.inj (hn.symm.trans hend)
  exact hsymbols.imp fun _ _ => symbol?_eq_some.mp

structure Rows.Numbered (r : Rows) (s : Int) : Prop where
  namespaces : ∀ (i : Nat) (m : NamespaceRow), (r.namespacesOf s)[i]? = some m → m.ordinal = i
  symbols : ∀ x ∈ r.symbolsOf s, 0 ≤ x.namespaceOrdinal

structure Rows.Groups (r : Rows) (row : FileRow) (f : File) : Prop where
  namespaces : List.Forall₂ (fun m n => m.name = n.name ∧ List.Forall₂ SymbolRow.Says
    ((r.symbolsOf row.seq).filter (·.namespaceOrdinal = m.ordinal)) n.symbols)
    (r.namespacesOf row.seq) f.namespaces
  symbols : ∀ x ∈ r.symbolsOf row.seq, ∃ m ∈ r.namespacesOf row.seq,
    m.ordinal = x.namespaceOrdinal

theorem Rows.Numbered.exists_row {s : Int} (h : r.Numbered s) {x : SymbolRow}
    (hx : x ∈ r.symbolsOf s) (hplace : namespacePlace x < (r.namespacesOf s).length) :
    ∃ m ∈ r.namespacesOf s, m.ordinal = x.namespaceOrdinal := by
  refine ⟨_, List.getElem_mem hplace, ?_⟩
  rw [h.namespaces _ _ (List.getElem?_eq_getElem hplace), namespacePlace]
  have hsign := h.symbols x hx
  omega

theorem Rows.Houses.groups (h : r.Houses row f) (hn : r.Numbered row.seq) : r.Groups row f := by
  have hnames : List.Forall₂ (fun m n => m.name = n.name) (r.namespacesOf row.seq) f.namespaces :=
    forall₂_of_map_eq h.names
  refine ⟨List.forall₂_iff_get.mpr ⟨hnames.length_eq, fun i hi hi' => ⟨?_, ?_⟩⟩,
    fun x hx => hn.exists_row hx (hnames.length_eq ▸ h.places x hx)⟩
  · exact (List.forall₂_iff_get.mp hnames).2 i hi hi'
  · have hordinal : ((r.namespacesOf row.seq).get ⟨i, hi⟩).ordinal = i :=
      hn.namespaces i _ (List.getElem?_eq_getElem hi)
    have hsame : (r.symbolsOf row.seq).filter (·.namespaceOrdinal = (i : Int)) =
        (r.symbolsOf row.seq).filter (namespacePlace · = i) := by
      refine List.filter_congr fun x hx => ?_
      have hsign := hn.symbols x hx
      rw [decide_eq_decide, namespacePlace]
      omega
    simp only [hordinal, hsame]
    exact h.symbols i _ (List.getElem?_eq_getElem hi')

theorem fileSeq_of_mem_namespaceRows {k : Nat} {m : NamespaceRow} (h : m ∈ namespaceRows k f) :
    m.fileSeq = k := by
  obtain ⟨_, -, rfl⟩ := List.mem_map.mp h
  rfl

theorem namespaceRows_of_number (s : Int) (fs : List File) (k : Nat) :
    ∃ ns : List Namespace,
      (((fs.zipIdx k).flatMap fun (f, i) => namespaceRows i f).filter (·.fileSeq = s)) =
        ns.zipIdx.map fun (n, i) => ⟨s, i, n.name⟩ := by
  induction fs generalizing k with
  | nil => exact ⟨[], rfl⟩
  | cons f fs ih =>
    rw [List.zipIdx_cons, List.flatMap_cons, List.filter_append]
    by_cases hs : (k : Int) = s
    · subst hs
      have hown : (namespaceRows k f).filter (·.fileSeq = (k : Int)) = namespaceRows k f :=
        List.filter_eq_self.mpr fun m hm => decide_eq_true (fileSeq_of_mem_namespaceRows hm)
      have hrest : ((fs.zipIdx (k + 1)).flatMap fun (f, i) => namespaceRows i f).filter
          (·.fileSeq = (k : Int)) = [] := by
        refine List.filter_eq_nil_iff.mpr fun m hm => ?_
        obtain ⟨⟨g, i⟩, hg, hm⟩ := List.mem_flatMap.mp hm
        have hle : k + 1 ≤ i := List.le_snd_of_mem_zipIdx hg
        rw [decide_eq_true_eq, fileSeq_of_mem_namespaceRows hm]
        omega
      exact ⟨f.namespaces, by rw [hown, hrest, List.append_nil]; rfl⟩
    · obtain ⟨ns, hns⟩ := ih (k + 1)
      have hnone : (namespaceRows k f).filter (·.fileSeq = s) = [] :=
        List.filter_eq_nil_iff.mpr fun m hm => by simpa [fileSeq_of_mem_namespaceRows hm] using hs
      exact ⟨ns, by rw [hnone, hns, List.nil_append]⟩

theorem numbered_ofSnapshot {snapshot : DatedSnapshot} (hr : (ofSnapshot snapshot).rows? = some r)
    (s : Int) : r.Numbered s := by
  cases hr
  constructor
  · intro i m hm
    obtain ⟨ns, hns⟩ := namespaceRows_of_number s snapshot.files 0
    rw [Rows.namespacesOf, namespacesInOrder_rows, hns, List.getElem?_map, List.getElem?_zipIdx] at hm
    obtain ⟨⟨n, k⟩, hk, rfl⟩ := Option.map_eq_some_iff.mp hm
    simp only [Option.map_eq_some_iff, Prod.mk.injEq] at hk
    obtain ⟨_, -, -, rfl⟩ := hk
    simp
  · intro x hx
    have hmem := (Rows.mem_symbolsOf.mp hx).1
    simp only [List.mem_flatMap, symbolRows, List.mem_map] at hmem
    obtain ⟨_, -, ⟨n, j⟩, -, _, -, rfl⟩ := hmem
    exact Int.natCast_nonneg j

theorem symbols_keep_namespaces_if_numbered {t : Tables} {r : Rows} (hr : t.rows? = some r)
    (hkeys : t.KeyedFiles) :
    (∀ snapshot, t.load = .ok snapshot → (∀ x ∈ r.symbols, x.fileSeq ∈ r.files.map FileRow.seq) ∧
      ∃ sorted, sorted.Perm r.files ∧ sorted.Pairwise (·.seq < ·.seq) ∧
        List.Forall₂ (fun row f => r.Houses row f ∧ (r.Numbered row.seq → r.Groups row f)) sorted
          snapshot.files) ∧
      ∀ x ∈ r.symbols, r.Numbered x.fileSeq →
        (∀ m ∈ r.namespaces, m.fileSeq = x.fileSeq → m.ordinal ≠ x.namespaceOrdinal) →
        ∃ e, t.load = .error e := by
  have hhoused (snapshot : DatedSnapshot) (h : t.load = .ok snapshot) : r.Housed := by
    obtain ⟨-, -, -, r', hr', -, hhoused⟩ := load_isOk.mp ⟨snapshot, h⟩
    obtain rfl := Option.some.inj (hr.symm.trans hr')
    exact hhoused
  constructor
  · intro snapshot h
    obtain ⟨r', sorted, hr', hperm, hsorted, hfilled⟩ := filled_of_load hkeys h
    obtain rfl := Option.some.inj (hr.symm.trans hr')
    refine ⟨(hhoused snapshot h).symbols, sorted, hperm, hsorted, hfilled.imp fun row f hfill => ?_⟩
    exact ⟨houses_of_fill hfill, (houses_of_fill hfill).groups⟩
  · intro x hx hnumbered hmissing
    cases h : t.load with
    | error e => exact ⟨e, rfl⟩
    | ok snapshot =>
      have hplace : namespacePlace x < (r.namespacesOf x.fileSeq).length := by
        have hplace := (hhoused snapshot h).places x hx
        rw [Rows.length_namespacesOf, namespacePlace]
        omega
      obtain ⟨m, hm, hordinal⟩ := hnumbered.exists_row (Rows.mem_symbolsOf.mpr ⟨hx, rfl⟩) hplace
      obtain ⟨hm, hseq⟩ := List.mem_filter.mp hm
      exact absurd hordinal
        (hmissing m (List.mem_mergeSort.mp hm) (by simpa using hseq))

def threeSpaces : File where
  uri := "file:///a.php"
  contentHash := "h"
  parseMillis := 0
  hasErrors := false
  namespaces := [
    ⟨"A", [⟨"f", .function, "A\\f()", ⟨⟨0, 0⟩, ⟨0, 1⟩⟩, "A", none⟩]⟩,
    ⟨"B", [⟨"g", .function, "B\\g()", ⟨⟨0, 0⟩, ⟨0, 1⟩⟩, "B", none⟩]⟩, ⟨"C", []⟩]
  definitions := []
  references := []

def threeSpacesSnapshot : DatedSnapshot :=
  ⟨⟨snapshotVersion, [threeSpaces]⟩, ⟨1704067200, 0⟩⟩

def withNamespaces (rows : List NamespaceRow) : Tables :=
  { ofSnapshot threeSpacesSnapshot with namespaces := some rows }

def rowsWith (rows : List NamespaceRow) : Rows :=
  ⟨[fileRow 0 threeSpaces], rows, symbolRows 0 threeSpaces, [], []⟩

theorem namespacesInOrder_of_sorted {rows : List NamespaceRow}
    (h : rows.Pairwise fun a b => inOrder (a.fileSeq, a.ordinal) (b.fileSeq, b.ordinal)) :
    namespacesInOrder rows = rows := List.mergeSort_of_pairwise h

theorem readFiles_withNamespaces {rows : List NamespaceRow}
    (h : rows.Pairwise fun a b => inOrder (a.fileSeq, a.ordinal) (b.fileSeq, b.ordinal)) :
    (withNamespaces rows).readFiles = (do
      let files ← rows.foldlM enterNamespace (keyed 0 [bare threeSpaces])
      let files ← (symbolRows 0 threeSpaces).foldlM enterSymbol files
      .ok (files.map Prod.snd)) := by
  simp only [readFiles, withNamespaces, ofSnapshot, need, bind, Except.bind, drafts_fileRows,
    namespacesInOrder_of_sorted h, symbolsInOrder_rows, definitionsInOrder_rows,
    referencesInOrder_rows]
  rfl

theorem symbols_keep_namespaces_if_numbered_three :
    (∃ snapshot f, (withNamespaces [⟨0, 0, "A"⟩, ⟨0, 1, "B"⟩]).load = .ok snapshot ∧
        snapshot.files = [f] ∧ f.namespaces.map Namespace.name = ["A", "B"]) ∧
      ∃ e, (withNamespaces [⟨0, 0, "A"⟩]).load = .error e := by
  have hkeys (rows : List NamespaceRow) : (withNamespaces rows).KeyedFiles := by
    rintro _ ⟨⟩
    decide
  have hrows (rows : List NamespaceRow) : (withNamespaces rows).rows? = some (rowsWith rows) := rfl
  constructor
  · obtain ⟨hloads, -⟩ := symbols_keep_namespaces_if_numbered (hrows [⟨0, 0, "A"⟩, ⟨0, 1, "B"⟩])
      (hkeys _)
    have hok : (withNamespaces [⟨0, 0, "A"⟩, ⟨0, 1, "B"⟩]).load.isOk = true := by
      rw [load, readFiles_withNamespaces (by decide)]
      decide +kernel
    cases hload : (withNamespaces [⟨0, 0, "A"⟩, ⟨0, 1, "B"⟩]).load with
    | error e =>
      rw [hload] at hok
      cases hok
    | ok snapshot =>
      obtain ⟨-, sorted, hperm, -, hfiles⟩ := hloads snapshot hload
      obtain rfl := List.perm_singleton.mp hperm
      obtain ⟨f, fs, hf, hfs, hfiles⟩ := List.forall₂_cons_left_iff.mp hfiles
      cases hfs
      have hnames : ((rowsWith [⟨0, 0, "A"⟩, ⟨0, 1, "B"⟩]).namespacesOf 0).map NamespaceRow.name =
          ["A", "B"] := by
        rw [Rows.namespacesOf, namespacesInOrder_of_sorted (by decide)]
        decide
      exact ⟨snapshot, f, rfl, hfiles, hf.1.names.symm.trans hnames⟩
  · obtain ⟨-, hfails⟩ := symbols_keep_namespaces_if_numbered (hrows [⟨0, 0, "A"⟩]) (hkeys _)
    have hsaved : (ofSnapshot threeSpacesSnapshot).rows? =
        some (rowsWith (namespaceRows 0 threeSpaces)) := rfl
    have hnumbered : (rowsWith [⟨0, 0, "A"⟩]).Numbered 0 := by
      refine ⟨fun i m hm => ?_, (numbered_ofSnapshot hsaved 0).symbols⟩
      rw [Rows.namespacesOf, namespacesInOrder_of_sorted (by decide)] at hm
      obtain ⟨hi, rfl⟩ := List.getElem?_eq_some_iff.mp hm
      obtain rfl : i = 0 := Nat.lt_one_iff.mp hi
      rfl
    exact hfails ⟨0, 1, 0, "B\\g()", "g", "function", "B", none, ⟨0, 0, 0, 1⟩⟩ (by decide +kernel)
      hnumbered (by decide)

theorem symbols_move_without_first_namespace :
    let t := withNamespaces [⟨0, 1, "B"⟩, ⟨0, 2, "C"⟩]
    (∃ x ∈ t.symbols.getD [], x.fqn = "A\\f()" ∧
        ∀ m ∈ t.namespaces.getD [], m.fileSeq = x.fileSeq → m.ordinal ≠ x.namespaceOrdinal) ∧
      (t.load.toOption.map fun snapshot => snapshot.files.map fun f =>
          f.namespaces.map fun n => (n.name, n.symbols.map Symbol.fqn)) =
        some [[("B", ["A\\f()"]), ("C", ["B\\g()"])]] := by
  intro t
  have hfiles : t.readFiles = _ := readFiles_withNamespaces (by decide)
  rw [load, hfiles]
  decide +kernel

end SemanticIndex.Tables
