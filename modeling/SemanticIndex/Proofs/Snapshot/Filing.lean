import SemanticIndex.Proofs.Json.NameList

namespace SemanticIndex

def File.filed (f : File) : File :=
  { f with
    parseMillis := if f.parseMillis.toNat < 0x8000000000000000 then f.parseMillis else 0
    definitions := f.definitions.map fun d => { d with uri := f.uri }
    references := f.references.map fun r => { r with uri := f.uri } }

namespace Tables

theorem word?_toNat (n : UInt32) : word? n.toNat = some n := by
  have hn := n.toNat_lt
  rw [word?, if_pos (by omega)]
  simp

theorem range?_spanOf (r : Range) : range? (spanOf r) = some r := by
  simp [range?, spanOf, word?_toNat]

theorem toUInt64_signed (n : UInt64) :
    (max (signed n) 0).toNat.toUInt64 = if n.toNat < 0x8000000000000000 then n else 0 := by
  have hn := n.toNat_lt
  unfold signed
  split
  · next h => simp
  · next h =>
    have hneg : max ((n.toNat : Int) - 0x10000000000000000) 0 = 0 := by omega
    rw [hneg]
    rfl

section Folds

variable {α β σ ρ : Type} {enter : σ → ρ → Loading σ}

theorem foldlM_rows (state : List β → σ) {row : Nat → α → ρ} {item : α → β}
    (h : ∀ k x ys, enter (state ys) (row k x) = .ok (state (ys ++ [item x]))) (xs : List α) :
    (xs.zipIdx.map fun (x, k) => row k x).foldlM enter (state []) = .ok (state (xs.map item)) := by
  have hfrom (k : Nat) (ys : List β) :
      ((xs.zipIdx k).map fun (x, k) => row k x).foldlM enter (state ys) =
        .ok (state (ys ++ xs.map item)) := by
    induction xs generalizing k ys with
    | nil => simp [pure, Except.pure]
    | cons x xs ih =>
      rw [List.zipIdx_cons, List.map_cons, List.foldlM_cons, h]
      simpa [bind, Except.bind] using ih (k + 1) (ys ++ [item x])
  exact hfrom 0 []

theorem foldlM_groups (state : List β → σ) {rows : Nat → α → List ρ} {before after : α → β}
    (h : ∀ k x ys, ys[k]? = some (before x) →
      (rows k x).foldlM enter (state ys) = .ok (state (ys.set k (after x)))) (xs : List α) :
    (xs.zipIdx.flatMap fun (x, k) => rows k x).foldlM enter (state (xs.map before)) =
      .ok (state (xs.map after)) := by
  have hfrom (done : List β) :
      ((xs.zipIdx done.length).flatMap fun (x, k) => rows k x).foldlM enter
          (state (done ++ xs.map before)) = .ok (state (done ++ xs.map after)) := by
    induction xs generalizing done with
    | nil => simp [pure, Except.pure]
    | cons x xs ih =>
      have hrest := ih (done ++ [after x])
      rw [List.length_append, List.length_singleton, List.append_assoc, List.append_assoc] at hrest
      rw [List.zipIdx_cons, List.flatMap_cons, List.foldlM_append, h _ _ _ (by simp)]
      simpa [bind, Except.bind, List.set_append_right] using hrest
  exact hfrom []

end Folds

section Places

variable {β : Type} {ys : List β} {k : Nat} {y : β}

theorem set_eq_self (h : ys[k]? = some y) : ys.set k y = ys := by
  obtain ⟨hk, rfl⟩ := List.getElem?_eq_some_iff.mp h
  exact List.set_getElem_self hk

theorem getElem?_set_of_some (h : ys[k]? = some y) (y' : β) : (ys.set k y')[k]? = some y' := by
  obtain ⟨hk, -⟩ := List.getElem?_eq_some_iff.mp h
  exact List.getElem?_set_self hk

end Places

section Order

variable {α ρ : Type} {le : ρ → ρ → Bool}

theorem increasing_zipIdx (xs : List α) (k : Nat) :
    (xs.zipIdx k).Pairwise fun a b => a.2 < b.2 := by
  rw [← List.pairwise_map, List.zipIdx_map_snd]
  exact List.pairwise_lt_range'

theorem pairwise_rows (row : Nat → α → ρ) (h : ∀ j k x y, j < k → le (row j x) (row k y) = true)
    (xs : List α) : (xs.zipIdx.map fun (x, k) => row k x).Pairwise (le · ·) := by
  rw [List.pairwise_map]
  exact (increasing_zipIdx xs 0).imp fun hlt => h _ _ _ _ hlt

theorem pairwise_groups (rows : Nat → α → List ρ) (hin : ∀ k x, (rows k x).Pairwise (le · ·))
    (h : ∀ j k x y, j < k → ∀ a ∈ rows j x, ∀ b ∈ rows k y, le a b = true) (xs : List α) :
    (xs.zipIdx.flatMap fun (x, k) => rows k x).Pairwise (le · ·) := by
  rw [List.pairwise_flatMap]
  exact ⟨fun a _ => hin a.2 a.1, (increasing_zipIdx xs 0).imp fun hlt => h _ _ _ _ hlt⟩

end Order

def keyed (k : Nat) : List File → Drafts
  | [] => []
  | f :: fs => ((k : Int), f) :: keyed (k + 1) fs

theorem draft?_keyed (k i : Nat) (fs : List File) : draft? (keyed k fs) (k + i : Nat) = fs[i]? := by
  induction fs generalizing k i with
  | nil => rfl
  | cons f fs ih =>
    rw [draft?, keyed, List.lookup_cons]
    cases i with
    | zero => simp
    | succ i =>
      have hne : (((k + (i + 1) : Nat) : Int) == (k : Int)) = false := by
        simp only [beq_eq_false_iff_ne, ne_eq]
        omega
      have hshift : k + (i + 1) = k + 1 + i := by omega
      simp only [hne, List.getElem?_cons_succ]
      rw [hshift]
      exact ih (k + 1) i

theorem amend_of_lt {k : Nat} {n : Int} (h : n < k) (fs : List File) (g : File) :
    amend (keyed k fs) n g = keyed k fs := by
  induction fs generalizing k with
  | nil => rfl
  | cons f fs ih =>
    have hne : ¬(k : Int) = n := by omega
    have hrest := ih (k := k + 1) (by omega)
    simp only [amend] at hrest
    simp only [keyed, amend, List.map_cons, if_neg hne, hrest]

theorem amend_keyed (k i : Nat) (fs : List File) (g : File) :
    amend (keyed k fs) (k + i : Nat) g = keyed k (fs.set i g) := by
  induction fs generalizing k i with
  | nil => rfl
  | cons f fs ih =>
    cases i with
    | zero =>
      have hrest := amend_of_lt (k := k + 1) (n := (k : Int)) (by omega) fs g
      simp only [amend] at hrest
      simp only [keyed, amend, List.map_cons, Nat.add_zero, if_true, hrest, List.set_cons_zero]
    | succ i =>
      have hne : ¬(k : Int) = (k + (i + 1) : Nat) := by omega
      have hshift : k + (i + 1) = k + 1 + i := by omega
      have hrest := ih (k + 1) i
      rw [← hshift] at hrest
      simp only [amend] at hrest
      simp only [keyed, amend, List.map_cons, if_neg hne, hrest, List.set_cons_succ]

theorem snd_keyed (k : Nat) (fs : List File) : (keyed k fs).map Prod.snd = fs := by
  induction fs generalizing k with
  | nil => rfl
  | cons f fs ih => rw [keyed, List.map_cons, ih]

variable {gs : List File} {g : File} {i : Nat}

theorem owning_keyed (h : gs[i]? = some g) : owning (keyed 0 gs) i = .ok g := by
  have hdraft := draft?_keyed 0 i gs
  rw [Nat.zero_add, h] at hdraft
  rw [owning, hdraft]

theorem amend_keyed_zero (g : File) : amend (keyed 0 gs) i g = keyed 0 (gs.set i g) := by
  simpa using amend_keyed 0 i gs g

def namespaceRow (i k : Nat) (n : Namespace) : NamespaceRow := ⟨i, k, n.name⟩

def symbolRow (i j k : Nat) (s : Symbol) : SymbolRow :=
  ⟨i, j, k, s.fqn, s.name, s.kind.name, s.space, s.container, spanOf s.range⟩

def definitionRow (i k : Nat) (d : Definition) : DefinitionRow :=
  ⟨i, k, d.fqn, d.name, d.kind.name, d.container, spanOf d.range, d.signature, d.documentation,
   namesText d.parents⟩

def referenceRow (i k : Nat) (r : Reference) : ReferenceRow :=
  ⟨i, k, r.fqn, spanOf r.range, r.fallback⟩

theorem enterNamespace_keyed (h : gs[i]? = some g) (k : Nat) (n : Namespace) :
    enterNamespace (keyed 0 gs) (namespaceRow i k n) =
      .ok (keyed 0 (gs.set i { g with namespaces := g.namespaces ++ [⟨n.name, []⟩] })) := by
  simp [enterNamespace, namespaceRow, owning_keyed h, amend_keyed_zero, bind, Except.bind]

theorem enterSymbol_keyed (h : gs[i]? = some g) {j : Nat} {n : Namespace}
    (hn : g.namespaces[j]? = some n) (k : Nat) (s : Symbol) :
    enterSymbol (keyed 0 gs) (symbolRow i j k s) =
      .ok (keyed 0 (gs.set i
        { g with namespaces := g.namespaces.set j { n with symbols := n.symbols ++ [s] } })) := by
  simp [enterSymbol, symbolRow, symbol?, SymbolKind.ofName?_name, range?_spanOf, need,
    owning_keyed h, hn, amend_keyed_zero, bind, Except.bind]

theorem enterDefinition_keyed (h : gs[i]? = some g) (k : Nat) (d : Definition) :
    enterDefinition (keyed 0 gs) (definitionRow i k d) =
      .ok (keyed 0 (gs.set i
        { g with definitions := g.definitions ++ [{ d with uri := g.uri }] })) := by
  have hd : definition? "" (definitionRow i k d) = some { d with uri := "" } := by
    simp [definition?, definitionRow, SymbolKind.ofName?_name, range?_spanOf, names?_namesText]
  rw [enterDefinition, hd, definitionRow, owning_keyed h, ← amend_keyed_zero]
  rfl

theorem enterReference_keyed (h : gs[i]? = some g) (k : Nat) (r : Reference) :
    enterReference (keyed 0 gs) (referenceRow i k r) =
      .ok (keyed 0 (gs.set i
        { g with references := g.references ++ [{ r with uri := g.uri }] })) := by
  have hr : need (range? (spanOf r.range)) = .ok r.range := by rw [range?_spanOf]; rfl
  rw [enterReference, referenceRow, hr, owning_keyed h, ← amend_keyed_zero]
  rfl

def bare (f : File) : File := { f.filed with namespaces := [], definitions := [], references := [] }

def outlined (f : File) : File :=
  { bare f with namespaces := f.namespaces.map fun n => ⟨n.name, []⟩ }

def peopled (f : File) : File := { bare f with namespaces := f.namespaces }

theorem foldlM_namespaceRows (fs : List File) :
    (fs.zipIdx.flatMap fun (f, i) => namespaceRows i f).foldlM enterNamespace
        (keyed 0 (fs.map bare)) = .ok (keyed 0 (fs.map outlined)) := by
  refine foldlM_groups (keyed 0) (fun i f gs hi => ?_) fs
  let state (ns : List Namespace) : Drafts := keyed 0 (gs.set i { bare f with namespaces := ns })
  have hstart : state [] = keyed 0 gs := congrArg (keyed 0) (set_eq_self hi)
  have hstep (k : Nat) (n : Namespace) (ns : List Namespace) :
      enterNamespace (state ns) (namespaceRow i k n) = .ok (state (ns ++ [⟨n.name, []⟩])) := by
    rw [enterNamespace_keyed (getElem?_set_of_some hi _) k n, List.set_set]
  rw [← hstart]
  exact foldlM_rows state hstep f.namespaces

def symbolRowsIn (i j : Nat) (n : Namespace) : List SymbolRow :=
  n.symbols.zipIdx.map fun (s, k) => symbolRow i j k s

theorem symbolRows_eq (i : Nat) (f : File) :
    symbolRows i f = f.namespaces.zipIdx.flatMap fun (n, j) => symbolRowsIn i j n := rfl

theorem foldlM_symbolRows (fs : List File) :
    (fs.zipIdx.flatMap fun (f, i) => symbolRows i f).foldlM enterSymbol
        (keyed 0 (fs.map outlined)) = .ok (keyed 0 (fs.map peopled)) := by
  refine foldlM_groups (keyed 0) (fun i f gs hi => ?_) fs
  let state (ns : List Namespace) : Drafts := keyed 0 (gs.set i { bare f with namespaces := ns })
  have hstart : state (f.namespaces.map fun n => ⟨n.name, []⟩) = keyed 0 gs :=
    congrArg (keyed 0) (set_eq_self hi)
  have hend : state (f.namespaces.map id) = keyed 0 (gs.set i (peopled f)) := by
    rw [List.map_id]
    rfl
  rw [← hstart, ← hend, symbolRows_eq]
  refine foldlM_groups state (fun j n ns hj => ?_) f.namespaces
  let inner (ss : List Symbol) : Drafts := state (ns.set j ⟨n.name, ss⟩)
  have hfirst : inner [] = state ns := congrArg state (set_eq_self hj)
  have hstep (k : Nat) (s : Symbol) (ss : List Symbol) :
      enterSymbol (inner ss) (symbolRow i j k s) = .ok (inner (ss ++ [s])) := by
    rw [enterSymbol_keyed (getElem?_set_of_some hi _) (getElem?_set_of_some hj _) k s,
      List.set_set, List.set_set]
  have hlast : inner (n.symbols.map id) = state (ns.set j (id n)) := by
    rw [List.map_id]
    rfl
  rw [← hfirst, ← hlast]
  exact foldlM_rows inner hstep n.symbols

theorem foldlM_definitionRows (fs : List File) :
    (fs.zipIdx.flatMap fun (f, i) => definitionRows i f).foldlM enterDefinition
        (keyed 0 (fs.map peopled)) =
      .ok (keyed 0 (fs.map fun f => { f.filed with references := [] })) := by
  refine foldlM_groups (keyed 0) (fun i f gs hi => ?_) fs
  let state (ds : List Definition) : Drafts :=
    keyed 0 (gs.set i { peopled f with definitions := ds })
  have hstart : state [] = keyed 0 gs := congrArg (keyed 0) (set_eq_self hi)
  have hstep (k : Nat) (d : Definition) (ds : List Definition) :
      enterDefinition (state ds) (definitionRow i k d) =
        .ok (state (ds ++ [{ d with uri := f.uri }])) := by
    rw [enterDefinition_keyed (getElem?_set_of_some hi _) k d, List.set_set]
    rfl
  rw [← hstart]
  exact foldlM_rows state hstep f.definitions

theorem foldlM_referenceRows (fs : List File) :
    (fs.zipIdx.flatMap fun (f, i) => referenceRows i f).foldlM enterReference
        (keyed 0 (fs.map fun f => { f.filed with references := [] })) =
      .ok (keyed 0 (fs.map File.filed)) := by
  refine foldlM_groups (keyed 0) (fun i f gs hi => ?_) fs
  let state (rs : List Reference) : Drafts := keyed 0 (gs.set i { f.filed with references := rs })
  have hstart : state [] = keyed 0 gs := congrArg (keyed 0) (set_eq_self hi)
  have hstep (k : Nat) (r : Reference) (rs : List Reference) :
      enterReference (state rs) (referenceRow i k r) =
        .ok (state (rs ++ [{ r with uri := f.uri }])) := by
    rw [enterReference_keyed (getElem?_set_of_some hi _) k r, List.set_set]
    rfl
  rw [← hstart]
  exact foldlM_rows state hstep f.references

theorem inOrder_of_lt {a b c d : Int} (h : a < c) : inOrder (a, b) (c, d) = true := by
  simp [inOrder, h]

theorem inOrder_of_le {a b d : Int} (h : b ≤ d) : inOrder (a, b) (a, d) = true := by
  simp [inOrder, h]

theorem inOrder_rows {α ρ : Type} (key : ρ → Int × Int) (row : Nat → Nat → α → ρ)
    (items : File → List α) (h : ∀ i k x, key (row i k x) = (↑i, ↑k)) (fs : List File) :
    (fs.zipIdx.flatMap fun (f, i) => (items f).zipIdx.map fun (x, k) => row i k x).Pairwise
      fun a b => inOrder (key a) (key b) := by
  have hkeys (i : Nat) (f : File) : ∀ a ∈ (items f).zipIdx.map (fun (x, k) => row i k x),
      ∃ k, key a = (↑i, k) := by
    intro a ha
    obtain ⟨⟨x, k⟩, -, rfl⟩ := List.mem_map.mp ha
    exact ⟨k, h i k x⟩
  refine pairwise_groups (fun i f => (items f).zipIdx.map fun (x, k) => row i k x) ?_ ?_ fs
  · intro i f
    refine pairwise_rows (row i) (fun j k x y hjk => ?_) (items f)
    rw [h, h]
    exact inOrder_of_le (by omega)
  · intro i j f g hij a ha b hb
    obtain ⟨k, hk⟩ := hkeys i f a ha
    obtain ⟨l, hl⟩ := hkeys j g b hb
    rw [hk, hl]
    exact inOrder_of_lt (by omega)

theorem namespacesInOrder_rows (fs : List File) :
    namespacesInOrder (fs.zipIdx.flatMap fun (f, i) => namespaceRows i f) =
      fs.zipIdx.flatMap fun (f, i) => namespaceRows i f :=
  List.mergeSort_of_pairwise <|
    inOrder_rows (fun r => (r.fileSeq, r.ordinal)) namespaceRow File.namespaces
      (fun _ _ _ => rfl) fs

theorem definitionsInOrder_rows (fs : List File) :
    definitionsInOrder (fs.zipIdx.flatMap fun (f, i) => definitionRows i f) =
      fs.zipIdx.flatMap fun (f, i) => definitionRows i f :=
  List.mergeSort_of_pairwise <|
    inOrder_rows (fun r => (r.fileSeq, r.ordinal)) definitionRow File.definitions
      (fun _ _ _ => rfl) fs

theorem referencesInOrder_rows (fs : List File) :
    referencesInOrder (fs.zipIdx.flatMap fun (f, i) => referenceRows i f) =
      fs.zipIdx.flatMap fun (f, i) => referenceRows i f :=
  List.mergeSort_of_pairwise <|
    inOrder_rows (fun r => (r.fileSeq, r.ordinal)) referenceRow File.references
      (fun _ _ _ => rfl) fs

theorem mem_symbolRowsIn {i j : Nat} {n : Namespace} {a : SymbolRow} (h : a ∈ symbolRowsIn i j n) :
    a.fileSeq = i ∧ a.namespaceOrdinal = j := by
  obtain ⟨⟨s, k⟩, -, rfl⟩ := List.mem_map.mp h
  exact ⟨rfl, rfl⟩

theorem fileSeq_of_mem_symbolRows {i : Nat} {f : File} {a : SymbolRow} (h : a ∈ symbolRows i f) :
    a.fileSeq = i := by
  obtain ⟨⟨n, j⟩, -, h⟩ := List.mem_flatMap.mp h
  exact (mem_symbolRowsIn h).1

theorem symbolsInOrder_rows (fs : List File) :
    symbolsInOrder (fs.zipIdx.flatMap fun (f, i) => symbolRows i f) =
      fs.zipIdx.flatMap fun (f, i) => symbolRows i f := by
  refine List.mergeSort_of_pairwise (pairwise_groups symbolRows ?_ ?_ fs)
  · intro i f
    rw [symbolRows_eq]
    refine pairwise_groups (symbolRowsIn i) ?_ ?_ f.namespaces
    · intro j n
      refine pairwise_rows (symbolRow i j) (fun k l s t hkl => ?_) n.symbols
      simp [symbolRow, inOrder_of_le (Int.ofNat_le.mpr (Nat.le_of_lt hkl))]
    · intro j k n m hjk a ha b hb
      obtain ⟨hi, hj⟩ := mem_symbolRowsIn ha
      obtain ⟨hi', hk⟩ := mem_symbolRowsIn hb
      simp [hi, hi', hj, hk, inOrder_of_lt (Int.ofNat_lt.mpr hjk)]
  · intro i j f g hij a ha b hb
    simp [fileSeq_of_mem_symbolRows ha, fileSeq_of_mem_symbolRows hb, hij]

theorem drafts_fileRows (fs : List File) :
    drafts (fs.zipIdx.map fun (f, i) => fileRow i f) = keyed 0 (fs.map bare) := by
  have hfrom (k : Nat) : ((fs.zipIdx k).map fun (f, i) => fileRow i f).map
      (fun row => (row.seq, draftOf row)) = keyed k (fs.map bare) := by
    induction fs generalizing k with
    | nil => rfl
    | cons f fs ih =>
      have hdraft : draftOf (fileRow k f) = bare f := by
        simp [draftOf, fileRow, bare, File.filed, toUInt64_signed]
      rw [List.zipIdx_cons, List.map_cons, List.map_cons, ih, hdraft]
      rfl
  have hsorted : (fs.zipIdx.map fun (f, i) => fileRow i f).mergeSort (fun a b => a.seq ≤ b.seq) =
      fs.zipIdx.map fun (f, i) => fileRow i f := by
    refine List.mergeSort_of_pairwise (pairwise_rows fileRow (fun j k f g hjk => ?_) fs)
    simpa [fileRow] using Nat.le_of_lt hjk
  rw [drafts, hsorted]
  exact hfrom 0

theorem readFiles_ofSnapshot (s : DatedSnapshot) :
    (ofSnapshot s).readFiles = .ok (s.files.map File.filed) := by
  simp only [readFiles, ofSnapshot, need, bind, Except.bind, drafts_fileRows,
    namespacesInOrder_rows, foldlM_namespaceRows, symbolsInOrder_rows, foldlM_symbolRows,
    definitionsInOrder_rows, foldlM_definitionRows, referencesInOrder_rows, foldlM_referenceRows,
    snd_keyed]

theorem load_ofSnapshot (s : DatedSnapshot) (hv : s.version = snapshotVersion)
    (ht : Timestamp.parse? s.createdAt.render = some s.createdAt) :
    (ofSnapshot s).load = .ok { s with files := s.files.map File.filed } := by
  have hschema : (ofSnapshot s).checkSchema = .ok () := rfl
  have hversion : (ofSnapshot s).readVersion = .ok snapshotVersion := by
    have hread : word32? (toString snapshotVersion) = some snapshotVersion := by decide +kernel
    have hset : (ofSnapshot s).setting? "format_version" = some (toString snapshotVersion) :=
      congrArg (fun v => some (toString v)) hv
    rw [readVersion, hset]
    simp only [need, bind, Except.bind, hread, if_true]
  have hcreated : (ofSnapshot s).setting? "created_at" = some s.createdAt.render := rfl
  rw [load, hschema, hversion, hcreated, readFiles_ofSnapshot, Option.bind_some, ht, hv]
  rfl

end Tables

end SemanticIndex
