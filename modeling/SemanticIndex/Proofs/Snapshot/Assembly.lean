import Mathlib.Data.List.Forall2
import SemanticIndex.Proofs.Snapshot.Filing

namespace SemanticIndex.Tables

theorem bind_eq_ok {α β : Type} {x : Loading α} {f : α → Loading β} {b : β} :
    x >>= f = .ok b ↔ ∃ a, x = .ok a ∧ f a = .ok b := by
  cases x <;> simp [bind, Except.bind]

theorem need_eq_ok {α : Type} {x : Option α} {a : α} : need x = .ok a ↔ x = some a := by
  cases x <;> simp [need, unreadable]

section Drafts

variable {files : Drafts} {s k : Int} {f : File}

theorem draft?_isSome : (draft? files s).isSome = true ↔ s ∈ files.map Prod.fst := by
  rw [draft?, List.lookup_isSome_iff, List.mem_map]
  simp only [beq_iff_eq]
  exact exists_congr fun a => and_congr_right fun _ => eq_comm

theorem keys_amend (files : Drafts) (k : Int) (g : File) :
    (amend files k g).map Prod.fst = files.map Prod.fst := by
  rw [amend, List.map_map]
  refine List.map_congr_left fun a _ => ?_
  dsimp only [Function.comp]
  split <;> rfl

theorem draft?_amend (files : Drafts) (k s : Int) (g : File) :
    draft? (amend files k g) s =
      if s = k then (draft? files s).map fun _ => g else draft? files s := by
  induction files with
  | nil => simp [draft?, amend]
  | cons a files ih =>
    obtain ⟨k', f⟩ := a
    have hhead : (if k' = k then (k', g) else (k', f)) = (k', if k' = k then g else f) := by
      split <;> rfl
    simp only [draft?, amend] at ih
    simp only [draft?, amend, List.map_cons, hhead, List.lookup_cons]
    by_cases hs : s = k'
    · by_cases hk : k' = k
      · simp [hs, hk]
      · simp [hs, hk]
    · simp only [beq_eq_false_iff_ne.mpr hs]
      exact ih

end Drafts

structure Fills (run : Drafts → Loading Drafts) (keys : List Int)
    (fill : Int → File → Option File) : Prop where
  sound : ∀ {files files'}, run files = .ok files' →
    files'.map Prod.fst = files.map Prod.fst ∧ (∀ k ∈ keys, k ∈ files.map Prod.fst) ∧
      ∀ s f, draft? files s = some f → (fill s f).isSome ∧ draft? files' s = fill s f
  complete : ∀ {files}, (∀ k ∈ keys, k ∈ files.map Prod.fst) →
    (∀ s f, draft? files s = some f → (fill s f).isSome) → ∃ files', run files = .ok files'

theorem Fills.nil : Fills .ok [] fun _ f => some f where
  sound h := by
    cases h
    exact ⟨rfl, by simp, fun s f hf => ⟨rfl, hf⟩⟩
  complete _ _ := ⟨_, rfl⟩

theorem Fills.comp {run run' : Drafts → Loading Drafts} {keys keys' : List Int}
    {fill fill' : Int → File → Option File} (h : Fills run keys fill)
    (h' : Fills run' keys' fill') :
    Fills (fun files => run files >>= run') (keys ++ keys') fun s f => fill s f >>= fill' s where
  sound {files files'} hrun := by
    obtain ⟨mid, hmid, hend⟩ := bind_eq_ok.mp hrun
    obtain ⟨hkeys, hin, hfill⟩ := h.sound hmid
    obtain ⟨hkeys', hin', hfill'⟩ := h'.sound hend
    refine ⟨hkeys'.trans hkeys, List.forall_mem_append.mpr ⟨hin, hkeys ▸ hin'⟩, fun s f hf => ?_⟩
    obtain ⟨hsome, hdraft⟩ := hfill s f hf
    obtain ⟨g, hg⟩ := Option.isSome_iff_exists.mp hsome
    rw [hg] at hdraft ⊢
    exact hfill' s g hdraft
  complete {files} hin hsome := by
    have hin := List.forall_mem_append.mp hin
    have hfirst (s : Int) (f : File) (hf : draft? files s = some f) : (fill s f).isSome :=
      Option.isSome_of_isSome_bind (hsome s f hf)
    obtain ⟨mid, hmid⟩ := h.complete hin.1 hfirst
    obtain ⟨hkeys, -, hfill⟩ := h.sound hmid
    have hnext (s : Int) (g : File) (hg : draft? mid s = some g) : (fill' s g).isSome := by
      have hs : s ∈ files.map Prod.fst := hkeys ▸ draft?_isSome.mp (by rw [hg]; rfl)
      obtain ⟨f, hf⟩ := Option.isSome_iff_exists.mp (draft?_isSome.mpr hs)
      have hboth := hsome s f hf
      rw [← (hfill s f hf).2, hg] at hboth
      exact hboth
    obtain ⟨files', hend⟩ := h'.complete (hkeys ▸ hin.2) hnext
    exact ⟨files', bind_eq_ok.mpr ⟨mid, hmid, hend⟩⟩

section Rows

variable {ρ : Type} {enter : Drafts → ρ → Loading Drafts} {key : ρ → Int}
  {place : File → ρ → Option File}

def Enters (enter : Drafts → ρ → Loading Drafts) (key : ρ → Int)
    (place : File → ρ → Option File) : Prop :=
  ∀ files row files', enter files row = .ok files' ↔
    ∃ f g, draft? files (key row) = some f ∧ place f row = some g ∧ files' = amend files (key row) g

theorem Enters.fills_row (h : Enters enter key place) (row : ρ) :
    Fills (enter · row) [key row] fun s f => if key row = s then place f row else some f where
  sound {files files'} hrun := by
    obtain ⟨f, g, hf, hg, rfl⟩ := (h files row files').mp hrun
    refine ⟨keys_amend files (key row) g, ?_, fun s other hs => ?_⟩
    · simpa using draft?_isSome.mp (Option.isSome_of_mem hf)
    · by_cases hk : key row = s
      · subst hk
        obtain rfl : f = other := Option.some.inj (hf.symm.trans hs)
        simp [draft?_amend, hf, hg]
      · simp [draft?_amend, hk, Ne.symm hk, hs]
  complete {files} hin hsome := by
    obtain ⟨f, hf⟩ := Option.isSome_iff_exists.mp (draft?_isSome.mpr (hin (key row) (by simp)))
    have hplace := hsome (key row) f hf
    rw [if_pos rfl] at hplace
    obtain ⟨g, hg⟩ := Option.isSome_iff_exists.mp hplace
    exact ⟨_, (h files row _).mpr ⟨f, g, hf, hg, rfl⟩⟩

theorem Enters.fills (h : Enters enter key place) (rows : List ρ) :
    Fills (rows.foldlM enter) (rows.map key) fun s f => (rows.filter (key · = s)).foldlM place f := by
  induction rows with
  | nil => exact Fills.nil
  | cons row rows ih =>
    have hcons := (h.fills_row row).comp ih
    have hfill : (fun s f => ((row :: rows).filter (key · = s)).foldlM place f) =
        fun s f => (if key row = s then place f row else some f) >>=
          fun f => (rows.filter (key · = s)).foldlM place f := by
      funext s f
      by_cases hk : key row = s
      · simp [hk]
      · simp [hk]
    rw [hfill]
    exact hcons

end Rows

structure Rows where
  files : List FileRow
  namespaces : List NamespaceRow
  symbols : List SymbolRow
  definitions : List DefinitionRow
  references : List ReferenceRow

def rows? (t : Tables) : Option Rows := do
  some ⟨← t.files, ← t.namespaces, ← t.symbols, ← t.definitions, ← t.references⟩

def placeNamespace (f : File) (row : NamespaceRow) : Option File :=
  some { f with namespaces := f.namespaces ++ [⟨row.name, []⟩] }

def namespacePlace (row : SymbolRow) : Nat := (max row.namespaceOrdinal 0).toNat

def placeSymbol (f : File) (row : SymbolRow) : Option File := do
  let s ← symbol? row
  let n ← f.namespaces[namespacePlace row]?
  some { f with namespaces :=
    f.namespaces.set (namespacePlace row) { n with symbols := n.symbols ++ [s] } }

def placeDefinition (f : File) (row : DefinitionRow) : Option File :=
  (definition? f.uri row).map fun d => { f with definitions := f.definitions ++ [d] }

def placeReference (f : File) (row : ReferenceRow) : Option File :=
  (range? row.span).map fun range =>
    { f with references := f.references ++ [⟨row.fqn, f.uri, range, row.fallback⟩] }

theorem owning_eq_ok {files : Drafts} {s : Int} {f : File} :
    owning files s = .ok f ↔ draft? files s = some f := by
  unfold owning
  cases draft? files s <;> simp

theorem enters_namespace : Enters enterNamespace NamespaceRow.fileSeq placeNamespace := by
  intro files row files'
  simp only [enterNamespace, bind_eq_ok, owning_eq_ok, Except.ok.injEq, placeNamespace,
    Option.some.injEq]
  constructor
  · rintro ⟨f, hf, rfl⟩
    exact ⟨f, _, hf, rfl, rfl⟩
  · rintro ⟨f, g, hf, rfl, rfl⟩
    exact ⟨f, hf, rfl⟩

theorem enters_symbol : Enters enterSymbol SymbolRow.fileSeq placeSymbol := by
  intro files row files'
  simp only [enterSymbol, bind_eq_ok, need_eq_ok, owning_eq_ok, placeSymbol,
    Option.bind_eq_bind, Option.bind_eq_some_iff, Option.some.injEq]
  constructor
  · rintro ⟨sym, hsym, f, hf, hplace⟩
    split at hplace
    · cases hplace
    · next n hn =>
      cases hplace
      exact ⟨f, _, hf, ⟨sym, hsym, n, hn, rfl⟩, rfl⟩
  · rintro ⟨f, g, hf, ⟨sym, hsym, n, hn, rfl⟩, rfl⟩
    refine ⟨sym, hsym, f, hf, ?_⟩
    rw [show f.namespaces[(max row.namespaceOrdinal 0).toNat]? = some n from hn]
    rfl

theorem placeDefinition_eq (f : File) (row : DefinitionRow) :
    placeDefinition f row = (definition? "" row).map fun d =>
      { f with definitions := f.definitions ++ [{ d with uri := f.uri }] } := by
  unfold placeDefinition definition?
  cases SymbolKind.ofName? row.kind <;> cases range? row.span <;> cases names? row.parents <;> rfl

theorem enters_definition : Enters enterDefinition DefinitionRow.fileSeq placeDefinition := by
  intro files row files'
  simp only [enterDefinition, bind_eq_ok, need_eq_ok, owning_eq_ok, Except.ok.injEq,
    placeDefinition_eq, Option.map_eq_some_iff]
  constructor
  · rintro ⟨d, hd, f, hf, rfl⟩
    exact ⟨f, _, hf, ⟨d, hd, rfl⟩, rfl⟩
  · rintro ⟨f, g, hf, ⟨d, hd, rfl⟩, rfl⟩
    exact ⟨d, hd, f, hf, rfl⟩

theorem enters_reference : Enters enterReference ReferenceRow.fileSeq placeReference := by
  intro files row files'
  simp only [enterReference, bind_eq_ok, need_eq_ok, owning_eq_ok, Except.ok.injEq,
    placeReference, Option.map_eq_some_iff]
  constructor
  · rintro ⟨range, hr, f, hf, rfl⟩
    exact ⟨f, _, hf, ⟨range, hr, rfl⟩, rfl⟩
  · rintro ⟨f, g, hf, ⟨range, hr, rfl⟩, rfl⟩
    exact ⟨range, hr, f, hf, rfl⟩

namespace Rows

variable (r : Rows)

def namespacesOf (s : Int) : List NamespaceRow :=
  (namespacesInOrder r.namespaces).filter (·.fileSeq = s)

def symbolsOf (s : Int) : List SymbolRow :=
  (symbolsInOrder r.symbols).filter (·.fileSeq = s)

def definitionsOf (s : Int) : List DefinitionRow :=
  (definitionsInOrder r.definitions).filter (·.fileSeq = s)

def referencesOf (s : Int) : List ReferenceRow :=
  (referencesInOrder r.references).filter (·.fileSeq = s)

def owners : List Int :=
  (namespacesInOrder r.namespaces).map NamespaceRow.fileSeq ++
    (symbolsInOrder r.symbols).map SymbolRow.fileSeq ++
    (definitionsInOrder r.definitions).map DefinitionRow.fileSeq ++
    (referencesInOrder r.references).map ReferenceRow.fileSeq

def enterAll (files : Drafts) : Loading Drafts :=
  ((namespacesInOrder r.namespaces).foldlM enterNamespace files >>=
    (symbolsInOrder r.symbols).foldlM enterSymbol >>=
    (definitionsInOrder r.definitions).foldlM enterDefinition) >>=
    (referencesInOrder r.references).foldlM enterReference

def fill (s : Int) (f : File) : Option File :=
  ((r.namespacesOf s).foldlM placeNamespace f >>= (r.symbolsOf s).foldlM placeSymbol >>=
    (r.definitionsOf s).foldlM placeDefinition) >>= (r.referencesOf s).foldlM placeReference

theorem fills : Fills r.enterAll r.owners r.fill :=
  (((enters_namespace.fills _).comp (enters_symbol.fills _)).comp (enters_definition.fills _)).comp
    (enters_reference.fills _)

end Rows

theorem readFiles_eq_ok {t : Tables} {out : List File} :
    t.readFiles = .ok out ↔ ∃ r files, t.rows? = some r ∧
      r.enterAll (drafts r.files) = .ok files ∧ out = files.map Prod.snd := by
  simp only [readFiles, bind_eq_ok, need_eq_ok, rows?, Rows.enterAll, Option.bind_eq_bind,
    Option.bind_eq_some_iff, Option.some.injEq, Except.ok.injEq]
  constructor
  · rintro ⟨fs, hfs, ns, hns, f₁, h₁, ss, hss, f₂, h₂, ds, hds, f₃, h₃, rs, hrs, f₄, h₄, rfl⟩
    exact ⟨⟨fs, ns, ss, ds, rs⟩, f₄, ⟨fs, hfs, ns, hns, ss, hss, ds, hds, rs, hrs, rfl⟩,
      ⟨f₃, ⟨f₂, ⟨f₁, h₁, h₂⟩, h₃⟩, h₄⟩, rfl⟩
  · rintro ⟨r, f₄, ⟨fs, hfs, ns, hns, ss, hss, ds, hds, rs, hrs, rfl⟩,
      ⟨f₃, ⟨f₂, ⟨f₁, h₁, h₂⟩, h₃⟩, h₄⟩, rfl⟩
    exact ⟨fs, hfs, ns, hns, f₁, h₁, ss, hss, f₂, h₂, ds, hds, f₃, h₃, rs, hrs, f₄, h₄, rfl⟩

theorem foldlM_append_eq_some {ρ α : Type} {place : File → ρ → Option File} {item? : ρ → Option α}
    (put : List α → File)
    (h : ∀ xs row, place (put xs) row = (item? row).map fun x => put (xs ++ [x]))
    {rows : List ρ} {xs : List α} {g : File} :
    rows.foldlM place (put xs) = some g ↔
      ∃ ys, List.Forall₂ (fun row y => item? row = some y) rows ys ∧ g = put (xs ++ ys) := by
  induction rows generalizing xs with
  | nil => simp [eq_comm]
  | cons row rows ih =>
    rw [List.foldlM_cons, h, Option.bind_eq_bind, Option.bind_eq_some_iff]
    constructor
    · rintro ⟨mid, hmid, hrest⟩
      obtain ⟨x, hx, rfl⟩ := Option.map_eq_some_iff.mp hmid
      obtain ⟨ys, hys, rfl⟩ := ih.mp hrest
      exact ⟨x :: ys, .cons hx hys, by simp⟩
    · rintro ⟨ys, hys, rfl⟩
      obtain ⟨x, ys, hx, hrest, rfl⟩ := List.forall₂_cons_left_iff.mp hys
      exact ⟨_, by rw [hx]; rfl, ih.mpr ⟨ys, hrest, by simp⟩⟩

theorem foldlM_placeNamespace (f : File) (rows : List NamespaceRow) :
    rows.foldlM placeNamespace f =
      some { f with namespaces := f.namespaces ++ rows.map fun row => ⟨row.name, []⟩ } := by
  induction rows generalizing f with
  | nil => simp
  | cons row rows ih => simp [List.foldlM_cons, placeNamespace, ih]

theorem foldlM_placeDefinition {f g : File} {rows : List DefinitionRow} :
    rows.foldlM placeDefinition f = some g ↔
      ∃ ds, List.Forall₂ (fun row d => definition? f.uri row = some d) rows ds ∧
        g = { f with definitions := f.definitions ++ ds } :=
  foldlM_append_eq_some (fun ds => { f with definitions := ds }) fun _ _ => rfl

def reference? (uri : String) (row : ReferenceRow) : Option Reference :=
  (range? row.span).map fun range => ⟨row.fqn, uri, range, row.fallback⟩

theorem foldlM_placeReference {f g : File} {rows : List ReferenceRow} :
    rows.foldlM placeReference f = some g ↔
      ∃ rs, List.Forall₂ (fun row x => reference? f.uri row = some x) rows rs ∧
        g = { f with references := f.references ++ rs } :=
  foldlM_append_eq_some (fun rs => { f with references := rs }) fun xs row => by
    cases h : range? row.span <;> simp [placeReference, reference?, h]

theorem perm_symbols_set {ns : List Namespace} {i : Nat} {n : Namespace} (h : ns[i]? = some n)
    (sym : Symbol) :
    ((ns.set i { n with symbols := n.symbols ++ [sym] }).flatMap Namespace.symbols).Perm
      (ns.flatMap Namespace.symbols ++ [sym]) := by
  induction ns generalizing i with
  | nil => simp at h
  | cons m ns ih =>
    cases i with
    | zero =>
      cases h
      simpa using (List.perm_append_singleton sym _).symm.append_left n.symbols
    | succ i => simpa using (ih h).append_left m.symbols

structure Peopled (f g : File) (symbols : List Symbol) : Prop where
  rest : g = { f with namespaces := g.namespaces }
  names : g.namespaces.map Namespace.name = f.namespaces.map Namespace.name
  symbols : g.symbols.Perm (f.symbols ++ symbols)

theorem placeSymbol_eq_some {f g : File} {row : SymbolRow} (h : placeSymbol f row = some g) :
    namespacePlace row < f.namespaces.length ∧ ∃ sym, symbol? row = some sym ∧ Peopled f g [sym] := by
  simp only [placeSymbol, Option.bind_eq_bind, Option.bind_eq_some_iff, Option.some.injEq] at h
  obtain ⟨sym, hsym, n, hn, rfl⟩ := h
  obtain ⟨hlt, -⟩ := List.getElem?_eq_some_iff.mp hn
  refine ⟨hlt, sym, hsym, rfl, ?_, perm_symbols_set hn sym⟩
  rw [List.map_set]
  exact set_eq_self (by rw [List.getElem?_map, hn]; rfl)

theorem Peopled.length_eq {f g : File} {symbols : List Symbol} (h : Peopled f g symbols) :
    g.namespaces.length = f.namespaces.length := by
  simpa using congrArg List.length h.names

theorem foldlM_placeSymbol {f g : File} {rows : List SymbolRow}
    (h : rows.foldlM placeSymbol f = some g) :
    (∀ row ∈ rows, namespacePlace row < f.namespaces.length) ∧
      ∃ symbols, List.Forall₂ (fun row s => symbol? row = some s) rows symbols ∧
        Peopled f g symbols := by
  induction rows generalizing f with
  | nil =>
    cases h
    exact ⟨by simp, [], .nil, rfl, rfl, by simp⟩
  | cons row rows ih =>
    rw [List.foldlM_cons] at h
    obtain ⟨mid, hmid, hrest⟩ := Option.bind_eq_some_iff.mp h
    obtain ⟨hlt, sym, hsym, hfirst⟩ := placeSymbol_eq_some hmid
    obtain ⟨hall, symbols, hsymbols, hmore⟩ := ih hrest
    refine ⟨List.forall_mem_cons.mpr ⟨hlt, hfirst.length_eq ▸ hall⟩, sym :: symbols, .cons hsym hsymbols,
      ?_, hmore.names.trans hfirst.names, ?_⟩
    · rw [hmore.rest, hfirst.rest]
    · refine hmore.symbols.trans ?_
      simpa using hfirst.symbols.append_right symbols

theorem foldlM_placeSymbol_isSome {f : File} {rows : List SymbolRow}
    (h : ∀ row ∈ rows, (symbol? row).isSome ∧ namespacePlace row < f.namespaces.length) :
    (rows.foldlM placeSymbol f).isSome := by
  induction rows generalizing f with
  | nil => rfl
  | cons row rows ih =>
    obtain ⟨⟨hsym, hlt⟩, hrest⟩ := List.forall_mem_cons.mp h
    obtain ⟨sym, hsym⟩ := Option.isSome_iff_exists.mp hsym
    obtain ⟨mid, hmid⟩ : ∃ mid, placeSymbol f row = some mid := by
      simp [placeSymbol, hsym, List.getElem?_eq_getElem hlt]
    obtain ⟨-, _, -, hfirst⟩ := placeSymbol_eq_some hmid
    rw [List.foldlM_cons, hmid]
    exact ih (hfirst.length_eq ▸ hrest)

end SemanticIndex.Tables
