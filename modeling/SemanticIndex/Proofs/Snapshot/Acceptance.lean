import SemanticIndex.Proofs.Snapshot.Decoding
import SemanticIndex.Snapshot.Store

namespace SemanticIndex

namespace Tables

section Verdicts

variable {t : Tables} {v : Int}

theorem bind_eq_error {α β : Type} {x : Loading α} {f : α → Loading β} {e : LoadError} :
    x >>= f = .error e ↔ x = .error e ∨ ∃ a, x = .ok a ∧ f a = .error e := by
  cases x <;> simp [bind, Except.bind]

def Complains {α : Type} (x : Loading α) : Prop := ∀ e, x = .error e → ∃ cause, e = .corrupt cause

theorem complains_ok {α : Type} (a : α) : Complains (.ok a) := nofun

theorem complains_corrupt {α : Type} (cause : Corruption) :
    Complains (.error (.corrupt cause) : Loading α) := by
  rintro _ ⟨⟩
  exact ⟨cause, rfl⟩

theorem complains_need {α : Type} (x : Option α) : Complains (need x) := by
  cases x with
  | none => exact complains_corrupt _
  | some a => exact complains_ok a

theorem complains_owning (files : Drafts) (s : Int) : Complains (owning files s) := by
  unfold owning
  split
  · exact complains_ok _
  · exact complains_corrupt _

theorem Complains.bind {α β : Type} {x : Loading α} {f : α → Loading β} (hx : Complains x)
    (hf : ∀ a, Complains (f a)) : Complains (x >>= f) := by
  intro e he
  obtain he | ⟨a, -, he⟩ := bind_eq_error.mp he
  · exact hx e he
  · exact hf a e he

theorem complains_foldlM {σ ρ : Type} {enter : σ → ρ → Loading σ}
    (h : ∀ state row, Complains (enter state row)) (rows : List ρ) (state : σ) :
    Complains (rows.foldlM enter state) := by
  induction rows generalizing state with
  | nil => exact complains_ok state
  | cons row rows ih =>
    rw [List.foldlM_cons]
    exact (h state row).bind ih

theorem complains_readFiles (t : Tables) : Complains t.readFiles := by
  have hnamespace (files : Drafts) (row : NamespaceRow) : Complains (enterNamespace files row) :=
    (complains_owning _ _).bind fun _ => complains_ok _
  have hsymbol (files : Drafts) (row : SymbolRow) : Complains (enterSymbol files row) := by
    refine (complains_need _).bind fun s => (complains_owning _ _).bind fun f => ?_
    dsimp only
    split
    · exact complains_corrupt _
    · exact complains_ok _
  have hdefinition (files : Drafts) (row : DefinitionRow) : Complains (enterDefinition files row) :=
    (complains_need _).bind fun _ => (complains_owning _ _).bind fun _ => complains_ok _
  have hreference (files : Drafts) (row : ReferenceRow) : Complains (enterReference files row) :=
    (complains_need _).bind fun _ => (complains_owning _ _).bind fun _ => complains_ok _
  exact (complains_need _).bind fun _ =>
    (complains_need _).bind fun _ => (complains_foldlM hnamespace _ _).bind fun _ =>
    (complains_need _).bind fun _ => (complains_foldlM hsymbol _ _).bind fun _ =>
    (complains_need _).bind fun _ => (complains_foldlM hdefinition _ _).bind fun _ =>
    (complains_need _).bind fun _ => (complains_foldlM hreference _ _).bind fun _ => complains_ok _

def ShowsSchema (t : Tables) (v : Int) : Prop :=
  ∃ applied, t.schema = some applied ∧
    (applied = [] ∧ v = 0 ∨ v ∈ applied ∧ ∀ w ∈ applied, w ≤ v) ∧ -0x80000000 ≤ v ∧ v < 0x80000000

def ShowsFormat (t : Tables) (n : Nat) : Prop :=
  ∃ text, t.setting? "format_version" = some text ∧ word32? text = some n

def ShowsTime (t : Tables) (moment : Timestamp) : Prop :=
  ∃ text, t.setting? "created_at" = some text ∧ Timestamp.parse? text = some moment

def Foreign (t : Tables) (found : Nat) : Prop :=
  (∃ v, t.ShowsSchema v ∧ v ≠ schemaVersion ∧ found = (max v 0).toNat) ∨
    t.ShowsSchema schemaVersion ∧ t.ShowsFormat found ∧ found ≠ snapshotVersion

def Acceptable (t : Tables) : Prop :=
  t.ShowsSchema schemaVersion ∧ t.ShowsFormat snapshotVersion ∧ (∃ moment, t.ShowsTime moment) ∧
    ∃ r, t.rows? = some r ∧ r.Decodable ∧ r.Housed

theorem appliedSchema_eq {applied : List Int} {v : Int} :
    appliedSchema applied = v ↔
      applied = [] ∧ v = 0 ∨ v ∈ applied ∧ ∀ w ∈ applied, w ≤ v := by
  cases applied with
  | nil => simp [appliedSchema, eq_comm]
  | cons w ws =>
    have hmax : (w :: ws).max? = some (appliedSchema (w :: ws)) := List.max?_cons'
    have hiff : (w :: ws).max? = some v ↔ v ∈ w :: ws ∧ ∀ u ∈ w :: ws, u ≤ v :=
      List.max?_eq_some_iff
    rw [hmax, Option.some.injEq] at hiff
    simpa using hiff

theorem checkSchema_eq (h : t.ShowsSchema v) :
    t.checkSchema = if v = schemaVersion then .ok () else .error (.incompatible (max v 0).toNat) := by
  obtain ⟨applied, happlied, hv, hlow, hhigh⟩ := h
  obtain rfl := appliedSchema_eq.mpr hv
  have hfits : ¬(appliedSchema applied < -0x80000000 ∨ 0x80000000 ≤ appliedSchema applied) := by omega
  simp only [checkSchema, happlied, need, bind, Except.bind, if_neg hfits]
  split <;> simp_all

theorem checkSchema_unreadable (h : ∀ v, ¬t.ShowsSchema v) : t.checkSchema = unreadable := by
  unfold checkSchema
  cases happlied : t.schema with
  | none => rfl
  | some applied =>
    simp only [need, bind, Except.bind]
    refine if_pos ?_
    by_contra hfits
    exact h _ ⟨applied, happlied, appliedSchema_eq.mp rfl, by omega, by omega⟩

theorem checkSchema_eq_ok : t.checkSchema = .ok () ↔ t.ShowsSchema schemaVersion := by
  refine ⟨fun h => ?_, fun h => by rw [checkSchema_eq h, if_pos rfl]⟩
  by_cases hschema : ∃ v, t.ShowsSchema v
  · obtain ⟨v, hv⟩ := hschema
    rw [checkSchema_eq hv] at h
    split at h
    · next heq => exact heq ▸ hv
    · cases h
  · rw [checkSchema_unreadable (not_exists.mp hschema)] at h
    cases h

theorem readVersion_eq {n : Nat} (h : t.ShowsFormat n) :
    t.readVersion = if n = snapshotVersion then .ok n else .error (.incompatible n) := by
  obtain ⟨text, htext, hn⟩ := h
  simp only [readVersion, htext, need, bind, Except.bind, hn]

theorem complains_readVersion (h : ∀ n, ¬t.ShowsFormat n) : Complains t.readVersion := by
  unfold readVersion
  cases htext : t.setting? "format_version" with
  | none => exact complains_corrupt _
  | some text =>
    cases hn : word32? text with
    | none => simpa [need, bind, Except.bind, hn] using complains_corrupt (α := Nat) .badVersion
    | some n => exact absurd ⟨text, htext, hn⟩ (h n)

theorem readVersion_eq_ok {n : Nat} :
    t.readVersion = .ok n ↔ t.ShowsFormat n ∧ n = snapshotVersion := by
  constructor
  · intro h
    obtain ⟨text, htext, h⟩ := bind_eq_ok.mp h
    cases hn : word32? text with
    | none => simp [hn] at h
    | some m =>
      simp only [hn] at h
      split at h
      · next heq =>
        cases h
        exact ⟨⟨text, need_eq_ok.mp htext, hn⟩, heq⟩
      · cases h
  · rintro ⟨hformat, rfl⟩
    rw [readVersion_eq hformat, if_pos rfl]

theorem load_foreign {found : Nat} (h : t.Foreign found) : t.load = .error (.incompatible found) := by
  unfold load
  rcases h with ⟨v, hv, hne, rfl⟩ | ⟨hv, hformat, hne⟩
  · rw [checkSchema_eq hv, if_neg hne]
    rfl
  · rw [checkSchema_eq hv, readVersion_eq hformat, if_pos rfl, if_neg hne]
    rfl

theorem load_known (hschema : t.ShowsSchema schemaVersion) (hformat : t.ShowsFormat snapshotVersion) :
    t.load = (do
      let createdAt ← need ((t.setting? "created_at").bind Timestamp.parse?)
      let files ← t.readFiles
      .ok ⟨⟨snapshotVersion, files⟩, createdAt⟩) := by
  rw [load, checkSchema_eq hschema, readVersion_eq hformat, if_pos rfl, if_pos rfl]
  rfl

theorem complains_load (h : ∀ found, ¬t.Foreign found) : Complains t.load := by
  by_cases hschema : ∃ v, t.ShowsSchema v
  · obtain ⟨v, hv⟩ := hschema
    obtain rfl : v = schemaVersion := by_contra fun hne => h _ (.inl ⟨v, hv, hne, rfl⟩)
    by_cases hformat : ∃ n, t.ShowsFormat n
    · obtain ⟨n, hn⟩ := hformat
      obtain rfl : n = snapshotVersion := by_contra fun hne => h _ (.inr ⟨hv, hn, hne⟩)
      rw [load_known hv hn]
      exact (complains_need _).bind fun _ => (complains_readFiles t).bind fun _ => complains_ok _
    · rw [load, checkSchema_eq hv, if_pos rfl]
      exact (complains_ok _).bind fun _ =>
        (complains_readVersion (not_exists.mp hformat)).bind fun _ =>
        (complains_need _).bind fun _ => (complains_readFiles t).bind fun _ => complains_ok _
  · rw [load, checkSchema_unreadable (not_exists.mp hschema)]
    exact complains_corrupt _

theorem load_eq_ok {snapshot : DatedSnapshot} :
    t.load = .ok snapshot ↔ t.ShowsSchema schemaVersion ∧ t.ShowsFormat snapshotVersion ∧
      snapshot.version = snapshotVersion ∧ t.ShowsTime snapshot.createdAt ∧
      t.readFiles = .ok snapshot.files := by
  constructor
  · intro h
    obtain ⟨_, hschema, h⟩ := bind_eq_ok.mp h
    obtain ⟨version, hversion, h⟩ := bind_eq_ok.mp h
    obtain ⟨hformat, rfl⟩ := readVersion_eq_ok.mp hversion
    obtain ⟨createdAt, htime, h⟩ := bind_eq_ok.mp h
    obtain ⟨files, hfiles, h⟩ := bind_eq_ok.mp h
    cases h
    exact ⟨checkSchema_eq_ok.mp hschema, hformat, rfl,
      Option.bind_eq_some_iff.mp (need_eq_ok.mp htime), hfiles⟩
  · obtain ⟨⟨version, files⟩, createdAt⟩ := snapshot
    rintro ⟨hschema, hformat, rfl, htime, hfiles⟩
    rw [load_known hschema hformat, need_eq_ok.mpr (Option.bind_eq_some_iff.mpr htime)]
    exact bind_eq_ok.mpr ⟨createdAt, rfl, bind_eq_ok.mpr ⟨files, hfiles, rfl⟩⟩

theorem load_isOk : (∃ snapshot, t.load = .ok snapshot) ↔ t.Acceptable := by
  simp only [load_eq_ok, readFiles_eq_ok, Acceptable, ← enterAll_isOk]
  constructor
  · rintro ⟨snapshot, hschema, hformat, -, htime, r, files, hr, hfiles, -⟩
    exact ⟨hschema, hformat, ⟨_, htime⟩, r, hr, files, hfiles⟩
  · rintro ⟨hschema, hformat, ⟨moment, htime⟩, r, hr, files, hfiles⟩
    exact ⟨⟨⟨snapshotVersion, files.map Prod.snd⟩, moment⟩, hschema, hformat, rfl, htime, r, files, hr,
      hfiles, rfl⟩

theorem load_error {e : LoadError} (h : t.load = .error e) :
    (∃ found, t.Foreign found ∧ e = .incompatible found) ∨ ∃ cause, e = .corrupt cause := by
  by_cases hforeign : ∃ found, t.Foreign found
  · obtain ⟨found, hfound⟩ := hforeign
    rw [load_foreign hfound] at h
    cases h
    exact .inl ⟨found, hfound, rfl⟩
  · exact .inr (complains_load (not_exists.mp hforeign) e h)

theorem load_ne_missing : t.load ≠ .error .missing := by
  intro h
  obtain ⟨_, -, ⟨⟩⟩ | ⟨_, ⟨⟩⟩ := load_error h

theorem load_eq_incompatible {found : Nat} :
    t.load = .error (.incompatible found) ↔ t.Foreign found := by
  refine ⟨fun h => ?_, load_foreign⟩
  obtain ⟨_, hfound, ⟨⟩⟩ | ⟨_, ⟨⟩⟩ := load_error h
  exact hfound

theorem load_isCorrupt : (∃ cause, t.load = .error (.corrupt cause)) ↔
    (∀ found, ¬t.Foreign found) ∧ ¬t.Acceptable := by
  constructor
  · rintro ⟨cause, h⟩
    refine ⟨fun found hforeign => ?_, fun hgood => ?_⟩
    · rw [load_foreign hforeign] at h
      cases h
    · obtain ⟨snapshot, hok⟩ := load_isOk.mpr hgood
      rw [hok] at h
      cases h
  · rintro ⟨hforeign, hbad⟩
    cases hload : t.load with
    | ok snapshot => exact absurd (load_isOk.mp ⟨snapshot, hload⟩) hbad
    | error e =>
      obtain ⟨cause, rfl⟩ := complains_load hforeign e hload
      exact ⟨cause, rfl⟩

end Verdicts

def KeyedFiles (t : Tables) : Prop := ∀ rows, t.files = some rows → (rows.map FileRow.seq).Nodup

def Gives (t : Tables) (files : List File) : Prop :=
  ∃ r sorted, t.rows? = some r ∧ sorted.Perm r.files ∧ sorted.Pairwise (·.seq < ·.seq) ∧
    List.Forall₂ r.Gives sorted files

theorem filled_of_load {t : Tables} {snapshot : DatedSnapshot} (hkeys : t.KeyedFiles)
    (h : t.load = .ok snapshot) :
    ∃ r sorted, t.rows? = some r ∧ sorted.Perm r.files ∧ sorted.Pairwise (·.seq < ·.seq) ∧
      List.Forall₂ (fun row f => r.fill row.seq (draftOf row) = some f) sorted snapshot.files := by
  obtain ⟨-, -, -, -, hfiles⟩ := load_eq_ok.mp h
  obtain ⟨r, files, hr, hrun, hout⟩ := readFiles_eq_ok.mp hfiles
  have hnodup : (r.files.map FileRow.seq).Nodup := by
    refine hkeys r.files ?_
    simp only [rows?, Option.bind_eq_bind, Option.bind_eq_some_iff, Option.some.injEq] at hr
    obtain ⟨fs, hfs, _, -, _, -, _, -, _, -, rfl⟩ := hr
    exact hfs
  obtain ⟨sorted, hperm, hsorted, hfilled⟩ := filled_of_enterAll hrun hnodup
  exact ⟨r, sorted, hr, hperm, hsorted, hout ▸ hfilled⟩

theorem gives_of_load {t : Tables} {snapshot : DatedSnapshot} (hkeys : t.KeyedFiles)
    (h : t.load = .ok snapshot) : t.Gives snapshot.files := by
  obtain ⟨r, sorted, hr, hperm, hsorted, hfilled⟩ := filled_of_load hkeys h
  exact ⟨r, sorted, hr, hperm, hsorted, hfilled.imp fun _ _ hfill => (filled_of_fill hfill).gives⟩

end Tables

namespace SnapshotStore

theorem load_accepts_exactly (s : SnapshotStore) (tree : FileTree) :
    (s.load tree = .error .missing ↔ tree.isFile s.path = false) ∧
      (∀ found, s.load tree = .error (.incompatible found) ↔
        ∃ t, tree.content? s.path = some (.database t) ∧ t.Foreign found) ∧
      ((∃ snapshot, s.load tree = .ok snapshot) ↔
        ∃ t, tree.content? s.path = some (.database t) ∧ t.Acceptable) ∧
      ((∃ cause, s.load tree = .error (.corrupt cause)) ↔
        tree.isFile s.path = true ∧ ∀ t, tree.content? s.path = some (.database t) →
          (∀ found, ¬t.Foreign found) ∧ ¬t.Acceptable) ∧
      ∀ t, tree.content? s.path = some (.database t) → ∀ snapshot, s.load tree = .ok snapshot →
        snapshot.version = snapshotVersion ∧ t.ShowsTime snapshot.createdAt ∧
          (t.KeyedFiles → t.Gives snapshot.files) := by
  unfold load FileTree.isFile
  cases hcontent : tree.content? s.path with
  | none => simp
  | some content =>
    cases content with
    | bytes data => simp
    | database t =>
      simp only [Option.isSome_some, Option.some.injEq, Content.database.injEq, exists_eq_left',
        forall_eq', true_and]
      refine ⟨by simp [Tables.load_ne_missing], fun _ => Tables.load_eq_incompatible, Tables.load_isOk,
        Tables.load_isCorrupt, fun snapshot h => ?_⟩
      obtain ⟨-, -, hversion, htime, -⟩ := Tables.load_eq_ok.mp h
      exact ⟨hversion, htime, fun hkeys => Tables.gives_of_load hkeys h⟩

def shuffledTables : Tables where
  schema := some [1, 0]
  settings := some [("created_at", "2024-01-01T00:00:00Z"), ("format_version", "+1")]
  files := some [⟨7, "file:///b.php", "h", -5, false⟩, ⟨-2, "file:///a.php", "h", 3, true⟩]
  namespaces := some [⟨7, 4, "Late"⟩, ⟨-2, 0, "App"⟩, ⟨7, -1, "Early"⟩]
  symbols := some [
    ⟨7, 1, 0, "Late\\\\f", "f", "function", "Late", none, ⟨1, 0, 1, 4⟩⟩,
    ⟨7, -3, 0, "Early\\\\g", "g", "function", "Early", none, ⟨2, 0, 2, 4⟩⟩]
  definitions := some [
    ⟨7, 1, "B", "B", "class", none, ⟨5, 0, 5, 1⟩, none, none, "[\"A\"]"⟩,
    ⟨7, 0, "A", "A", "class", none, ⟨4, 0, 4, 1⟩, none, none, "[]"⟩]
  references := some [⟨-2, 0, "B", ⟨0, 0, 0, 1⟩, none⟩]

def shuffledTree : FileTree :=
  FileTree.empty.write "/cache/index.db" (.database shuffledTables)

theorem acceptable_shuffledTables : shuffledTables.Acceptable := by
  refine ⟨⟨_, rfl, .inr (by decide), by decide⟩, ⟨"+1", by decide, by decide +kernel⟩,
    ⟨⟨1704067200, 0⟩, "2024-01-01T00:00:00Z", by decide, by decide +kernel⟩, _, rfl, ?_, ?_⟩
  · have hsymbols : ∀ row ∈ shuffledTables.symbols.getD [], (Tables.symbol? row).isSome = true := by
      decide +kernel
    have hdefinitions : ∀ row ∈ shuffledTables.definitions.getD [],
        (Tables.definition? "" row).isSome = true := by
      decide +kernel
    have hreferences : ∀ row ∈ shuffledTables.references.getD [],
        (Tables.range? row.span).isSome = true := by
      decide +kernel
    exact ⟨fun row hrow => Tables.symbol?_isSome.mp (hsymbols row hrow),
      fun row hrow => Tables.definition?_isSome.mp (hdefinitions row hrow),
      fun row hrow => Tables.range?_isSome.mp (hreferences row hrow)⟩
  · exact ⟨by decide, by decide, by decide, by decide, by decide⟩

theorem load_accepts_exactly_shuffled :
    ∃ snapshot, (SnapshotStore.mk "/cache/index.db").load shuffledTree = .ok snapshot ∧
      snapshot.files.map File.uri = ["file:///a.php", "file:///b.php"] := by
  obtain ⟨-, -, haccepts, -, hgives⟩ := load_accepts_exactly ⟨"/cache/index.db"⟩ shuffledTree
  have hcontent : shuffledTree.content? "/cache/index.db" = some (.database shuffledTables) := by
    decide +kernel
  have hkeys : shuffledTables.KeyedFiles := by
    rintro _ ⟨⟩
    decide
  obtain ⟨snapshot, hload⟩ := haccepts.mpr ⟨_, hcontent, acceptable_shuffledTables⟩
  obtain ⟨r, sorted, hr, hperm, hsorted, hfiles⟩ := (hgives _ hcontent _ hload).2.2 hkeys
  cases hr
  refine ⟨snapshot, hload, ?_⟩
  obtain rfl := hperm.trans (List.Perm.swap _ _ _) |>.eq_of_pairwise
    (fun a b _ _ hab hba => absurd hab (Int.lt_asymm hba)) hsorted (by decide)
  obtain ⟨f, fs, hf, hfs, hfiles⟩ := List.forall₂_cons_left_iff.mp hfiles
  obtain ⟨g, gs, hg, hgs, rfl⟩ := List.forall₂_cons_left_iff.mp hfs
  cases hgs
  rw [hfiles]
  simp [hf.uri, hg.uri]

end SnapshotStore

end SemanticIndex
