import SemanticIndex.Files.Discovery
import SemanticIndex.Proofs.Files.Relative
import SemanticIndex.Sync.Watch

namespace SemanticIndex

open Text

namespace Exclusion

variable {e : Exclusion} {pattern tail front path : List Char}

theorem coversChars_below (he : ∀ tail, e = .ending tail → ¬['/'] <:+ tail)
    (hpath : front ++ ['/'] <+: path) (h : e.coversChars (front ++ ['/']) = true) :
    e.coversChars path = true := by
  cases e with
  | directory name =>
    simp only [coversChars, Bool.or_eq_true, startsWith_iff_prefix, contains_iff_infix] at h ⊢
    exact h.imp (·.trans hpath) (·.trans hpath.isInfix)
  | ending tail =>
    simp only [coversChars, endsWith_iff_suffix] at h ⊢
    cases List.suffix_concat_iff.mp h with
    | inl hnil => exact hnil ▸ List.nil_suffix
    | inr hslash =>
      obtain ⟨init, rfl, -⟩ := hslash
      exact absurd (List.suffix_append init ['/']) (he _ rfl)
  | phrase text =>
    simp only [coversChars, contains_iff_infix] at h ⊢
    exact h.trans hpath.isInfix

theorem not_slash_suffix_of_ofPattern (h : ofPattern pattern = .ending tail) :
    ¬['/'] <:+ tail := by
  rintro ⟨init, rfl⟩
  unfold ofPattern at h
  split at h
  · cases h
  · next hslash =>
    split at h
    · cases h
    · split at h
      · next rest hrest =>
        cases h
        rw [after?_eq_some_iff] at hrest
        have := before?_eq_some_iff.mpr (show pattern = ('*' :: init) ++ ['/'] from hrest)
        rw [hslash] at this
        cases this
      · cases h

theorem covers_below {dir path : String} (pattern : List Char)
    (hpath : (dir ++ "/").toList <+: path.toList)
    (h : (ofPattern pattern).covers (dir ++ "/") = true) :
    (ofPattern pattern).covers path = true := by
  have hslash : replaceChar '\\' '/' (dir ++ "/").toList = replaceChar '\\' '/' dir.toList ++ ['/'] := by
    simp [replaceChar]
  have hbelow := hpath.map fun c => if c = '\\' then '/' else c
  rw [covers, hslash] at h
  refine coversChars_below (fun tail => not_slash_suffix_of_ofPattern) ?_ h
  rw [← hslash]
  exact hbelow

end Exclusion

theorem isExcluded_below {patterns : List String} {dir path : String}
    (hpath : (dir ++ "/").toList <+: path.toList) (h : isExcluded patterns (dir ++ "/") = true) :
    isExcluded patterns path = true := by
  rw [isExcluded, List.any_eq_true] at h ⊢
  obtain ⟨pattern, hm, hcovers⟩ := h
  exact ⟨pattern, hm, Exclusion.covers_below _ hpath hcovers⟩

theorem Path.mem_above_iff {dir parts : List String} :
    dir ∈ above parts ↔ ∃ rest, parts = dir ++ rest ∧ dir ≠ [] ∧ rest ≠ [] := by
  rw [above, List.range_eq_range', List.drop_range', List.mem_map]
  simp only [List.mem_range'_1]
  constructor
  · rintro ⟨n, hn, rfl⟩
    have hlength : 0 < parts.length := by omega
    refine ⟨parts.drop n, (List.take_append_drop n parts).symm, ?_, ?_⟩
    · rw [Ne, List.take_eq_nil_iff]
      rintro (h | h)
      · omega
      · simp [h] at hlength
    · rw [Ne, List.drop_eq_nil_iff]
      omega
  · rintro ⟨rest, rfl, hdir, hrest⟩
    have hd := List.length_pos_iff.mpr hdir
    have hr := List.length_pos_iff.mpr hrest
    exact ⟨dir.length, by rw [List.length_append]; omega, List.take_left⟩

theorem intercalate_append {α : Type} {sep : List α} {front back : List (List α)} (hf : front ≠ [])
    (hb : back ≠ []) : sep.intercalate (front ++ back) =
      sep.intercalate front ++ sep ++ sep.intercalate back := by
  induction front with
  | nil => exact absurd rfl hf
  | cons piece front ih =>
    cases front with
    | nil => simp [List.intercalate_cons_of_ne_nil hb]
    | cons next front =>
      have hrest : next :: front ++ back ≠ [] := by simp
      rw [List.cons_append, List.intercalate_cons_of_ne_nil hrest, ih (List.cons_ne_nil _ _),
        List.intercalate_cons_cons]
      simp only [List.append_assoc]

theorem Path.relativeText_below {dir rest : List String} (hdir : dir ≠ []) (hrest : rest ≠ []) :
    (relativeText dir ++ "/").toList <+: (relativeText (dir ++ rest)).toList := by
  rw [String.toList_append, toList_relativeText, toList_relativeText, List.map_append,
    intercalate_append (by simpa using hdir) (by simpa using hrest)]
  exact List.prefix_append _ _

namespace Search

variable {exclude parts : List String}

def Prunes (exclude parts : List String) : Prop :=
  (∃ dir rest, parts = dir ++ rest ∧ dir ≠ [] ∧ rest ≠ [] ∧
      isExcluded exclude (Path.relativeText dir ++ "/") = true) ∨
    isExcluded exclude (Path.relativeText parts) = true

theorem reaches_eq_false_iff : reaches exclude parts = false ↔ Prunes exclude parts := by
  simp only [reaches, Prunes, Bool.and_eq_false_iff, Bool.not_eq_false', List.all_eq_false,
    Bool.not_eq_true', Bool.not_eq_false, Path.mem_above_iff]
  refine or_congr_left ⟨?_, ?_⟩
  · rintro ⟨dir, ⟨rest, hparts, hdir, hrest⟩, h⟩
    exact ⟨dir, rest, hparts, hdir, hrest, h⟩
  · rintro ⟨dir, rest, hparts, hdir, hrest, h⟩
    exact ⟨dir, ⟨rest, hparts, hdir, hrest⟩, h⟩

theorem prunes_iff :
    Prunes exclude parts ↔ isExcluded exclude (Path.relativeText parts) = true := by
  refine ⟨?_, .inr⟩
  rintro (⟨dir, rest, rfl, hdir, hrest, h⟩ | h)
  · exact isExcluded_below (Path.relativeText_below hdir hrest) h
  · exact h

theorem reaches_eq : reaches exclude parts = !isExcluded exclude (Path.relativeText parts) := by
  have h : reaches exclude parts = false ↔ isExcluded exclude (Path.relativeText parts) = true :=
    reaches_eq_false_iff.trans prunes_iff
  cases hr : reaches exclude parts <;> cases he : isExcluded exclude (Path.relativeText parts) <;>
    simp_all

end Search

namespace Watch

theorem walk_and_watch_agree (w : Watch) (accepts : String → Bool) (parts : List String)
    (hne : parts ≠ []) (hparts : ∀ name ∈ parts, Path.IsName name) :
    let path := Path.join w.root (Path.relativeText parts)
    Path.relativeTo w.root path = Path.relativeText parts ∧
      (Search.reaches w.exclude parts = false ↔ Search.Prunes w.exclude parts) ∧
      (Search.Prunes w.exclude parts ↔
        isExcluded w.exclude (Path.relativeTo w.root path) = true) ∧
      w.uri? accepts path =
        if Search.reaches w.exclude parts then (uriOfPath? path).filter accepts else none := by
  intro path
  have hrelative : Path.relativeTo w.root path = Path.relativeText parts :=
    Path.relativeTo_join hne hparts w.root
  refine ⟨hrelative, Search.reaches_eq_false_iff, hrelative ▸ Search.prunes_iff, ?_⟩
  rw [uri?, hrelative, Search.reaches_eq]
  cases isExcluded w.exclude (Path.relativeText parts) <;> rfl

theorem walk_and_watch_agree_on_fixtures :
    let w : Watch := ⟨"/w/", ["*.tmp", "**/fixtures/**"]⟩
    let pruned := ["src", "a\\fixtures", "b.php"]
    let kept := ["src", "fixtures.php"]
    (∀ name ∈ pruned ++ kept, Path.IsName name) ∧ Search.reaches w.exclude pruned = false ∧
      w.uri? (fun _ => true) "/w/src/a\\fixtures/b.php" = none ∧
      Search.reaches w.exclude kept = true ∧
      w.uri? (fun _ => true) "/w/src/fixtures.php" = some "file:///w/src/fixtures.php" := by
  intro w pruned kept
  have hnames : ∀ name ∈ pruned ++ kept, Path.IsName name := by decide +kernel
  have hpruned : Search.reaches w.exclude pruned = false := by decide +kernel
  have hkept : Search.reaches w.exclude kept = true := by decide +kernel
  obtain ⟨-, -, -, hnone⟩ := walk_and_watch_agree w (fun _ => true) pruned (by simp [pruned])
    fun name hm => hnames name (List.mem_append_left _ hm)
  obtain ⟨-, -, -, hsome⟩ := walk_and_watch_agree w (fun _ => true) kept (by simp [kept])
    fun name hm => hnames name (List.mem_append_right _ hm)
  have hbelow : Path.join w.root (Path.relativeText pruned) = "/w/src/a\\fixtures/b.php" := by
    decide +kernel
  have hpath : Path.join w.root (Path.relativeText kept) = "/w/src/fixtures.php" := by
    decide +kernel
  rw [hpruned, hbelow] at hnone
  rw [hkept, hpath] at hsome
  exact ⟨hnames, hpruned, hnone, hkept, hsome.trans (by decide +kernel)⟩

end Watch

end SemanticIndex
