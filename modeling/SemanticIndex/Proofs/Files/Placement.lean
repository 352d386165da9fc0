import Mathlib.Data.List.Induction
import SemanticIndex.Files.FileTree

namespace SemanticIndex

namespace Path

theorem exists_name_of_endsInName {path : String} (h : endsInName path = true) :
    ∃ front name, literal path = front ++ [name] ∧ isUpward name = false := by
  obtain ⟨name, hname, hplain⟩ := (Option.any_eq_true _ _).mp h
  simp only [Bool.and_eq_true, Bool.not_eq_true'] at hplain
  obtain ⟨front, hfront⟩ := List.getLast?_eq_some_iff.mp hname
  refine ⟨front.filter fun piece => !isIdle piece, name, ?_, hplain.2⟩
  rw [literal, hfront]
  simp [hplain.1]

theorem components_of_endsInName {path : String} (h : endsInName path = true) :
    ∃ front name, components path = front ++ [name] ∧
      (literal path).getLast?.any isUpward = false := by
  obtain ⟨front, name, hliteral, hplain⟩ := exists_name_of_endsInName h
  refine ⟨front.foldl step [], String.ofList name, ?_, ?_⟩
  · simp [components, hliteral, step, hplain]
  · simp [hliteral, hplain]

def Climbs (path : String) : Prop := ∃ piece ∈ literal path, isUpward piece = true

instance (path : String) : Decidable (Climbs path) :=
  inferInstanceAs (Decidable (∃ piece ∈ literal path, isUpward piece = true))

theorem foldl_step {pieces : List (List Char)} (h : ∀ piece ∈ pieces, isUpward piece = false)
    (place : List String) : pieces.foldl step place = place ++ pieces.map String.ofList := by
  induction pieces generalizing place with
  | nil => simp
  | cons piece rest ih =>
    obtain ⟨hpiece, hrest⟩ := List.forall_mem_cons.mp h
    simp [step, hpiece, ih hrest]

theorem exists_rest_of_mem_passedFrom {pieces : List (List Char)} {start place : List String}
    (h : ∀ piece ∈ pieces, isUpward piece = false) (hplace : place ∈ passedFrom start pieces) :
    ∃ rest, rest ≠ [] ∧ pieces.foldl step start = place ++ rest := by
  induction pieces generalizing start with
  | nil => cases hplace
  | cons piece more ih =>
    rcases List.mem_cons.mp hplace with rfl | hplace
    · exact ⟨_, by simp, foldl_step h place⟩
    · exact ih (List.forall_mem_cons.mp h).2 hplace

theorem toList_ofComponents {parts : List String} (h : parts ≠ []) :
    (ofComponents parts).toList = parts.flatMap fun p => '/' :: p.toList := by
  rw [ofComponents, if_neg (by simpa using h), String.toList_join, List.flatMap_map]
  simp

theorem ofComponents_sibling {front : List String} {a b : String}
    (h : ofComponents (front ++ [a]) = ofComponents (front ++ [b])) : a = b := by
  have hl := congrArg String.toList h
  exact String.toList_inj.mp (by simpa [toList_ofComponents] using hl)

end Path

namespace FileTree

variable {t t' : FileTree} {place other : List String}

def contentAt? (t : FileTree) (place : List String) : Option Content :=
  (t.at? place).bind Entry.content?

theorem isDirectoryAt_iff : t.isDirectoryAt place = true ↔ t.at? place = some .directory :=
  beq_iff_eq

theorem isFileAt_eq (t : FileTree) (place : List String) :
    t.isFileAt place = (t.contentAt? place).isSome := by
  unfold isFileAt contentAt?
  cases t.at? place with
  | none => rfl
  | some e => cases e <;> rfl

theorem content?_eq (t : FileTree) (path : String) : t.content? path =
    if (Path.passed path).all t.isDirectoryAt && Path.endsInName path then
      t.contentAt? (Path.components path) else none := by
  unfold content? entry? contentAt?
  cases (Path.passed path).all t.isDirectoryAt with
  | false => rfl
  | true =>
    cases t.at? (Path.components path) with
    | none => simp
    | some e => cases e <;> cases Path.endsInName path <;> simp [Option.filter, Entry.content?]

theorem at?_put (h : place ≠ []) (e : Entry) : (t.put place e).at? place = some e := by
  rw [at?, if_neg (by simpa using h), put, Std.ExtTreeMap.getElem?_insert_self]

theorem at?_put_of_ne (h : Path.ofComponents place ≠ Path.ofComponents other) (e : Entry) :
    (t.put place e).at? other = t.at? other := by
  simp [at?, put, Std.ExtTreeMap.getElem?_insert, h]

theorem at?_erase_of_ne (h : Path.ofComponents place ≠ Path.ofComponents other) :
    (t.erase place).at? other = t.at? other := by
  simp [at?, erase, Std.ExtTreeMap.getElem?_erase, h]

theorem at?_of_ofComponents_eq (h : Path.ofComponents place = Path.ofComponents other)
    (hp : place ≠ []) (ho : other ≠ []) : t.at? place = t.at? other := by
  simp [at?, hp, ho, h]

theorem ne_nil_of_isDirectoryAt (h : t.isDirectoryAt place = false) : place ≠ [] := by
  rintro rfl
  simp [isDirectoryAt, at?] at h

theorem isDirectoryAt_root (t : FileTree) : t.isDirectoryAt [] = true := isDirectoryAt_iff.mpr rfl

theorem isDirectoryAt_congr (h : t.isDirectoryAt place = false) (h' : t'.isDirectoryAt place = false)
    (hothers : ∀ other, Path.ofComponents place ≠ Path.ofComponents other →
      t'.at? other = t.at? other) (other : List String) :
    t'.isDirectoryAt other = t.isDirectoryAt other := by
  by_cases hroot : other = []
  · rw [hroot, t.isDirectoryAt_root, t'.isDirectoryAt_root]
  · by_cases hsame : Path.ofComponents place = Path.ofComponents other
    · have hne := ne_nil_of_isDirectoryAt h
      unfold isDirectoryAt at h h' ⊢
      rw [← at?_of_ofComponents_eq hsame hne hroot, ← at?_of_ofComponents_eq hsame hne hroot, h, h']
    · rw [isDirectoryAt, hothers other hsame, isDirectoryAt]

theorem isDirectoryAt_put_file (h : t.isDirectoryAt place = false) (c : Content)
    (other : List String) : (t.put place (.file c)).isDirectoryAt other = t.isDirectoryAt other := by
  refine isDirectoryAt_congr h ?_ (fun _ hne => at?_put_of_ne hne _) other
  simp [isDirectoryAt, at?_put (ne_nil_of_isDirectoryAt h)]

theorem isDirectoryAt_erase (h : t.isDirectoryAt place = false) (other : List String) :
    (t.erase place).isDirectoryAt other = t.isDirectoryAt other := by
  refine isDirectoryAt_congr h ?_ (fun _ hne => at?_erase_of_ne hne) other
  simp [isDirectoryAt, at?, erase, ne_nil_of_isDirectoryAt h]

def Keeps (t t' : FileTree) : Prop :=
  ∀ place, t.isDirectoryAt place = true → t'.isDirectoryAt place = true

theorem Keeps.refl (t : FileTree) : Keeps t t := fun _ => id

theorem Keeps.trans {t'' : FileTree} (h : Keeps t t') (h' : Keeps t' t'') : Keeps t t'' :=
  fun place hplace => h' place (h place hplace)

theorem Keeps.of_eq (h : ∀ place, t'.isDirectoryAt place = t.isDirectoryAt place) : Keeps t t' :=
  fun place hplace => (h place).trans hplace

theorem keeps_put_directory (t : FileTree) (place : List String) :
    Keeps t (t.put place .directory) := by
  intro other hother
  by_cases hsame : Path.ofComponents place = Path.ofComponents other
  · simp [isDirectoryAt, at?, put, hsame]
  · rw [isDirectoryAt, at?_put_of_ne hsame]
    exact hother

theorem isDirectoryAt_of_none (h : t.at? place = none) : t.isDirectoryAt place = false := by
  simp [isDirectoryAt, h]

theorem isDirectoryAt_of_file {c : Content} (h : t.at? place = some (.file c)) :
    t.isDirectoryAt place = false := by
  simp [isDirectoryAt, h]

theorem keeps_makeDirectories (t : FileTree) (places : List (List String)) :
    Keeps t (t.makeDirectories places).2 := by
  induction places generalizing t with
  | nil => exact .refl t
  | cons place rest ih =>
    unfold makeDirectories
    split
    · exact ih t
    · exact .refl t
    · exact (keeps_put_directory t place).trans (ih _)

theorem isDirectoryAt_makeDirectories {places : List (List String)}
    (h : (t.makeDirectories places).1 = true) (hplace : place ∈ places) :
    (t.makeDirectories places).2.isDirectoryAt place = true := by
  induction places generalizing t with
  | nil => cases hplace
  | cons first rest ih =>
    unfold makeDirectories at h ⊢
    split at h
    · next hfirst =>
      rcases List.mem_cons.mp hplace with rfl | hrest
      · exact keeps_makeDirectories t rest place (isDirectoryAt_iff.mpr hfirst)
      · exact ih h hrest
    · cases h
    · next hfirst =>
      rcases List.mem_cons.mp hplace with rfl | hrest
      · have hroot := ne_nil_of_isDirectoryAt (isDirectoryAt_of_none hfirst)
        exact keeps_makeDirectories _ rest place (isDirectoryAt_iff.mpr (at?_put hroot .directory))
      · exact ih h hrest

def Closed (t : FileTree) : Prop :=
  ∀ place name, (t.at? (place ++ [name])).isSome = true → t.isDirectoryAt place = true

theorem Closed.isDirectoryAt (h : t.Closed) {rest : List String} (hrest : rest ≠ [])
    (hat : (t.at? (place ++ rest)).isSome = true) : t.isDirectoryAt place = true := by
  induction rest using List.reverseRecOn with
  | nil => exact absurd rfl hrest
  | append_singleton rest name ih =>
    have hdirectory := h (place ++ rest) name (by rwa [List.append_assoc])
    by_cases hnil : rest = []
    · simpa [hnil] using hdirectory
    · exact ih hnil (by rw [isDirectoryAt_iff.mp hdirectory]; rfl)

theorem closed_empty : empty.Closed := by
  intro place name hsome
  simp [at?, empty] at hsome

theorem at?_of_flatMap_eq
    (h : place.flatMap (fun p => '/' :: p.toList) = other.flatMap fun p => '/' :: p.toList) :
    t.at? place = t.at? other := by
  have hnil (parts : List String) : parts.flatMap (fun p => '/' :: p.toList) = [] ↔ parts = [] := by
    cases parts <;> simp
  by_cases hplace : place = []
  · have hother : other = [] := (hnil other).mp (h ▸ (hnil place).mpr hplace)
    rw [hplace, hother]
  · have hother : other ≠ [] := fun hother =>
      hplace ((hnil place).mp (h ▸ (hnil other).mpr hother))
    refine at?_of_ofComponents_eq (String.toList_inj.mp ?_) hplace hother
    rw [Path.toList_ofComponents hplace, Path.toList_ofComponents hother, h]

-- The last slash of the common text stands before `name`, so `other` is `place` or lies above it.
theorem Closed.isDirectoryAt_of_same {name last : String} (h : t.Closed)
    (hplace : t.isDirectoryAt place = true) (hname : '/' ∉ name.toList)
    (hsame : Path.ofComponents (place ++ [name]) = Path.ofComponents (other ++ [last])) :
    t.isDirectoryAt other = true := by
  have htext := congrArg String.toList hsame
  rw [Path.toList_ofComponents (by simp), Path.toList_ofComponents (by simp)] at htext
  simp only [List.flatMap_append, List.flatMap_singleton] at htext
  rcases List.append_eq_append_iff.mp htext with ⟨rest, hrest, hlast⟩ | ⟨rest, hrest, hlast⟩
  · cases rest with
    | nil => rwa [FileTree.isDirectoryAt, at?_of_flatMap_eq (by simpa using hrest)]
    | cons c rest =>
      have hslash : '/' ∈ name.toList := by
        rw [(List.cons.inj hlast).2]
        simp
      exact absurd hslash hname
  · cases rest with
    | nil => rwa [FileTree.isDirectoryAt, ← at?_of_flatMap_eq (by simpa using hrest)]
    | cons c rest =>
      obtain rfl : '/' = c := (List.cons.inj hlast).1
      have hbelow : t.at? place = t.at? (other ++ [String.ofList rest]) :=
        at?_of_flatMap_eq (by simpa using hrest)
      exact h other (String.ofList rest) (by rw [← hbelow, isDirectoryAt_iff.mp hplace]; rfl)

theorem Closed.put {name : String} {e : Entry} (h : t.Closed) (hplace : t.isDirectoryAt place = true)
    (hname : '/' ∉ name.toList) (hkeeps : Keeps t (t.put (place ++ [name]) e)) :
    (t.put (place ++ [name]) e).Closed := by
  intro other last hsome
  refine hkeeps other ?_
  by_cases hsame : Path.ofComponents (place ++ [name]) = Path.ofComponents (other ++ [last])
  · exact h.isDirectoryAt_of_same hplace hname hsame
  · exact h other last (by rwa [at?_put_of_ne hsame] at hsome)

theorem isFile_of_closed {path : String} (h : t.Closed) (hplain : ¬Path.Climbs path)
    (hname : Path.endsInName path = true) (hat : t.isFileAt (Path.components path) = true) :
    t.isFile path = true := by
  rw [isFileAt_eq] at hat
  have hplain' : ∀ piece ∈ Path.literal path, Path.isUpward piece = false := fun piece hpiece =>
    Bool.eq_false_iff.mpr fun hup => hplain ⟨piece, hpiece, hup⟩
  have hsome : (t.at? (Path.components path)).isSome = true := by
    rw [contentAt?] at hat
    exact Option.isSome_of_isSome_bind hat
  have hleads : (Path.passed path).all t.isDirectoryAt = true := by
    refine List.all_eq_true.mpr fun place hplace => ?_
    obtain ⟨rest, hrest, heq⟩ := Path.exists_rest_of_mem_passedFrom hplain' hplace
    exact h.isDirectoryAt hrest (by rwa [← heq])
  rw [isFile, content?_eq, hleads, hname]
  exact hat

theorem content?_congr {path : String} (hkeeps : Keeps t t')
    (hat : t'.contentAt? (Path.components path) = t.contentAt? (Path.components path))
    (hfound : t.isFileAt (Path.components path) = true → t.isFile path = true) :
    t'.content? path = t.content? path := by
  rw [isFileAt_eq] at hfound
  rw [isFile] at hfound
  cases hcontent : t.contentAt? (Path.components path) with
  | none => simp [content?_eq, hat, hcontent]
  | some c =>
    have hsome := hfound (by rw [hcontent]; rfl)
    rw [content?_eq] at hsome ⊢
    split at hsome
    · next hleads =>
      rw [Bool.and_eq_true, List.all_eq_true] at hleads
      have hleads' : (Path.passed path).all t'.isDirectoryAt = true :=
        List.all_eq_true.mpr fun place hplace => hkeeps place (hleads.1 place hplace)
      rw [hat, hleads', hleads.2, content?_eq, List.all_eq_true.mpr hleads.1, hleads.2]
    · cases hsome

end FileTree

end SemanticIndex
