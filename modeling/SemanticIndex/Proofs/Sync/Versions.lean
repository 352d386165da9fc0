import SemanticIndex.Proofs.Sweep.Contents
import SemanticIndex.Server.Call

namespace SemanticIndex

open Server (Revision)

namespace Edit

def opening (r : Revision) : Edit := .put r.uri r.version r.text

def change (r : Revision) : Edit := .update r.uri r.version r.text

def writes (uri : String) : Edit → Bool
  | .put u _ _ | .update u _ _ | .close u => u == uri
  | .parse _ => false

def revise (uri : String) (stored : Option Revision) : Edit → Option Revision
  | .put u version text => if u = uri then some ⟨u, version, text⟩ else stored
  | .update u version text =>
      if u = uri ∧ ∀ r ∈ stored, r.version ≤ version then some ⟨u, version, text⟩ else stored
  | .close u => if u = uri then none else stored
  | .parse _ => stored

theorem revise_of_not_writes {uri : String} {e : Edit} (h : e.writes uri = false)
    (stored : Option Revision) : e.revise uri stored = stored := by
  cases e <;> simp_all [writes, revise]

theorem change_injective : Function.Injective change := by
  rintro ⟨u, v, t⟩ ⟨u', v', t'⟩ h
  cases h
  rfl

theorem foldl_revise_filter (uri : String) (edits : List Edit) (stored : Option Revision) :
    edits.foldl (revise uri) stored = (edits.filter (writes uri)).foldl (revise uri) stored := by
  induction edits generalizing stored with
  | nil => rfl
  | cons e edits ih =>
    cases h : e.writes uri with
    | true => rw [List.filter_cons_of_pos h, List.foldl_cons, List.foldl_cons, ih]
    | false =>
      rw [List.filter_cons_of_neg (by simp [h]), List.foldl_cons, revise_of_not_writes h, ih]

end Edit

namespace Documents

variable {ε : Type} {services : Services ε} {d : Documents}

def revision? (d : Documents) (uri : String) : Option Revision :=
  (d.get? uri).map fun stored => ⟨uri, stored.version, stored.text⟩

theorem revision?_put (d : Documents) (u uri : String) (version : Int) (text : String) :
    (d.put u version text).revision? uri =
      if u = uri then some ⟨u, version, text⟩ else d.revision? uri := by
  rw [revision?, get?_put]
  split
  · next h => rw [h]; rfl
  · rfl

theorem accepts_iff (d : Documents) (uri : String) (version : Int) :
    d.accepts uri version = true ↔ ∀ r ∈ d.revision? uri, r.version ≤ version := by
  unfold accepts revision?
  cases d.get? uri <;> simp

theorem revision?_keepTree {u : String} {stored : Document} (h : d.get? u = some stored)
    (tree : Tree) (uri : String) : (d.keepTree u stored tree).revision? uri = d.revision? uri := by
  rw [revision?, get?_keepTree, revision?]
  split
  · next hu => rw [← hu, h]; rfl
  · rfl

theorem revision?_tree? (services : Services ε) (d : Documents) (u uri : String) :
    (d.tree? u (services.parse u)).2.revision? uri = d.revision? uri := by
  cases h : d.get? u with
  | none => simp only [tree?, h]
  | some stored =>
    simp only [tree?, tree, h]
    cases stored.tree with
    | some tree => rfl
    | none =>
      cases services.parse u stored.text with
      | ok tree => exact revision?_keepTree h tree uri
      | error e => rfl

theorem revision?_edit (services : Services ε) (d : Documents) (e : Edit) (uri : String) :
    (d.edit services e).revision? uri = e.revise uri (d.revision? uri) := by
  cases e with
  | put u version text => exact revision?_put d u uri version text
  | update u version text =>
    simp only [edit, update, Edit.revise]
    by_cases hu : u = uri
    · subst hu
      simp only [← d.accepts_iff u version, true_and]
      split
      · rw [revision?_put, if_pos rfl]
      · rfl
    · simp only [hu, false_and, if_false]
      split
      · rw [revision?_put, if_neg hu]
      · rfl
  | close u =>
    simp only [edit, revision?, get?_close, Edit.revise]
    split <;> rfl
  | parse u => exact revision?_tree? services d u uri

theorem revision?_edits (services : Services ε) (d : Documents) (edits : List Edit) (uri : String) :
    (edits.foldl (edit services) d).revision? uri =
      edits.foldl (Edit.revise uri) (d.revision? uri) := by
  induction edits generalizing d with
  | nil => rfl
  | cons e edits ih => rw [List.foldl_cons, List.foldl_cons, ih, revision?_edit]

end Documents

def Newest (rs : List Revision) (r : Revision) : Prop :=
  r ∈ rs ∧ ∀ other ∈ rs, other.version ≤ r.version

instance (rs : List Revision) (r : Revision) : Decidable (Newest rs r) :=
  inferInstanceAs (Decidable (_ ∧ _))

theorem Newest.congr {rs rs' : List Revision} {r : Revision} (h : Newest rs r)
    (hmem : ∀ other, other ∈ rs' ↔ other ∈ rs) : Newest rs' r :=
  ⟨(hmem r).mpr h.1, fun other ho => h.2 other ((hmem other).mp ho)⟩

theorem Edit.foldl_revise_changes {uri : String} {rs : List Revision} (h : ∀ r ∈ rs, r.uri = uri)
    (stored : Revision) :
    ∃ last, (rs.map change).foldl (revise uri) (some stored) = some last ∧
      Newest (stored :: rs) last := by
  induction rs generalizing stored with
  | nil => exact ⟨stored, rfl, by simp [Newest]⟩
  | cons r rs ih =>
    have hrs : ∀ r ∈ rs, r.uri = uri := fun r hr => h r (List.mem_cons_of_mem _ hr)
    by_cases hv : stored.version ≤ r.version
    · have hr : (change r).revise uri (some stored) = some r :=
        if_pos ⟨h r List.mem_cons_self, by simpa using hv⟩
      obtain ⟨last, hlast, hmem, hall⟩ := ih hrs r
      refine ⟨last, by rw [List.map_cons, List.foldl_cons, hr, hlast],
        List.mem_cons_of_mem _ hmem, ?_⟩
      have hle := hall r List.mem_cons_self
      rintro other (_ | ⟨_, ho⟩)
      · exact hv.trans hle
      · exact hall other ho
    · have hr : (change r).revise uri (some stored) = some stored :=
        if_neg fun hc => hv (hc.2 stored rfl)
      obtain ⟨last, hlast, hmem, hall⟩ := ih hrs stored
      have hle := hall stored List.mem_cons_self
      refine ⟨last, by rw [List.map_cons, List.foldl_cons, hr, hlast], ?_, ?_⟩
      · rcases List.mem_cons.mp hmem with rfl | hm
        · simp
        · simp [hm]
      · simp only [List.mem_cons, forall_eq_or_imp] at hall ⊢
        exact ⟨hle, by omega, hall.2⟩

theorem Edit.exists_map_change {rs : List Revision} {edits : List Edit}
    (h : ∀ e ∈ edits, e ∈ rs.map change) :
    ∃ late : List Revision, edits = late.map change ∧ ∀ r ∈ late, r ∈ rs := by
  induction edits with
  | nil => exact ⟨[], rfl, by simp⟩
  | cons e edits ih =>
    obtain ⟨r, hr, rfl⟩ := List.mem_map.mp (h e List.mem_cons_self)
    obtain ⟨late, rfl, hlate⟩ := ih fun e he => h e (List.mem_cons_of_mem _ he)
    exact ⟨r :: late, rfl, List.forall_mem_cons.mpr ⟨hr, hlate⟩⟩

theorem Edit.foldl_revise_reordered {opening : Revision} {changes : List Revision}
    {edits : List Edit} (hsame : ∀ r ∈ changes, r.uri = opening.uri)
    (hedits : (edits.filter (writes opening.uri)).Perm (.opening opening :: changes.map change))
    (stored : Option Revision) :
    ∃ front back, edits = front ++ .opening opening :: back ∧ ∃ last,
      edits.foldl (revise opening.uri) stored = some last ∧
      Newest (opening :: changes.filter (change · ∈ back)) last := by
  obtain ⟨front, back, rfl⟩ := List.append_of_mem
    (List.mem_of_mem_filter (hedits.mem_iff.mpr List.mem_cons_self))
  have hopening : (Edit.opening opening).writes opening.uri = true := by simp [Edit.opening, writes]
  have hopened (before : Option Revision) :
      (Edit.opening opening).revise opening.uri before = some opening := if_pos rfl
  rw [List.filter_append, List.filter_cons_of_pos hopening] at hedits
  have hrest := (List.perm_middle.symm.trans hedits).cons_inv
  have hback : ∀ e ∈ back.filter (writes opening.uri), e ∈ changes.map change :=
    fun e he => hrest.mem_iff.mp (List.mem_append_right _ he)
  obtain ⟨late, hlate, hsub⟩ := exists_map_change hback
  obtain ⟨last, hlast, hnewest⟩ :=
    foldl_revise_changes (fun r hr => hsame r (hsub r hr)) opening
  refine ⟨front, back, rfl, last, ?_, hnewest.congr fun r => ?_⟩
  · rw [List.foldl_append, List.foldl_cons, hopened, foldl_revise_filter _ back, hlate, hlast]
  · have hmem : r ∈ late ↔ r ∈ changes ∧ change r ∈ back := by
      constructor
      · intro hr
        have hlater : change r ∈ back.filter (writes opening.uri) :=
          hlate ▸ List.mem_map_of_mem hr
        exact ⟨hsub r hr, List.mem_of_mem_filter hlater⟩
      · rintro ⟨hr, hlater⟩
        have hwrites : (change r).writes opening.uri = true := by
          simp [change, writes, hsame r hr]
        have hm : change r ∈ late.map change := hlate ▸ List.mem_filter.mpr ⟨hlater, hwrites⟩
        exact (List.mem_map_of_injective change_injective).mp hm
    simp [hmem]

theorem Newest.version_eq {rs : List Revision} {r s : Revision} (hr : Newest rs r)
    (hs : Newest rs s) : r.version = s.version :=
  Int.le_antisymm (hs.2 r hr.1) (hr.2 s hs.1)

namespace Documents

variable {ε : Type}

theorem reordered_edits_keep_newest_since_opening (services : Services ε) (d : Documents)
    (opening : Revision) (changes : List Revision) (edits : List Edit)
    (hsame : ∀ r ∈ changes, r.uri = opening.uri)
    (hlater : ∀ r ∈ changes, opening.version < r.version)
    (hdistinct : (changes.map Revision.version).Nodup)
    (hedits : (edits.filter (Edit.writes opening.uri)).Perm
      (.opening opening :: changes.map Edit.change)) :
    ∃ front back, edits = front ++ .opening opening :: back ∧ ∃ last,
      (edits.foldl (edit services) d).revision? opening.uri = some last ∧
      Newest (opening :: changes.filter (Edit.change · ∈ back)) last ∧
      (Newest (opening :: changes) last ↔
        ∀ r ∈ changes, Newest (opening :: changes) r → Edit.change r ∈ back) := by
  obtain ⟨front, back, hsplit, last, hlast, hnewest⟩ :=
    Edit.foldl_revise_reordered hsame hedits (d.revision? opening.uri)
  refine ⟨front, back, hsplit, last, (revision?_edits services d edits _).trans hlast, hnewest,
    fun hall r hr hmax => ?_, fun hback => ?_⟩
  · have hversion := hmax.version_eq hall
    rcases List.mem_cons.mp hnewest.1 with rfl | hm
    · exact absurd (hlater r hr) (by omega)
    · obtain ⟨hchanges, hin⟩ := List.mem_filter.mp hm
      obtain rfl : r = last := List.inj_on_of_nodup_map hdistinct hr hchanges hversion
      simpa using hin
  · cases changes with
    | nil => simpa using hnewest
    | cons r rs =>
      have hrs : ∀ other ∈ rs, other.uri = opening.uri :=
        fun other ho => hsame other (List.mem_cons_of_mem _ ho)
      obtain ⟨top, -, htop⟩ := Edit.foldl_revise_changes hrs r
      have hfirst := hlater top htop.1
      have hmax : Newest (opening :: r :: rs) top :=
        ⟨List.mem_cons_of_mem _ htop.1, List.forall_mem_cons.mpr ⟨hfirst.le, htop.2⟩⟩
      have hle : top.version ≤ last.version := hnewest.2 top
        (List.mem_cons_of_mem _ (List.mem_filter.mpr
          ⟨htop.1, by simpa using hback top htop.1 hmax⟩))
      refine ⟨?_, fun other ho => (hmax.2 other ho).trans hle⟩
      rcases List.mem_cons.mp hnewest.1 with rfl | hm
      · simp
      · exact List.mem_cons_of_mem _ (List.mem_of_mem_filter hm)

theorem reordered_edits_keep_newest_since_opening_overtaken :
    let one : Revision := ⟨"file:///a.php", 1, "one"⟩
    let two : Revision := ⟨"file:///a.php", 2, "two"⟩
    let three : Revision := ⟨"file:///a.php", 3, "three"⟩
    let four : Revision := ⟨"file:///a.php", 4, "four"⟩
    let edits : List Edit := [.change two, .put "file:///b.php" 9 "other", .opening one,
      .parse "file:///a.php", .change four, .close "file:///b.php", .change three]
    (edits.foldl (edit Sweep.wordServices) empty).revision? "file:///a.php" = some four ∧
      ∃ front back, edits = front ++ .opening one :: back ∧
        Newest (one :: [two, three, four].filter (Edit.change · ∈ back)) four := by
  intro one two three four edits
  have hfour : (edits.foldl (edit Sweep.wordServices) empty).revision? "file:///a.php" =
      some four := by decide +kernel
  obtain ⟨front, back, hsplit, last, hlast, hnewest, -⟩ :=
    reordered_edits_keep_newest_since_opening Sweep.wordServices empty one [two, three, four] edits
      (by decide) (by decide) (by decide) (by decide)
  obtain rfl := Option.some.inj (hfour.symm.trans hlast)
  exact ⟨hfour, front, back, hsplit, hnewest⟩

theorem late_opening_undoes_change :
    let one : Revision := ⟨"file:///a.php", 1, "one"⟩
    let two : Revision := ⟨"file:///a.php", 2, "two"⟩
    let edits : List Edit := [.change two, .opening one]
    edits.Perm (.opening one :: [two].map Edit.change) ∧ one.version < two.version ∧
      (edits.foldl (edit Sweep.wordServices) empty).revision? "file:///a.php" = some one ∧
      ¬Newest [one, two] one := by
  decide +kernel

end Documents

end SemanticIndex
