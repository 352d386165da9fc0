import SemanticIndex.Proofs.Index.Announcement
import SemanticIndex.Proofs.Index.Refinement

namespace SemanticIndex

namespace FileList

variable {fs front rest : List File} {f g : File} {fqn : String}

def earlier (fs : List File) (uri : String) : List String :=
  (fs.map File.uri).takeWhile (· != uri)

theorem not_mem_front_of_nodup (h : ((front ++ g :: rest).map File.uri).Nodup) :
    g.uri ∉ front.map File.uri := by
  intro hm
  rw [List.map_append, List.nodup_append] at h
  exact h.2.2 g.uri hm g.uri (by simp) rfl

theorem earlier_append (h : ((front ++ g :: rest).map File.uri).Nodup) :
    earlier (front ++ g :: rest) g.uri = front.map File.uri := by
  have hfront : ∀ u ∈ front.map File.uri, (u != g.uri) = true := by
    intro u hu
    refine bne_iff_ne.mpr ?_
    rintro rfl
    exact not_mem_front_of_nodup h hu
  rw [earlier, List.map_append, List.takeWhile_append_of_pos hfront]
  simp

theorem find?_put_front (h : ∀ a ∈ front, declares fqn a = false) :
    (front.map fun a => if a.uri == f.uri then f else a).find? (declares fqn) =
      if declares fqn f = true ∧ f.uri ∈ front.map File.uri then some f else none := by
  induction front with
  | nil => simp
  | cons a front ih =>
    have ha := h a List.mem_cons_self
    have ih := ih fun b hb => h b (List.mem_cons_of_mem a hb)
    rw [List.map_cons, List.find?_cons]
    by_cases hu : a.uri = f.uri
    · cases hd : declares fqn f with
      | true => simp [hu, hd]
      | false => simpa [hu, hd] using ih
    · simpa [hu, ha, Ne.symm hu] using ih

theorem owner?_put_of_ne (hn : (fs.map File.uri).Nodup) (hg : owner? fs fqn = some g)
    (hne : f.uri ≠ g.uri) :
    owner? (put fs f) fqn =
      some (if declares fqn f = true ∧ f.uri ∈ earlier fs g.uri then f else g) := by
  obtain ⟨hd, front, rest, rfl, hfront⟩ := List.find?_eq_some_iff_append.mp hg
  have hfront : ∀ a ∈ front, declares fqn a = false := by simpa using hfront
  rw [earlier_append hn, owner?, put]
  split
  · have hkeep : (if g.uri == f.uri then f else g) = g := if_neg (by simpa using Ne.symm hne)
    rw [List.map_append, List.find?_append, find?_put_front hfront, List.map_cons, hkeep,
      List.find?_cons_of_pos hd]
    split <;> rfl
  · next hnew =>
    have hout : f.uri ∉ front.map File.uri := by
      simp only [List.any_append, Bool.or_eq_true, not_or] at hnew
      simpa using hnew.1
    rw [List.find?_append, ← owner?, hg, if_neg fun h => hout h.2, Option.some_or]

theorem owner?_put_of_eq (hn : (fs.map File.uri).Nodup) (hg : owner? fs fqn = some g)
    (he : f.uri = g.uri) (hf : declares fqn f = true) : owner? (put fs f) fqn = some f := by
  obtain ⟨-, front, rest, rfl, hfront⟩ := List.find?_eq_some_iff_append.mp hg
  have hfront : ∀ a ∈ front, declares fqn a = false := by simpa using hfront
  have hout : f.uri ∉ front.map File.uri := he ▸ not_mem_front_of_nodup hn
  rw [owner?, put, if_pos (by simp [he]), List.map_append, List.find?_append,
    find?_put_front hfront, if_neg fun h => hout h.2, Option.none_or, List.map_cons,
    if_pos (by simp [he]), List.find?_cons_of_pos hf]

end FileList

namespace IndexState

variable {s : IndexState} {f : File} {fqn v : String}

namespace Consistent

theorem owner?_eq_some (h : Consistent s) (hv : s.owner? fqn = some v) :
    ∃ g, FileList.owner? s.files fqn = some g ∧ g.uri = v ∧ s.file? v = some g ∧
      fqn ∈ declaredNames g := by
  rw [h.owner?_eq, Option.map_eq_some_iff] at hv
  obtain ⟨g, hg, rfl⟩ := hv
  exact ⟨g, hg, rfl, h.mem_files.mp (List.mem_of_find?_eq_some hg),
    FileList.declares_iff.mp (List.find?_some hg)⟩

theorem owner?_replace_of_ne (h : Consistent s) (hv : s.owner? fqn = some v) (hne : f.uri ≠ v) :
    (s.replace f).owner? fqn =
      some (if fqn ∈ declaredNames f ∧ f.uri ∈ FileList.earlier s.files v then f.uri else v) := by
  obtain ⟨g, hg, rfl, -, -⟩ := h.owner?_eq_some hv
  rw [(h.replace f).owner?_eq, h.files_replace, FileList.owner?_put_of_ne h.uris_nodup hg hne,
    Option.map_some]
  simp only [FileList.declares_iff]
  split <;> rfl

theorem owner?_replace_of_eq (h : Consistent s) (hv : s.owner? fqn = some f.uri) :
    (s.replace f).owner? fqn = some f.uri ↔ fqn ∈ declaredNames f := by
  constructor
  · intro hafter
    obtain ⟨g, -, -, hfile, hd⟩ := (h.replace f).owner?_eq_some hafter
    rw [file?, slots_replace, if_pos rfl] at hfile
    cases hfile
    exact hd
  · intro hd
    obtain ⟨g, hg, hu, -, -⟩ := h.owner?_eq_some hv
    rw [(h.replace f).owner?_eq, h.files_replace,
      FileList.owner?_put_of_eq h.uris_nodup hg hu.symm (FileList.declares_iff.mpr hd),
      Option.map_some]

theorem owner?_remove (h : Consistent s) (hv : s.owner? fqn = some v) (uri : String) :
    (s.remove uri).owner? fqn = some v ↔ uri ≠ v := by
  constructor
  · rintro hafter rfl
    obtain ⟨g, -, -, hfile, -⟩ := (h.remove uri).owner?_eq_some hafter
    rw [file?, slots_remove, if_pos rfl] at hfile
    cases hfile
  · intro hne
    obtain ⟨g, hg, rfl, -, -⟩ := h.owner?_eq_some hv
    rw [(h.remove uri).owner?_eq, h.files_remove, FileList.owner?_erase hg (Ne.symm hne),
      Option.map_some]

end Consistent

def Ousts (s : IndexState) (fqn v : String) : Mutation → Prop
  | .upsert f =>
      f.uri = v ∧ fqn ∉ declaredNames f ∨
        f.uri ≠ v ∧ fqn ∈ declaredNames f ∧ f.uri ∈ FileList.earlier s.files v
  | .remove uri => uri = v
  | .restore snapshot => (Repository.stateOf snapshot).owner? fqn ≠ some v
  | .markVerified _ | .beginIndexing | .markComplete => False

end IndexState

namespace Repository

open IndexState

variable {r : Repository} {fqn v : String}

theorem owner?_apply_iff (h : r.state.Consistent) (hv : r.state.owner? fqn = some v)
    (m : Mutation) : (r.apply m).state.owner? fqn = some v ↔ ¬r.state.Ousts fqn v m := by
  cases m with
  | upsert f =>
    have hs : (r.apply (.upsert f)).state = r.state.replace f := rfl
    rw [hs, Ousts]
    by_cases hu : f.uri = v
    · subst hu
      simp [h.owner?_replace_of_eq hv]
    · rw [h.owner?_replace_of_ne hv hu]
      split
      · next hc => simp [hu, hc]
      · next hc => simpa [hu] using hc
  | remove uri => exact h.owner?_remove hv uri
  | restore snapshot => exact not_not.symm
  | markVerified uri => exact iff_of_true hv not_false
  | beginIndexing =>
    rw [apply, state_beginIndexing]
    exact iff_of_true hv not_false
  | markComplete =>
    rw [apply, state_markComplete]
    exact iff_of_true hv not_false

theorem exists_ousts_of_run (h : r.state.Consistent) (hv : r.state.owner? fqn = some v)
    {later : List Mutation} (hlost : (r.run later).state.owner? fqn ≠ some v) :
    ∃ front m rest, later = front ++ m :: rest ∧ (r.run front).state.owner? fqn = some v ∧
      (r.run front).state.Ousts fqn v m := by
  induction later generalizing r with
  | nil => exact absurd hv hlost
  | cons m later ih =>
    by_cases hkept : (r.apply m).state.owner? fqn = some v
    · obtain ⟨front, m', rest, rfl, howns, housts⟩ := ih (consistent_apply h m) hkept hlost
      exact ⟨m :: front, m', rest, rfl, howns, housts⟩
    · rw [owner?_apply_iff h hv m, not_not] at hkept
      exact ⟨[], m, later, rfl, hv, hkept⟩

theorem ownership_is_kept (ms : List Mutation) {fqn v : String}
    (hv : (empty.run ms).state.owner? fqn = some v) :
    let r := empty.run ms
    (∃ f, r.state.file? v = some f ∧ fqn ∈ declaredNames f ∧
        r.state.definition? fqn = f.definitions.find? (·.fqn == fqn)) ∧
      (∀ f : File, f.uri ≠ v → (r.upsert f).state.owner? fqn =
        some (if fqn ∈ declaredNames f ∧ f.uri ∈ FileList.earlier r.snapshot.files v then f.uri
          else v)) ∧
      (∀ m, (r.apply m).state.owner? fqn = some v ↔ ¬r.state.Ousts fqn v m) ∧
      ∀ later, (r.run later).state.owner? fqn ≠ some v →
        ∃ front m rest, later = front ++ m :: rest ∧ (r.run front).state.owner? fqn = some v ∧
          (r.run front).state.Ousts fqn v m := by
  intro r
  have h : r.state.Consistent := consistent_run_empty ms
  refine ⟨?_, fun f hne => h.owner?_replace_of_ne hv hne, owner?_apply_iff h hv,
    fun later hlost => exists_ousts_of_run h hv hlost⟩
  obtain ⟨f, -, -, hfile, hd⟩ := h.owner?_eq_some hv
  have hv' : r.state.owner? fqn = some v := hv
  exact ⟨f, hfile, hd, by simp [definition?, hv', hfile]⟩

def twoFiles : List Mutation :=
  [.upsert (.outline "file:///first.php" [] []),
   .upsert (.outline "file:///second.php" ["App\\Dup"] [])]

theorem ownership_is_kept_by_second :
    let r := empty.run twoFiles
    r.state.owner? "App\\Dup" = some "file:///second.php" ∧
      (r.upsert (.outline "file:///third.php" ["App\\Dup"] [])).state.owner? "App\\Dup" =
        some "file:///second.php" ∧
      (r.upsert (.outline "file:///first.php" ["App\\Dup"] [])).state.owner? "App\\Dup" =
        some "file:///first.php" := by
  intro r
  have hv : r.state.owner? "App\\Dup" = some "file:///second.php" := by decide +kernel
  have hfiles : r.snapshot.files = FileList.run [] twoFiles := files_run_empty twoFiles
  obtain ⟨-, hupsert, -, -⟩ := ownership_is_kept twoFiles hv
  refine ⟨hv, ?_, ?_⟩
  · rw [hupsert _ (by decide), hfiles]
    decide
  · rw [hupsert _ (by decide), hfiles]
    decide

theorem ownership_taken_by_earlier_file :
    let r := empty.run twoFiles
    let f := File.outline "file:///first.php" ["App\\Dup"] []
    f.uri ≠ "file:///second.php" ∧
      (r.state.definition? "App\\Dup").map Definition.uri = some "file:///second.php" ∧
      ((r.upsert f).state.definition? "App\\Dup").map Definition.uri =
        some "file:///first.php" ∧
      (r.upsert f).state.conflicts "file:///second.php" = ["App\\Dup"] := by
  decide +kernel

end Repository

end SemanticIndex
