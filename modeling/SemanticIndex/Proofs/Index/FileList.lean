import SemanticIndex.Index.Repository
import SemanticIndex.Proofs.Text.ByteOrder
import Mathlib.Data.List.Dedup

namespace SemanticIndex

inductive Mutation where
  | upsert (f : File)
  | remove (uri : String)
  | restore (s : Snapshot)
  | markVerified (uri : String)
  | beginIndexing
  | markComplete
  deriving DecidableEq, Repr

def Mutation.files : Mutation → List File
  | .upsert f => [f]
  | .restore s => s.files
  | _ => []

namespace Repository

def apply (r : Repository) : Mutation → Repository
  | .upsert f => r.upsert f
  | .remove uri => r.remove uri
  | .restore s => r.restore s
  | .markVerified uri => r.markVerified uri
  | .beginIndexing => r.beginIndexing
  | .markComplete => r.markComplete

def run (r : Repository) (cs : List Mutation) : Repository := cs.foldl apply r

theorem state_beginIndexing (r : Repository) : r.beginIndexing.state = r.state := by
  unfold beginIndexing
  split <;> rfl

theorem state_markComplete (r : Repository) : r.markComplete.state = r.state := by
  unfold markComplete
  split <;> rfl

theorem status_markComplete (r : Repository) : r.markComplete.status = .complete := by
  unfold markComplete
  split
  · next h => exact h
  · rfl

end Repository

def File.Local (f : File) : Prop :=
  (∀ d ∈ f.definitions, d.uri = f.uri) ∧ ∀ r ∈ f.references, r.uri = f.uri

instance (f : File) : Decidable f.Local :=
  inferInstanceAs (Decidable (_ ∧ _))

def File.outline (uri : String) (declared : List String) (used : List (String × Option String)) :
    File where
  uri := uri
  contentHash := ""
  parseMillis := 0
  hasErrors := false
  namespaces := []
  definitions := declared.map fun fqn =>
    { fqn, name := fqn, kind := .function, uri, range := ⟨⟨0, 0⟩, ⟨0, 0⟩⟩, container := none,
      signature := none, documentation := none, parents := [] }
  references := used.map fun u =>
    { fqn := u.1, uri, range := ⟨⟨0, 0⟩, ⟨0, 0⟩⟩, fallback := u.2 }

namespace FileList

def put (fs : List File) (f : File) : List File :=
  if fs.any (·.uri == f.uri) then fs.map fun g => if g.uri == f.uri then f else g
  else fs ++ [f]

def erase (fs : List File) (uri : String) : List File := fs.filter (·.uri != uri)

def apply (fs : List File) : Mutation → List File
  | .upsert f => put fs f
  | .remove uri => erase fs uri
  | .restore s => if s.version = snapshotVersion then s.files.foldl put [] else []
  | .markVerified _ | .beginIndexing | .markComplete => fs

def run (fs : List File) (cs : List Mutation) : List File := cs.foldl apply fs

def declares (fqn : String) (f : File) : Bool := f.definitions.any (·.fqn == fqn)

def owner? (fs : List File) (fqn : String) : Option File := fs.find? (declares fqn)

def definition? (fs : List File) (fqn : String) : Option Definition :=
  (owner? fs fqn).bind fun f => f.definitions.find? (·.fqn == fqn)

def bound (fs : List File) (r : Reference) : String :=
  match r.fallback with
  | some fallback =>
      if !fs.any (declares r.fqn) && fs.any (declares fallback) then fallback else r.fqn
  | none => r.fqn

def refersTo (fs : List File) (fqn : String) (f : File) : Bool :=
  f.references.any fun r => bound fs r == fqn

def referencesTo (fs : List File) (fqn : String) : List Reference :=
  fs.flatMap fun f => f.references.filter fun r => bound fs r == fqn

def byteLe (a b : String) : Bool := decide (Text.utf8 a ≤ Text.utf8 b)

def referenceUris (fs : List File) (fqn : String) : List String :=
  ((fs.filter (refersTo fs fqn)).map File.uri).dedup.mergeSort byteLe

def conflicts (fs : List File) (uri : String) : List String :=
  match fs.find? (·.uri == uri) with
  | none => []
  | some f =>
      (f.definitions.map Definition.fqn).filter fun fqn => (owner? fs fqn).map File.uri != some uri

theorem definition?_eq_none_iff {fs : List File} {fqn : String} :
    definition? fs fqn = none ↔ ∀ f ∈ fs, declares fqn f = false := by
  constructor
  · intro hn f hf
    rw [← Bool.not_eq_true]
    intro hd
    obtain ⟨g, hg⟩ : ∃ g, owner? fs fqn = some g :=
      Option.isSome_iff_exists.mp (List.find?_isSome.mpr ⟨f, hf, hd⟩)
    have hdecl : declares fqn g = true := List.find?_some hg
    obtain ⟨d, hm, he⟩ := List.any_eq_true.mp hdecl
    rw [definition?, hg, Option.bind_some, List.find?_eq_none] at hn
    exact hn d hm he
  · intro h
    have ho : owner? fs fqn = none := List.find?_eq_none.mpr fun f hf => by simp [h f hf]
    rw [definition?, ho, Option.bind_none]

theorem mem_put {fs : List File} {f g : File} (h : g ∈ put fs f) : g = f ∨ g ∈ fs := by
  unfold put at h
  split at h
  · obtain ⟨k, hk, rfl⟩ := List.mem_map.mp h
    split
    · exact .inl rfl
    · exact .inr hk
  · rcases List.mem_append.mp h with hg | hg
    · exact .inr hg
    · exact .inl (List.mem_singleton.mp hg)

theorem mem_foldl_put {files fs : List File} {g : File} (h : g ∈ files.foldl put fs) :
    g ∈ files ∨ g ∈ fs := by
  induction files generalizing fs with
  | nil => exact .inr h
  | cons f files ih =>
    rcases ih h with hg | hg
    · exact .inl (List.mem_cons_of_mem f hg)
    · rcases mem_put hg with rfl | hg
      · exact .inl List.mem_cons_self
      · exact .inr hg

theorem put_of_new {fs : List File} {f : File} (h : f.uri ∉ fs.map File.uri) :
    put fs f = fs ++ [f] := by
  have hn : fs.any (·.uri == f.uri) = false := by
    simpa [List.any_eq_false] using h
  simp [put, hn]

theorem foldl_put_of_nodup {files fs : List File} (h : ((fs ++ files).map File.uri).Nodup) :
    files.foldl put fs = fs ++ files := by
  induction files generalizing fs with
  | nil => simp
  | cons f files ih =>
    have hf : f.uri ∉ fs.map File.uri := by
      rw [List.map_append, List.nodup_append] at h
      exact fun hm => h.2.2 _ hm _ (by simp) rfl
    rw [List.foldl_cons, put_of_new hf, ih (by simpa using h)]
    simp

theorem mem_apply {fs : List File} {c : Mutation} {g : File} (h : g ∈ apply fs c) :
    g ∈ c.files ∨ g ∈ fs := by
  cases c with
  | upsert f =>
    rcases mem_put h with rfl | hg
    · exact .inl List.mem_cons_self
    · exact .inr hg
  | remove uri => exact .inr (List.mem_of_mem_filter h)
  | restore s =>
    simp only [apply] at h
    split at h
    · exact .inl ((mem_foldl_put h).resolve_right List.not_mem_nil)
    · exact absurd h List.not_mem_nil
  | markVerified uri => exact .inr h
  | beginIndexing => exact .inr h
  | markComplete => exact .inr h

theorem mem_run {fs : List File} {cs : List Mutation} {g : File} (h : g ∈ run fs cs) :
    (∃ c ∈ cs, g ∈ c.files) ∨ g ∈ fs := by
  induction cs generalizing fs with
  | nil => exact .inr h
  | cons c cs ih =>
    rcases ih h with ⟨d, hd, hg⟩ | hg
    · exact .inl ⟨d, List.mem_cons_of_mem c hd, hg⟩
    · rcases mem_apply hg with hg | hg
      · exact .inl ⟨c, List.mem_cons_self, hg⟩
      · exact .inr hg

end FileList

end SemanticIndex
