import SemanticIndex.Index.State

namespace SemanticIndex
open Std

namespace IndexState

def Tight {β : Type} [EmptyCollection β] (m : ExtTreeMap String β) : Prop :=
  ∀ name : String, m[name]? ≠ some ∅

theorem tight_alter {β : Type} [EmptyCollection β] {m : ExtTreeMap String β} (h : Tight m)
    {name : String} {g : Option β → Option β} (hg : g m[name]? ≠ some ∅) :
    Tight (m.alter name g) := by
  intro other
  rw [ExtTreeMap.getElem?_alter]
  split
  · exact hg
  · exact h other

theorem tight_foldl {β : Type} [EmptyCollection β]
    {step : ExtTreeMap String β → String → ExtTreeMap String β}
    (hstep : ∀ m name, Tight m → Tight (step m name)) (names : List String)
    {m : ExtTreeMap String β} (h : Tight m) : Tight (names.foldl step m) := by
  induction names generalizing m with
  | nil => exact h
  | cons name names ih => exact ih (hstep m name h)

def declarersOf (m : ExtTreeMap String (ExtTreeMap Nat String)) (fqn : String) :
    ExtTreeMap Nat String :=
  m[fqn]?.getD ∅

def referrersOf (m : ExtTreeMap String (ExtTreeSet String)) (name : String) : ExtTreeSet String :=
  m[name]?.getD ∅

theorem declarersOf_addDeclarer (m : ExtTreeMap String (ExtTreeMap Nat String)) (n : Nat)
    (uri fqn other : String) :
    declarersOf (addDeclarer n uri m fqn) other =
      if fqn = other then (declarersOf m other).insert n uri else declarersOf m other := by
  simp only [declarersOf, addDeclarer, ExtTreeMap.getElem?_alter, LawfulEqCmp.compare_eq_iff_eq]
  split
  · next h => subst h; rfl
  · rfl

theorem getElem?_addDeclarers (names : List String) (m : ExtTreeMap String (ExtTreeMap Nat String))
    (n : Nat) (uri fqn : String) (k : Nat) :
    (declarersOf (names.foldl (addDeclarer n uri) m) fqn)[k]? =
      if fqn ∈ names ∧ k = n then some uri else (declarersOf m fqn)[k]? := by
  induction names generalizing m with
  | nil => simp
  | cons name names ih =>
    rw [List.foldl_cons, ih, declarersOf_addDeclarer]
    by_cases hn : name = fqn
    · subst hn
      simp only [if_true, ExtTreeMap.getElem?_insert, LawfulEqCmp.compare_eq_iff_eq,
        List.mem_cons, true_or, true_and, eq_comm (a := n)]
      by_cases hk : k = n <;> simp [hk]
    · simp [hn, Ne.symm hn]

theorem declarersOf_dropDeclarer (m : ExtTreeMap String (ExtTreeMap Nat String))
    (uri fqn other : String) :
    declarersOf (dropDeclarer uri m fqn) other =
      if fqn = other then (declarersOf m other).filter fun _ u => u != uri
      else declarersOf m other := by
  simp only [declarersOf, dropDeclarer, ExtTreeMap.getElem?_alter, LawfulEqCmp.compare_eq_iff_eq]
  split
  · next h =>
    subst h
    cases hm : m[fqn]? with
    | none => apply ExtTreeMap.ext_getElem?; simp
    | some ds =>
      simp only [Option.map_some, Option.filter_some, Option.getD_some]
      by_cases he : (ds.filter fun _ u => u != uri).isEmpty
      · simp [ExtTreeMap.isEmpty_iff.mp he]
      · simp [he]
  · rfl

theorem getElem?_dropDeclarers (names : List String) (m : ExtTreeMap String (ExtTreeMap Nat String))
    (uri fqn : String) (k : Nat) :
    (declarersOf (names.foldl (dropDeclarer uri) m) fqn)[k]? =
      if fqn ∈ names then (declarersOf m fqn)[k]?.filter (· != uri)
      else (declarersOf m fqn)[k]? := by
  induction names generalizing m with
  | nil => simp
  | cons name names ih =>
    rw [List.foldl_cons, ih, declarersOf_dropDeclarer]
    by_cases hn : name = fqn
    · subst hn
      simp [Option.filter_filter]
    · simp [hn, Ne.symm hn]

theorem referrersOf_addReferrer (m : ExtTreeMap String (ExtTreeSet String))
    (uri name other : String) :
    referrersOf (addReferrer uri m name) other =
      if name = other then (referrersOf m other).insert uri else referrersOf m other := by
  simp only [referrersOf, addReferrer, ExtTreeMap.getElem?_alter, LawfulEqCmp.compare_eq_iff_eq]
  split
  · next h => subst h; rfl
  · rfl

theorem mem_addReferrers (names : List String) (m : ExtTreeMap String (ExtTreeSet String))
    (uri name u : String) :
    u ∈ referrersOf (names.foldl (addReferrer uri) m) name ↔
      (name ∈ names ∧ u = uri) ∨ u ∈ referrersOf m name := by
  induction names generalizing m with
  | nil => simp
  | cons other names ih =>
    rw [List.foldl_cons, ih, referrersOf_addReferrer]
    by_cases hn : other = name
    · subst hn
      simp only [if_true, ExtTreeSet.mem_insert, LawfulEqCmp.compare_eq_iff_eq, List.mem_cons]
      grind
    · simp [hn, Ne.symm hn]

theorem referrersOf_dropReferrer (m : ExtTreeMap String (ExtTreeSet String))
    (uri name other : String) :
    referrersOf (dropReferrer uri m name) other =
      if name = other then (referrersOf m other).erase uri else referrersOf m other := by
  simp only [referrersOf, dropReferrer, ExtTreeMap.getElem?_alter, LawfulEqCmp.compare_eq_iff_eq]
  split
  · next h =>
    subst h
    cases hm : m[name]? with
    | none => apply ExtTreeSet.ext_mem; simp
    | some us =>
      simp only [Option.map_some, Option.filter_some, Option.getD_some]
      by_cases he : (us.erase uri).isEmpty
      · simp [ExtTreeSet.isEmpty_iff.mp he]
      · simp [he]
  · rfl

theorem mem_dropReferrers (names : List String) (m : ExtTreeMap String (ExtTreeSet String))
    (uri name u : String) :
    u ∈ referrersOf (names.foldl (dropReferrer uri) m) name ↔
      u ∈ referrersOf m name ∧ ¬(name ∈ names ∧ u = uri) := by
  induction names generalizing m with
  | nil => simp
  | cons other names ih =>
    rw [List.foldl_cons, ih, referrersOf_dropReferrer]
    by_cases hn : other = name
    · subst hn
      simp only [if_true, ExtTreeSet.mem_erase, List.mem_cons]
      grind
    · simp [hn, Ne.symm hn]

theorem tight_addDeclarers (n : Nat) (uri : String) (names : List String)
    {m : ExtTreeMap String (ExtTreeMap Nat String)} (h : Tight m) :
    Tight (names.foldl (addDeclarer n uri) m) := by
  refine tight_foldl (fun m fqn hm => tight_alter hm ?_) names h
  simp [ExtTreeMap.insert_ne_empty]

theorem tight_dropDeclarers (uri : String) (names : List String)
    {m : ExtTreeMap String (ExtTreeMap Nat String)} (h : Tight m) :
    Tight (names.foldl (dropDeclarer uri) m) := by
  refine tight_foldl (fun m fqn hm => tight_alter hm ?_) names h
  simp [Option.filter_eq_some_iff]

theorem tight_addReferrers (uri : String) (names : List String)
    {m : ExtTreeMap String (ExtTreeSet String)} (h : Tight m) :
    Tight (names.foldl (addReferrer uri) m) := by
  refine tight_foldl (fun m name hm => tight_alter hm ?_) names h
  simp [ExtTreeSet.insert_ne_empty]

theorem tight_dropReferrers (uri : String) (names : List String)
    {m : ExtTreeMap String (ExtTreeSet String)} (h : Tight m) :
    Tight (names.foldl (dropReferrer uri) m) := by
  refine tight_foldl (fun m name hm => tight_alter hm ?_) names h
  simp [Option.filter_eq_some_iff]

end IndexState
end SemanticIndex
