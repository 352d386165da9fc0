import SemanticIndex.Proofs.Index.Tables

namespace SemanticIndex
open Std

namespace IndexState

structure Consistent (s : IndexState) : Prop where
  keyed : ∀ {uri : String} {slot : Slot}, s.slots[uri]? = some slot → slot.file.uri = uri
  sequence_lt : ∀ {uri : String} {slot : Slot},
    s.slots[uri]? = some slot → slot.sequence < s.nextSequence
  sequence_inj : ∀ {u v : String} {a b : Slot}, s.slots[u]? = some a → s.slots[v]? = some b →
    a.sequence = b.sequence → u = v
  declarers_iff : ∀ (fqn : String) (n : Nat) (uri : String),
    (declarersOf s.declarers fqn)[n]? = some uri ↔
      ∃ slot, s.slots[uri]? = some slot ∧ slot.sequence = n ∧ fqn ∈ declaredNames slot.file
  declarers_tight : Tight s.declarers
  referrers_iff : ∀ name uri : String, uri ∈ referrersOf s.referrers name ↔
    ∃ slot, s.slots[uri]? = some slot ∧ name ∈ referredNames slot.file
  referrers_tight : Tight s.referrers
  unverified_stored : ∀ uri ∈ s.unverified, s.contains uri = true

variable {s : IndexState}

theorem file?_eq_some_iff {uri : String} {f : File} :
    s.file? uri = some f ↔ ∃ n, s.slots[uri]? = some ⟨n, f⟩ := by
  simp only [file?, Option.map_eq_some_iff]
  constructor
  · rintro ⟨slot, hs, rfl⟩
    exact ⟨slot.sequence, hs⟩
  · rintro ⟨n, hs⟩
    exact ⟨⟨n, f⟩, hs, rfl⟩

theorem file?_eq_none_iff {uri : String} : s.file? uri = none ↔ s.slots[uri]? = none := by
  simp [file?]

theorem Consistent.uri_of_file? (h : Consistent s) {uri : String} {f : File}
    (hf : s.file? uri = some f) : f.uri = uri := by
  obtain ⟨n, hs⟩ := file?_eq_some_iff.mp hf
  exact h.keyed hs

theorem consistent_empty : Consistent empty where
  keyed h := by simp [empty] at h
  sequence_lt h := by simp [empty] at h
  sequence_inj h := by simp [empty] at h
  declarers_iff fqn n uri := by simp [empty, declarersOf]
  declarers_tight name := by simp [empty]
  referrers_iff name uri := by simp [empty, referrersOf]
  referrers_tight name := by simp [empty]
  unverified_stored uri h := by simp [empty] at h

theorem slots_replace (s : IndexState) (f : File) (uri : String) :
    (s.replace f).slots[uri]? =
      if f.uri = uri then some ⟨s.sequenceFor f.uri, f⟩ else s.slots[uri]? := by
  simp only [replace, ExtTreeMap.getElem?_insert, LawfulEqCmp.compare_eq_iff_eq]

theorem slots_remove (s : IndexState) (uri u : String) :
    (s.remove uri).slots[u]? = if uri = u then none else s.slots[u]? := by
  unfold remove
  cases hf : s.file? uri with
  | none =>
    by_cases hu : uri = u
    · subst hu
      simpa using file?_eq_none_iff.mp hf
    · simp [hu]
  | some old => simp only [ExtTreeMap.getElem?_erase, LawfulEqCmp.compare_eq_iff_eq]

theorem Consistent.detach_declarers (h : Consistent s) {uri : String} {old : File}
    (hf : s.file? uri = some old) (fqn : String) (n : Nat) (u : String) :
    (declarersOf (s.detach uri old).declarers fqn)[n]? = some u ↔
      (declarersOf s.declarers fqn)[n]? = some u ∧ u ≠ uri := by
  obtain ⟨m, hs⟩ := file?_eq_some_iff.mp hf
  simp only [detach, getElem?_dropDeclarers]
  split
  · simp [Option.filter_eq_some_iff]
  · next hn =>
    refine ⟨fun hd => ⟨hd, ?_⟩, And.left⟩
    rintro rfl
    obtain ⟨slot, hslot, -, hmem⟩ := (h.declarers_iff _ _ _).mp hd
    rw [hs] at hslot
    cases hslot
    exact hn hmem

theorem Consistent.detach_referrers (h : Consistent s) {uri : String} {old : File}
    (hf : s.file? uri = some old) (name u : String) :
    u ∈ referrersOf (s.detach uri old).referrers name ↔
      u ∈ referrersOf s.referrers name ∧ u ≠ uri := by
  obtain ⟨m, hs⟩ := file?_eq_some_iff.mp hf
  simp only [detach, mem_dropReferrers]
  refine and_congr_right fun hu => ?_
  constructor
  · rintro hn rfl
    obtain ⟨slot, hslot, hmem⟩ := (h.referrers_iff _ _).mp hu
    rw [hs] at hslot
    cases hslot
    exact hn ⟨hmem, rfl⟩
  · rintro hne ⟨-, he⟩
    exact hne he

theorem Consistent.uri_stored_of_declarer (h : Consistent s) {fqn : String} {n : Nat}
    {uri : String} (hd : (declarersOf s.declarers fqn)[n]? = some uri) :
    s.slots[uri]? ≠ none := by
  obtain ⟨slot, hs, -⟩ := (h.declarers_iff _ _ _).mp hd
  simp [hs]

theorem Consistent.uri_stored_of_referrer (h : Consistent s) {name uri : String}
    (hu : uri ∈ referrersOf s.referrers name) : s.slots[uri]? ≠ none := by
  obtain ⟨slot, hs, -⟩ := (h.referrers_iff _ _).mp hu
  simp [hs]

theorem sequenceFor_eq (h : Consistent s) {uri : String} {slot : Slot}
    (hs : s.slots[uri]? = some slot) {u : String} (he : slot.sequence = s.sequenceFor u) :
    uri = u := by
  unfold sequenceFor at he
  split at he
  · next other ho => exact h.sequence_inj hs ho he
  · have := h.sequence_lt hs
    omega

theorem sequenceFor_lt_replace (h : Consistent s) (f : File) :
    s.sequenceFor f.uri < (s.replace f).nextSequence := by
  simp only [replace, sequenceFor, file?]
  split
  · next slot hs => simpa [hs] using h.sequence_lt hs
  · next hs => simp [hs]

theorem nextSequence_le_replace (s : IndexState) (f : File) :
    s.nextSequence ≤ (s.replace f).nextSequence := by
  simp only [replace]
  split <;> omega

theorem Consistent.replace_declarers (h : Consistent s) (f : File) (fqn : String) (n : Nat)
    (u : String) :
    (declarersOf (s.replace f).declarers fqn)[n]? = some u ↔
      (fqn ∈ declaredNames f ∧ n = s.sequenceFor f.uri ∧ u = f.uri) ∨
        ((declarersOf s.declarers fqn)[n]? = some u ∧ u ≠ f.uri) := by
  have hclear : ∀ t : IndexState,
      (∀ (fqn : String) (n : Nat) (u : String), (declarersOf t.declarers fqn)[n]? = some u ↔
        (declarersOf s.declarers fqn)[n]? = some u ∧ u ≠ f.uri) →
      ((declarersOf (t.attach (s.sequenceFor f.uri) f).declarers fqn)[n]? = some u ↔
        (fqn ∈ declaredNames f ∧ n = s.sequenceFor f.uri ∧ u = f.uri) ∨
          ((declarersOf s.declarers fqn)[n]? = some u ∧ u ≠ f.uri)) := by
    intro t ht
    simp only [attach, getElem?_addDeclarers]
    split
    · next hc =>
      obtain ⟨hmem, rfl⟩ := hc
      refine ⟨fun he => .inl ⟨hmem, rfl, by simpa using he.symm⟩, ?_⟩
      rintro (⟨-, -, rfl⟩ | ⟨hd, hne⟩)
      · rfl
      · obtain ⟨slot, hs, hq, -⟩ := (h.declarers_iff _ _ _).mp hd
        exact absurd (sequenceFor_eq h hs hq) hne
    · next hc =>
      rw [ht]
      exact ⟨.inr, fun ho => ho.resolve_left fun ⟨hm, hn, _⟩ => hc ⟨hm, hn⟩⟩
  unfold replace
  cases hf : s.file? f.uri with
  | some old => exact hclear _ (h.detach_declarers hf)
  | none =>
    refine hclear _ fun fqn n u => ⟨fun hd => ⟨hd, ?_⟩, And.left⟩
    rintro rfl
    exact h.uri_stored_of_declarer hd (file?_eq_none_iff.mp hf)

theorem Consistent.replace_referrers (h : Consistent s) (f : File) (name u : String) :
    u ∈ referrersOf (s.replace f).referrers name ↔
      (name ∈ referredNames f ∧ u = f.uri) ∨
        (u ∈ referrersOf s.referrers name ∧ u ≠ f.uri) := by
  unfold replace
  cases hf : s.file? f.uri with
  | some old => simp only [attach, mem_addReferrers, h.detach_referrers hf]
  | none =>
    simp only [attach, mem_addReferrers]
    refine or_congr_right ⟨fun hu => ⟨hu, ?_⟩, And.left⟩
    rintro rfl
    exact h.uri_stored_of_referrer hu (file?_eq_none_iff.mp hf)

theorem Consistent.tight_replace (h : Consistent s) (f : File) :
    Tight (s.replace f).declarers ∧ Tight (s.replace f).referrers := by
  unfold replace
  cases hf : s.file? f.uri with
  | some old =>
    exact ⟨tight_addDeclarers _ _ _ (tight_dropDeclarers _ _ h.declarers_tight),
      tight_addReferrers _ _ (tight_dropReferrers _ _ h.referrers_tight)⟩
  | none =>
    exact ⟨tight_addDeclarers _ _ _ h.declarers_tight, tight_addReferrers _ _ h.referrers_tight⟩

theorem Consistent.replace (h : Consistent s) (f : File) : Consistent (s.replace f) where
  keyed {uri slot} hs := by
    rw [slots_replace] at hs
    split at hs
    · next he => cases hs; exact he
    · exact h.keyed hs
  sequence_lt {uri slot} hs := by
    rw [slots_replace] at hs
    split at hs
    · cases hs; exact sequenceFor_lt_replace h f
    · exact Nat.lt_of_lt_of_le (h.sequence_lt hs) (nextSequence_le_replace s f)
  sequence_inj {u v a b} ha hb he := by
    rw [slots_replace] at ha hb
    split at ha <;> split at hb
    · next hu hv => exact hu.symm.trans hv
    · next hu hv => cases ha; exact hu ▸ (sequenceFor_eq h hb he.symm).symm
    · next hu hv => cases hb; exact hv ▸ sequenceFor_eq h ha he
    · exact h.sequence_inj ha hb he
  declarers_iff fqn n uri := by
    rw [h.replace_declarers, slots_replace, h.declarers_iff]
    by_cases hu : f.uri = uri
    · subst hu
      simp only [if_true, Option.some.injEq, exists_eq_left', ne_eq, not_true_eq_false, and_false,
        or_false, and_true, eq_comm (a := n)]
      exact and_comm
    · simp [hu, Ne.symm hu]
  declarers_tight := (h.tight_replace f).1
  referrers_iff name uri := by
    rw [h.replace_referrers, slots_replace, h.referrers_iff]
    by_cases hu : f.uri = uri
    · subst hu
      simp
    · simp [hu, Ne.symm hu]
  referrers_tight := (h.tight_replace f).2
  unverified_stored uri hu := by
    have hm : uri ∈ s.unverified.erase f.uri := hu
    have ho := h.unverified_stored uri (ExtTreeSet.mem_of_mem_erase hm)
    simp only [contains, slots_replace] at ho ⊢
    split
    · rfl
    · exact ho

theorem Consistent.remove (h : Consistent s) (uri : String) : Consistent (s.remove uri) := by
  cases hf : s.file? uri with
  | none =>
    have he : s.remove uri = s := by simp [IndexState.remove, hf]
    rwa [he]
  | some old =>
    have hd : (s.remove uri).declarers = (s.detach uri old).declarers := by
      simp [IndexState.remove, hf]
    have hr : (s.remove uri).referrers = (s.detach uri old).referrers := by
      simp [IndexState.remove, hf]
    have hu : (s.remove uri).unverified = s.unverified.erase uri := by
      simp [IndexState.remove, hf]
    have hn : (s.remove uri).nextSequence = s.nextSequence := by
      simp [IndexState.remove, hf, detach]
    have stays {u : String} {slot : Slot} (hs : (s.remove uri).slots[u]? = some slot) :
        s.slots[u]? = some slot := by
      rw [slots_remove] at hs
      split at hs
      · cases hs
      · exact hs
    refine
      { keyed := fun hs => h.keyed (stays hs)
        sequence_lt := fun hs => hn ▸ h.sequence_lt (stays hs)
        sequence_inj := fun ha hb => h.sequence_inj (stays ha) (stays hb)
        declarers_iff := fun fqn n u => ?_
        declarers_tight := hd ▸ tight_dropDeclarers _ _ h.declarers_tight
        referrers_iff := fun name u => ?_
        referrers_tight := hr ▸ tight_dropReferrers _ _ h.referrers_tight
        unverified_stored := fun u hm => ?_ }
    · rw [hd, h.detach_declarers hf, h.declarers_iff, slots_remove]
      by_cases he : uri = u
      · simp [he]
      · simp [he, Ne.symm he]
    · rw [hr, h.detach_referrers hf, h.referrers_iff, slots_remove]
      by_cases he : uri = u
      · simp [he]
      · simp [he, Ne.symm he]
    · rw [hu, ExtTreeSet.mem_erase, ne_eq, LawfulEqCmp.compare_eq_iff_eq] at hm
      have ho := h.unverified_stored u hm.2
      simp only [contains, slots_remove, hm.1, if_false] at ho ⊢
      exact ho

theorem Consistent.markVerified (h : Consistent s) (uri : String) :
    Consistent (s.markVerified uri) :=
  { h with unverified_stored := fun u hu => h.unverified_stored u (ExtTreeSet.mem_of_mem_erase hu) }

theorem Consistent.restoreFile (h : Consistent s) (f : File) : Consistent (s.restoreFile f) := by
  have hr := h.replace f
  refine { hr with unverified_stored := fun u hu => ?_ }
  have hm : u ∈ (s.replace f).unverified.insert f.uri := hu
  rw [ExtTreeSet.mem_insert, LawfulEqCmp.compare_eq_iff_eq] at hm
  rcases hm with rfl | hm
  · show ((s.replace f).slots[f.uri]?).isSome = true
    simp [slots_replace]
  · exact hr.unverified_stored u hm

theorem consistent_ofFiles (files : List File) : Consistent (ofFiles files) := by
  have hfold {t : IndexState} (ht : Consistent t) : Consistent (files.foldl restoreFile t) := by
    induction files generalizing t with
    | nil => exact ht
    | cons f files ih => exact ih (ht.restoreFile f)
  exact hfold consistent_empty

end IndexState
end SemanticIndex
