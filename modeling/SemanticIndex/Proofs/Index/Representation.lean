import SemanticIndex.Proofs.Index.Refinement

namespace SemanticIndex
open Std

namespace IndexState

variable {s t : IndexState}

def attachAll (t : IndexState) (slots : List Slot) : IndexState :=
  slots.foldl (fun t slot => t.attach slot.sequence slot.file) t

def rebuilt (s : IndexState) : IndexState :=
  attachAll { s with declarers := ∅, referrers := ∅ } s.stored

theorem Tight.getElem?_eq_some_iff {β : Type} [EmptyCollection β] {m : ExtTreeMap String β}
    (h : Tight m) {name : String} {x : β} : m[name]? = some x ↔ x ≠ ∅ ∧ m[name]?.getD ∅ = x := by
  constructor
  · intro hx
    refine ⟨?_, by rw [hx, Option.getD_some]⟩
    rintro rfl
    exact h name hx
  · rintro ⟨hne, hx⟩
    cases hm : m[name]? with
    | none => exact absurd (by simpa [hm] using hx) hne.symm
    | some y => rw [hm, Option.getD_some] at hx; rw [hx]

theorem Tight.ext {β : Type} [EmptyCollection β] {m m' : ExtTreeMap String β} (h : Tight m)
    (h' : Tight m') (he : ∀ name : String, m[name]?.getD ∅ = m'[name]?.getD ∅) : m = m' := by
  refine ExtTreeMap.ext_getElem? fun {name} => Option.ext fun x => ?_
  rw [h.getElem?_eq_some_iff, h'.getElem?_eq_some_iff, he]

theorem Tight.attach (hd : Tight t.declarers) (hr : Tight t.referrers) (n : Nat) (f : File) :
    Tight (t.attach n f).declarers ∧ Tight (t.attach n f).referrers :=
  ⟨tight_addDeclarers _ _ _ hd, tight_addReferrers _ _ hr⟩

theorem tight_attachAll (slots : List Slot) (hd : Tight t.declarers) (hr : Tight t.referrers) :
    Tight (t.attachAll slots).declarers ∧ Tight (t.attachAll slots).referrers := by
  induction slots generalizing t with
  | nil => exact ⟨hd, hr⟩
  | cons slot slots ih =>
    obtain ⟨hd, hr⟩ := Tight.attach hd hr slot.sequence slot.file
    exact ih hd hr

theorem tight_rebuilt (s : IndexState) :
    Tight s.rebuilt.declarers ∧ Tight s.rebuilt.referrers :=
  tight_attachAll s.stored (fun name => by simp) (fun name => by simp)

theorem frame_attachAll (t : IndexState) (slots : List Slot) :
    (t.attachAll slots).slots = t.slots ∧ (t.attachAll slots).unverified = t.unverified ∧
      (t.attachAll slots).nextSequence = t.nextSequence := by
  induction slots generalizing t with
  | nil => exact ⟨rfl, rfl, rfl⟩
  | cons slot slots ih => exact ih (t.attach slot.sequence slot.file)

-- No two files have one number, so no entry of a file replaces that of another.
theorem getElem?_attachAll {slots : List Slot}
    (hne : slots.Pairwise fun a b => a.sequence ≠ b.sequence) (fqn : String)
    (hfree : ∀ slot ∈ slots, (declarersOf t.declarers fqn)[slot.sequence]? = none) (n : Nat)
    (uri : String) :
    (declarersOf (t.attachAll slots).declarers fqn)[n]? = some uri ↔
      (∃ slot ∈ slots, fqn ∈ declaredNames slot.file ∧ slot.sequence = n ∧ slot.file.uri = uri) ∨
        (declarersOf t.declarers fqn)[n]? = some uri := by
  induction slots generalizing t with
  | nil => simp [attachAll]
  | cons slot slots ih =>
    obtain ⟨hslot, hne⟩ := List.pairwise_cons.mp hne
    have hentry (k : Nat) :
        (declarersOf (t.attach slot.sequence slot.file).declarers fqn)[k]? =
          if fqn ∈ declaredNames slot.file ∧ k = slot.sequence then some slot.file.uri
          else (declarersOf t.declarers fqn)[k]? :=
      getElem?_addDeclarers _ _ _ _ _ k
    rw [attachAll, List.foldl_cons, ← attachAll, ih hne]
    · rw [hentry]
      split
      · next hc =>
        obtain ⟨hmem, rfl⟩ := hc
        simp [hmem, hfree slot List.mem_cons_self, or_comm]
      · next hc =>
        have hno (h : fqn ∈ declaredNames slot.file ∧ slot.sequence = n ∧ slot.file.uri = uri) :
            False := hc ⟨h.1, h.2.1.symm⟩
        simp only [List.exists_mem_cons_iff, iff_false_intro hno, false_or]
    · intro other hother
      rw [hentry, if_neg fun hc => hslot other hother hc.2.symm]
      exact hfree other (List.mem_cons_of_mem slot hother)

theorem mem_attachAll (t : IndexState) (slots : List Slot) (name uri : String) :
    uri ∈ referrersOf (t.attachAll slots).referrers name ↔
      (∃ slot ∈ slots, name ∈ referredNames slot.file ∧ uri = slot.file.uri) ∨
        uri ∈ referrersOf t.referrers name := by
  induction slots generalizing t with
  | nil => simp [attachAll]
  | cons slot slots ih =>
    have hentry : uri ∈ referrersOf (t.attach slot.sequence slot.file).referrers name ↔
        (name ∈ referredNames slot.file ∧ uri = slot.file.uri) ∨
          uri ∈ referrersOf t.referrers name :=
      mem_addReferrers _ _ _ _ _
    rw [attachAll, List.foldl_cons, ← attachAll, ih, hentry, List.exists_mem_cons_iff, or_left_comm,
      or_assoc]

theorem mem_referredNames {f : File} {name : String} :
    name ∈ referredNames f ↔ ∃ r ∈ f.references, r.fqn = name ∨ r.fallback = some name := by
  simp [referredNames, Reference.names, eq_comm]

namespace Consistent

theorem declarers_rebuilt (h : Consistent s) : s.rebuilt.declarers = s.declarers := by
  have hd := (tight_rebuilt s).1
  refine hd.ext h.declarers_tight fun fqn => ?_
  refine ExtTreeMap.ext_getElem? fun {n} => Option.ext fun uri => ?_
  refine (getElem?_attachAll h.pairwise_sequence_ne fqn (by simp [declarersOf]) n uri).trans ?_
  refine Iff.trans ?_ (h.declarers_iff fqn n uri).symm
  simp only [h.mem_stored, declarersOf, ExtTreeMap.getElem?_empty, Option.getD_none, reduceCtorEq,
    or_false]
  constructor
  · rintro ⟨slot, hs, hmem, rfl, rfl⟩
    exact ⟨slot, hs, rfl, hmem⟩
  · rintro ⟨slot, hs, rfl, hmem⟩
    have huri := h.keyed hs
    exact ⟨slot, huri ▸ hs, hmem, rfl, huri⟩

theorem referrers_rebuilt (h : Consistent s) : s.rebuilt.referrers = s.referrers := by
  have hr := (tight_rebuilt s).2
  refine hr.ext h.referrers_tight fun name => ?_
  refine ExtTreeSet.ext_mem fun uri => ?_
  refine (mem_attachAll _ s.stored name uri).trans ?_
  refine Iff.trans ?_ (h.referrers_iff name uri).symm
  simp only [h.mem_stored, referrersOf, ExtTreeMap.getElem?_empty, Option.getD_none,
    ExtTreeSet.not_mem_empty, or_false]
  constructor
  · rintro ⟨slot, hs, hmem, rfl⟩
    exact ⟨slot, hs, hmem⟩
  · rintro ⟨slot, hs, hmem⟩
    have huri := h.keyed hs
    exact ⟨slot, huri ▸ hs, hmem, huri.symm⟩

theorem rebuilt_eq (h : Consistent s) : s.rebuilt = s := by
  obtain ⟨hslots, hunverified, hnext⟩ :=
    frame_attachAll { s with declarers := ∅, referrers := ∅ } s.stored
  calc s.rebuilt
      = ⟨s.rebuilt.slots, s.rebuilt.declarers, s.rebuilt.referrers, s.rebuilt.unverified,
          s.rebuilt.nextSequence⟩ := rfl
    _ = ⟨s.slots, s.declarers, s.referrers, s.unverified, s.nextSequence⟩ := by
        rw [h.declarers_rebuilt, h.referrers_rebuilt, rebuilt, hslots, hunverified, hnext]

theorem getElem?_declarers (h : Consistent s) (fqn : String) (ds : ExtTreeMap Nat String) :
    s.declarers[fqn]? = some ds ↔
      ds ≠ ∅ ∧ ∀ (n : Nat) (uri : String), ds[n]? = some uri ↔
        ∃ slot : Slot, s.slots[uri]? = some slot ∧ slot.sequence = n ∧
          ∃ d ∈ slot.file.definitions, d.fqn = fqn := by
  rw [h.declarers_tight.getElem?_eq_some_iff]
  refine and_congr_right fun _ => ?_
  have hentries (n : Nat) (uri : String) := h.declarers_iff fqn n uri
  simp only [declaredNames, List.mem_map] at hentries
  constructor
  · rintro rfl
    exact hentries
  · intro hds
    refine ExtTreeMap.ext_getElem? fun {n} => Option.ext fun uri => ?_
    exact (hentries n uri).trans (hds n uri).symm

theorem getElem?_referrers (h : Consistent s) (name : String) (us : ExtTreeSet String) :
    s.referrers[name]? = some us ↔
      us ≠ ∅ ∧ ∀ uri : String, uri ∈ us ↔
        ∃ slot : Slot, s.slots[uri]? = some slot ∧
          ∃ r ∈ slot.file.references, r.fqn = name ∨ r.fallback = some name := by
  rw [h.referrers_tight.getElem?_eq_some_iff]
  refine and_congr_right fun _ => ?_
  have hentries (uri : String) := h.referrers_iff name uri
  simp only [mem_referredNames] at hentries
  constructor
  · rintro rfl
    exact hentries
  · intro hus
    refine ExtTreeSet.ext_mem fun uri => ?_
    exact (hentries uri).trans (hus uri).symm

end Consistent

end IndexState

namespace Repository

theorem tables_mirror_stored_files (ms : List Mutation) :
    let s := (empty.run ms).state
    (∀ (uri : String) (slot : Slot), s.slots[uri]? = some slot →
        slot.file.uri = uri ∧ slot.sequence < s.nextSequence) ∧
      (∀ (u v : String) (a b : Slot), s.slots[u]? = some a → s.slots[v]? = some b →
        a.sequence = b.sequence → u = v) ∧
      (∀ (fqn : String) (ds : ExtTreeMap Nat String), s.declarers[fqn]? = some ds ↔
        ds ≠ ∅ ∧ ∀ (n : Nat) (uri : String), ds[n]? = some uri ↔
          ∃ slot : Slot, s.slots[uri]? = some slot ∧ slot.sequence = n ∧
            ∃ d ∈ slot.file.definitions, d.fqn = fqn) ∧
      (∀ (name : String) (us : ExtTreeSet String), s.referrers[name]? = some us ↔
        us ≠ ∅ ∧ ∀ uri : String, uri ∈ us ↔
          ∃ slot : Slot, s.slots[uri]? = some slot ∧
            ∃ r ∈ slot.file.references, r.fqn = name ∨ r.fallback = some name) ∧
      (∀ uri ∈ s.unverified, s.contains uri = true) ∧
      s.rebuilt = s := by
  intro s
  have h : s.Consistent := consistent_run_empty ms
  exact ⟨fun uri slot hs => ⟨h.keyed hs, h.sequence_lt hs⟩,
    fun u v a b ha hb => h.sequence_inj ha hb, h.getElem?_declarers, h.getElem?_referrers,
    h.unverified_stored, h.rebuilt_eq⟩

end Repository

end SemanticIndex
