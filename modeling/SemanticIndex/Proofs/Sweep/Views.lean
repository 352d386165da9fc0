import SemanticIndex.Proofs.Index.Consistency
import SemanticIndex.Proofs.Index.FileList
import SemanticIndex.Sync.Sweep

namespace SemanticIndex

open Std

namespace IndexState

def view (s : IndexState) (uri : String) : Option File × Bool := (s.file? uri, s.isVerified uri)

theorem view_replace (s : IndexState) (f : File) (uri : String) :
    (s.replace f).view uri = if f.uri = uri then (some f, true) else s.view uri := by
  have hfile : (s.replace f).file? uri = if f.uri = uri then some f else s.file? uri := by
    rw [file?, slots_replace]
    split <;> rfl
  have hunverified : (s.replace f).unverified = s.unverified.erase f.uri := rfl
  simp only [view, hfile, isVerified, hunverified, ExtTreeSet.contains_erase]
  by_cases h : f.uri = uri
  · simp [h]
  · simp [h]

theorem view_markVerified (s : IndexState) (uri u : String) :
    (s.markVerified uri).view u = if uri = u then (s.file? u, true) else s.view u := by
  have hfile : (s.markVerified uri).file? u = s.file? u := rfl
  have hunverified : (s.markVerified uri).unverified = s.unverified.erase uri := rfl
  simp only [view, hfile, isVerified, hunverified, ExtTreeSet.contains_erase]
  by_cases h : uri = u
  · simp [h]
  · simp [h]

theorem file?_remove_self (s : IndexState) (uri : String) : (s.remove uri).file? uri = none := by
  rw [file?_eq_none_iff, slots_remove, if_pos rfl]

theorem view_remove (s : IndexState) {uri u : String} (h : uri ≠ u) :
    (s.remove uri).view u = s.view u := by
  have hfile : (s.remove uri).file? u = s.file? u := by rw [file?, slots_remove, if_neg h]; rfl
  have hverified : (s.remove uri).isVerified u = s.isVerified u := by
    unfold remove
    split
    · rfl
    · simp [isVerified, ExtTreeSet.contains_erase, h]
  rw [view, hfile, hverified, view]

theorem contains_eq (s : IndexState) (uri : String) : s.contains uri = (s.file? uri).isSome := by
  simp [contains, file?]

theorem nodup_uris (s : IndexState) : s.uris.Nodup := by
  refine List.pairwise_map.mpr (ExtTreeMap.distinct_keys_toList.imp fun h he => ?_)
  exact h (LawfulEqCmp.compare_eq_iff_eq.mpr he)

theorem mem_uris {s : IndexState} {uri : String} : uri ∈ s.uris ↔ (s.file? uri).isSome = true := by
  rw [uris, List.mem_map, file?, Option.isSome_map, Option.isSome_iff_exists]
  constructor
  · rintro ⟨⟨u, slot⟩, hm, rfl⟩
    exact ⟨slot, ExtTreeMap.mem_toList_iff_getElem?_eq_some.mp hm⟩
  · rintro ⟨slot, hs⟩
    exact ⟨(uri, slot), ExtTreeMap.mem_toList_iff_getElem?_eq_some.mpr hs, rfl⟩

end IndexState

inductive Edit where
  | put (uri : String) (version : Int) (text : String)
  | update (uri : String) (version : Int) (text : String)
  | close (uri : String)
  | parse (uri : String)
  deriving DecidableEq, Repr

namespace Documents

variable {ε : Type} {services : Services ε} {d : Documents}

def edit (services : Services ε) (d : Documents) : Edit → Documents
  | .put uri version text => d.put uri version text
  | .update uri version text => d.update uri version text
  | .close uri => d.close uri
  | .parse uri => (d.tree? uri (services.parse uri)).2

def text? (d : Documents) (uri : String) : Option String := (d.get? uri).map Document.text

def Faithful (services : Services ε) (d : Documents) : Prop :=
  ∀ uri stored tree, d.get? uri = some stored → stored.tree = some tree →
    services.parse uri stored.text = .ok tree

theorem isOpen_eq (d : Documents) (uri : String) : d.isOpen uri = (d.text? uri).isSome := by
  simp [isOpen, text?]

theorem get?_keepTree (d : Documents) (uri other : String) (stored : Document) (tree : Tree) :
    (d.keepTree uri stored tree).get? other =
      if uri = other then some { stored with tree := some tree } else d.get? other := by
  simp [keepTree, get?, ExtTreeMap.getElem?_insert]

theorem text?_keepTree {uri : String} {stored : Document} (h : d.get? uri = some stored)
    (tree : Tree) (u : String) : (d.keepTree uri stored tree).text? u = d.text? u := by
  rw [text?, get?_keepTree, text?]
  split
  · next hu => rw [← hu, h]; rfl
  · rfl

theorem Faithful.keepTree (hf : Faithful services d) {uri : String} {stored : Document}
    {tree : Tree} (hp : services.parse uri stored.text = .ok tree) :
    Faithful services (d.keepTree uri stored tree) := by
  intro u doc t hget htree
  rw [get?_keepTree] at hget
  split at hget
  · next hu =>
    cases hget
    cases htree
    exact hu ▸ hp
  · exact hf u doc t hget htree

theorem tree_eq (hf : Faithful services d) {uri : String} {stored : Document} {tree : Tree}
    (hget : d.get? uri = some stored) (hp : services.parse uri stored.text = .ok tree) :
    ∃ d', d.tree uri stored (services.parse uri) = (.ok tree, d') ∧ Faithful services d' ∧
      ∀ u, d'.text? u = d.text? u := by
  unfold Documents.tree
  cases ht : stored.tree with
  | some kept =>
    have hkept := hf uri stored kept hget ht
    rw [hp] at hkept
    cases hkept
    exact ⟨d, rfl, hf, fun u => rfl⟩
  | none =>
    exact ⟨d.keepTree uri stored tree, by simp [hp], hf.keepTree hp, text?_keepTree hget tree⟩

theorem Faithful.put (hf : Faithful services d) (uri : String) (version : Int) (text : String) :
    Faithful services (d.put uri version text) := by
  intro u doc t hget htree
  rw [get?_put] at hget
  split at hget
  · cases hget
    cases htree
  · exact hf u doc t hget htree

theorem Faithful.close (hf : Faithful services d) (uri : String) :
    Faithful services (d.close uri) := by
  intro u doc t hget htree
  rw [get?_close] at hget
  split at hget
  · cases hget
  · exact hf u doc t hget htree

theorem Faithful.update (hf : Faithful services d) (uri : String) (version : Int) (text : String) :
    Faithful services (d.update uri version text) := by
  unfold Documents.update
  split
  · exact hf.put uri version text
  · exact hf

theorem Faithful.tree? (hf : Faithful services d) (uri : String) :
    Faithful services (d.tree? uri (services.parse uri)).2 := by
  cases hget : d.get? uri with
  | none => simpa [Documents.tree?, hget] using hf
  | some stored =>
    cases ht : stored.tree with
    | some tree => simpa [Documents.tree?, Documents.tree, hget, ht] using hf
    | none =>
      cases hp : services.parse uri stored.text with
      | error e => simpa [Documents.tree?, Documents.tree, hget, ht, hp] using hf
      | ok tree => simpa [Documents.tree?, Documents.tree, hget, ht, hp] using hf.keepTree hp

theorem Faithful.edit (hf : Faithful services d) (e : Edit) :
    Faithful services (d.edit services e) := by
  cases e with
  | put uri version text => exact hf.put uri version text
  | update uri version text => exact hf.update uri version text
  | close uri => exact hf.close uri
  | parse uri => exact hf.tree? uri

theorem faithful_edits (services : Services ε) (edits : List Edit) :
    Faithful services (edits.foldl (Documents.edit services) empty) := by
  have hempty : Faithful services empty := by
    intro uri stored tree hget
    simp [empty, get?] at hget
  generalize empty = d at hempty ⊢
  induction edits generalizing d with
  | nil => exact hempty
  | cons e edits ih => exact ih _ (hempty.edit e)

end Documents

namespace Indexer

variable {ε : Type} {services : Services ε} {x y : Indexer} {uri : String}

theorem source_eq (x : Indexer) (services : Services ε) (uri : String) :
    x.source services uri =
      match x.documents.text? uri with
      | some text => .ok text
      | none => services.read uri := by
  unfold source Documents.text?
  cases x.documents.get? uri <;> rfl

theorem source_congr (h : ∀ u, y.documents.text? u = x.documents.text? u) :
    y.source services uri = x.source services uri := by
  rw [source_eq, source_eq, h]

theorem tree_eq (hf : x.documents.Faithful services) {text : String} {tree : Tree}
    (hs : x.source services uri = .ok text) (hp : services.parse uri text = .ok tree) :
    ∃ d, x.tree services uri = (.ok tree, { x with documents := d }) ∧ d.Faithful services ∧
      ∀ u, d.text? u = x.documents.text? u := by
  unfold source at hs
  unfold Indexer.tree
  split at hs
  · next stored hget =>
    cases hs
    obtain ⟨d, htree, hd, htexts⟩ := Documents.tree_eq hf hget hp
    exact ⟨d, by simp [htree], hd, htexts⟩
  · next hget => exact ⟨x.documents, by simp [hs, hp], hf, fun u => rfl⟩

theorem view_removeAll {uris : List String} (h : uri ∉ uris) :
    (x.removeAll uris).repository.state.view uri = x.repository.state.view uri := by
  induction uris generalizing x with
  | nil => rfl
  | cons u uris ih =>
    have hne : u ≠ uri := fun he => h (he ▸ List.mem_cons_self)
    have hrest := ih (x := x.remove u) fun hm => h (List.mem_cons_of_mem u hm)
    exact hrest.trans (IndexState.view_remove _ hne)

theorem file?_removeAll {uris : List String} (h : uri ∈ uris) :
    (x.removeAll uris).repository.state.file? uri = none := by
  induction uris generalizing x with
  | nil => cases h
  | cons u uris ih =>
    by_cases hm : uri ∈ uris
    · exact ih hm
    · have hu : u = uri := by simpa [hm, eq_comm] using h
      subst hu
      exact (congrArg Prod.fst (view_removeAll (x := x.remove u) hm)).trans
        (IndexState.file?_remove_self _ u)

end Indexer

end SemanticIndex
