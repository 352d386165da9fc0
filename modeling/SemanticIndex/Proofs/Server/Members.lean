import SemanticIndex.Proofs.Index.Visiting
import SemanticIndex.Proofs.Server.Access
import SemanticIndex.Proofs.Server.Arrangement
import SemanticIndex.Proofs.Text.ByteOrder
import SemanticIndex.Proofs.Text.Trimming
import SemanticIndex.Server.Lookup

namespace SemanticIndex

open Index IndexState Text

namespace Indexer

theorem repository_tree {ε : Type} (x : Indexer) (services : Services ε) (uri : String) :
    (x.tree services uri).2.repository = x.repository := by
  unfold Indexer.tree
  split
  · rfl
  · split <;> rfl

end Indexer

namespace Server

namespace Completion

variable {s : IndexState} {scope : Scope} {word : List Char} {cls owner label : String}
  {d : Definition} {item : CompletionItem}

inductive Admits : Scope → Definition → (label : String) → Prop where
  | method {scope : Scope} {d : Definition} (hkind : d.kind = .method) : Admits scope d d.name
  | ownProperty {d : Definition} (hkind : d.kind = .property)
      (hfqn : ¬"::$".toList <:+: d.fqn.toList) : Admits .instanceMembers d d.name
  | classProperty {scope : Scope} {d : Definition} (hscope : scope ≠ .instanceMembers)
      (hkind : d.kind = .property) (hfqn : "::$".toList <:+: d.fqn.toList) :
      Admits scope d ("$" ++ d.name)
  | constant {scope : Scope} {d : Definition} (hscope : scope ≠ .instanceMembers)
      (hkind : d.kind = .classConstant ∨ d.kind = .enumCase) : Admits scope d d.name

structure Offers (s : IndexState) (scope : Scope) (word : List Char) (owner label : String)
    (d : Definition) : Prop where
  live : d ∈ s.liveDefinitions
  container : d.container = some owner
  admitted : Admits scope d label
  fits : word <+: label.toList ∨ word <+: label.toList.dropWhile (· == '$')

def starts (s : IndexState) (scope : Scope) (cls : String) : List String :=
  if scope = .parentMembers then s.parents cls else [cls]

structure Lists (s : IndexState) (scope : Scope) (word : List Char) (cls : String)
    (items : List CompletionItem) : Prop where
  sorted : items.Pairwise fun a b => utf8 a.label < utf8 b.label
  offered (label : String) : label ∈ items.map CompletionItem.label ↔
    ∃ first ∈ starts s scope cls, ∃ owner d, s.Ancestor first owner ∧
      Offers s scope word owner label d
  nearest : ∀ item ∈ items, ∃ owner d,
    Nearest s.parents (starts s scope cls)
      (fun other => ∃ e, Offers s scope word other item.label e) owner ∧
    Offers s scope word owner item.label d ∧ item = itemOf item.label d

theorem isStaticProperty_iff : isStaticProperty d = true ↔ "::$".toList <:+: d.fqn.toList :=
  contains_iff_infix

theorem admits_of_label? (h : label? scope d = some label) : Admits scope d label := by
  have hconstant (hkind : d.kind = .classConstant ∨ d.kind = .enumCase)
      (h : (if scope == .instanceMembers then none else some d.name) = some label) :
      Admits scope d label := by
    by_cases hscope : scope = .instanceMembers
    · simp [hscope] at h
    · obtain rfl : d.name = label := by simpa [hscope] using h
      exact .constant hscope hkind
  unfold label? at h
  dsimp only at h
  split at h
  · next hkind =>
    cases h
    exact .method hkind
  · next hkind =>
    by_cases hscope : scope = .instanceMembers <;> by_cases hfqn : isStaticProperty d = true
    · simp [hscope, hfqn] at h
    · obtain rfl : d.name = label := by simpa [hscope, hfqn] using h
      subst hscope
      exact .ownProperty hkind fun hinfix => hfqn (isStaticProperty_iff.mpr hinfix)
    · obtain rfl : "$" ++ d.name = label := by simpa [hscope, hfqn] using h
      exact .classProperty hscope hkind (isStaticProperty_iff.mp hfqn)
    · simp [hscope, hfqn] at h
  · next hkind => exact hconstant (.inl hkind) h
  · next hkind => exact hconstant (.inr hkind) h
  · cases h

theorem Admits.label?_eq (h : Admits scope d label) : label? scope d = some label := by
  cases h with
  | method hkind => simp [label?, hkind]
  | ownProperty hkind hfqn =>
    have hfqn : isStaticProperty d = false := by
      rw [← Bool.not_eq_true, isStaticProperty_iff]
      exact hfqn
    simp [label?, hkind, hfqn]
  | classProperty hscope hkind hfqn =>
    have hfqn : isStaticProperty d = true := isStaticProperty_iff.mpr hfqn
    simp [label?, hkind, hscope, hfqn]
  | constant hscope hkind => rcases hkind with hkind | hkind <;> simp [label?, hkind, hscope]

theorem label?_eq_some_iff : label? scope d = some label ↔ Admits scope d label :=
  ⟨admits_of_label?, Admits.label?_eq⟩

theorem labelFits_iff : labelFits word label = true ↔
    word <+: label.toList ∨ word <+: label.toList.dropWhile (· == '$') := by
  rw [labelFits, Bool.or_eq_true, dropRepeated_singleton, startsWith_iff_prefix,
    startsWith_iff_prefix, or_comm]

theorem mem_membersOf : item ∈ membersOf s scope word owner ↔
    ∃ d, Offers s scope word owner item.label d ∧ item = itemOf item.label d := by
  simp only [membersOf, List.mem_filterMap, List.mem_filter, beq_iff_eq, Option.map_eq_some_iff,
    Option.filter_eq_some_iff, label?_eq_some_iff, labelFits_iff]
  constructor
  · rintro ⟨d, ⟨hlive, hcontainer⟩, label, ⟨hadmitted, hfits⟩, rfl⟩
    exact ⟨d, ⟨hlive, hcontainer, hadmitted, hfits⟩, rfl⟩
  · rintro ⟨d, ⟨hlive, hcontainer, hadmitted, hfits⟩, hitem⟩
    exact ⟨d, ⟨hlive, hcontainer⟩, item.label, ⟨hadmitted, hfits⟩, hitem.symm⟩

theorem find?_membersOf (h : (membersOf s scope word owner).find? (·.label == label) = some item) :
    item.label = label ∧ ∃ d, Offers s scope word owner label d ∧ item = itemOf label d := by
  have hlabel : item.label = label := by simpa using List.find?_some h
  subst hlabel
  exact ⟨rfl, mem_membersOf.mp (List.mem_of_find?_eq_some h)⟩

theorem find?_membersOf_isSome : (∃ d, Offers s scope word owner label d) ↔
    ((membersOf s scope word owner).find? (·.label == label)).isSome := by
  constructor
  · rintro ⟨d, hd⟩
    exact List.find?_isSome.mpr ⟨itemOf label d, mem_membersOf.mpr ⟨d, hd, rfl⟩, by simp [itemOf]⟩
  · intro h
    obtain ⟨item, hitem⟩ := Option.isSome_iff_exists.mp h
    obtain ⟨-, d, hd, -⟩ := find?_membersOf hitem
    exact ⟨d, hd⟩

theorem owners_eq : owners s scope cls = s.ancestry (starts s scope cls) := by
  simp [owners, starts]

theorem find?_members : (members s scope word cls).find? (·.label == label) =
    (s.ancestry (starts s scope cls)).findSome? fun owner =>
      (membersOf s scope word owner).find? (·.label == label) := by
  rw [members, find?_arrange, List.find?_flatMap, owners_eq]

theorem lists_members (s : IndexState) (scope : Scope) (word : List Char) (cls : String) :
    Lists s scope word cls (members s scope word cls) := by
  have hincreasing : Increasing CompletionItem.label (members s scope word cls) :=
    increasing_arrange _
  constructor
  · exact hincreasing.imp fun hab => (lt_iff_utf8_lt _ _).mp hab
  · intro label
    have hmem : label ∈ (members s scope word cls).map CompletionItem.label ↔
        ((members s scope word cls).find? (·.label == label)).isSome := by
      simp [List.find?_isSome]
    rw [hmem, find?_members, List.findSome?_isSome_iff]
    simp only [← find?_membersOf_isSome, mem_ancestry]
    constructor
    · rintro ⟨owner, ⟨first, hfirst, hreach⟩, d, hd⟩
      exact ⟨first, hfirst, owner, d, hreach, hd⟩
    · rintro ⟨first, hfirst, owner, d, hreach, hd⟩
      exact ⟨owner, ⟨first, hfirst, hreach⟩, d, hd⟩
  · intro item hitem
    rw [mem_iff_find?_key hincreasing, find?_members] at hitem
    obtain ⟨owner, howner, hnearest⟩ := exists_nearest (fun _ => find?_membersOf_isSome) hitem
    obtain ⟨-, d, hd, heq⟩ := find?_membersOf howner
    exact ⟨owner, d, hnearest, hd, heq⟩

inductive AsksFor {ε : Type} (services : Services ε) (x : Indexer) (c : Cursor) :
    Scope → (word : List Char) → (cls : String) → Prop where
  | intro {t : Tree} {offset : Nat} {scope : Scope} {head word : List Char} {cls : String}
      (htree : (x.tree services c.uri).1 = .ok t)
      (hoffset : t.lines.offset? c.position = some offset)
      (hline : lineBefore t offset = head ++ word) (hopens : Opens scope head)
      (hword : ∀ ch ∈ word, isIdentifierChar ch = true) (hcls : classAt? t c.position = some cls) :
      AsksFor services x c scope word cls

theorem items_of_opens {head : List Char} (h : Opens scope head) :
    items s (some cls) scope word = members s scope word cls := by
  cases h <;> rfl

theorem AsksFor.completion_eq {ε : Type} {services : Services ε} {x : Indexer} {c : Cursor}
    (h : AsksFor services x c scope word cls) (most : Nat) :
    (completion services x most c).1 = limit most (x.repository.status == .complete)
      (members x.repository.state scope word cls) := by
  obtain @⟨t, offset, _, head, _, _, htree, hoffset, hline, hopens, hword, hcls⟩ := h
  have hrepository := x.repository_tree services c.uri
  unfold completion
  split
  · next e y heq =>
    rw [heq] at htree
    cases htree
  · next tree y heq =>
    rw [heq] at htree hrepository
    obtain rfl : tree = t := Except.ok.inj htree
    dsimp only at hrepository ⊢
    simp only [hoffset, completionsAt, hline, contextOf_append hopens hword, hcls, hrepository,
      items_of_opens hopens]
    rw [members, arrange_of_increasing (increasing_arrange _)]

end Completion

open Completion

theorem nearest_members_are_offered {ε : Type} (services : Services ε) (x : Indexer) (scope : Scope)
    (word : List Char) (cls : String) :
    let s := x.repository.state
    let listed := members s scope word cls
    (∀ visited, Visits s.parents [] (starts s scope cls) visited ↔ visited = owners s scope cls) ∧
      Lists s scope word cls listed ∧
      ∀ (c : Cursor) (most : Nat), AsksFor services x c scope word cls →
        let answer := (completion services x most c).1
        answer.items = listed.take most ∧
          (answer.isIncomplete = true ↔
            most < listed.length ∨ x.repository.status ≠ .complete) := by
  intro s listed
  refine ⟨fun visited => ?_, lists_members s scope word cls, fun c most hasks => ?_⟩
  · rw [visits_iff, owners_eq]
  · rw [hasks.completion_eq]
    refine ⟨rfl, ?_⟩
    simp [limit, s, listed]

def memberOf (owner name fqn : String) (kind : SymbolKind) : Definition :=
  ⟨fqn, name, kind, "file:///a.php", ⟨⟨0, 0⟩, ⟨0, 0⟩⟩, some owner, none, none, []⟩

def circle : File :=
  let types := relatives [("A", ["B", "T"]), ("B", ["A"]), ("T", [])]
  { types with
    definitions := types.definitions ++
      [memberOf "T" "run" "T::run()" .method, memberOf "T" "rate" "T->rate" .property,
       memberOf "T" "rows" "T::$rows" .property, memberOf "A" "go" "A::go()" .method,
       memberOf "B" "run" "B::run()" .method] }

def unfinishedTree (uri text : String) : Tree :=
  .ofNodes uri text
    [(.program, none, 0, 39, none), (.classDeclaration, none, 6, 39, some 0),
     (.name, some .name, 12, 13, some 1)]

def unfinishedCall : Services String where
  accepts _ := true
  parse uri text := .ok (unfinishedTree uri text)
  read _ := .ok "<?php class A\x7bfunction go()\x7b$this->r;\x7d\x7d"
  digest := id

theorem nearest_members_are_offered_in_circle :
    let x : Indexer := ⟨Repository.empty.run [.upsert circle, .markComplete], Documents.empty⟩
    let c : Cursor := ⟨"file:///a.php", ⟨0, 36⟩⟩
    let rate : CompletionItem := ⟨"rate", .property, "T->rate"⟩
    let run : CompletionItem := ⟨"run", .method, "B::run()"⟩
    AsksFor unfinishedCall x c .instanceMembers ['r'] "A" ∧
      (completion unfinishedCall x 1 c).1.items = [rate] ∧
      (completion unfinishedCall x 1 c).1.isIncomplete = true ∧
      (completion unfinishedCall x 2 c).1.items = [rate, run] ∧
      (completion unfinishedCall x 2 c).1.isIncomplete = false := by
  intro x c rate run
  have hasks : AsksFor unfinishedCall x c .instanceMembers ['r'] "A" := by
    let t := unfinishedTree c.uri "<?php class A\x7bfunction go()\x7b$this->r;\x7d\x7d"
    have hoffset : t.lines.offset? c.position = some 36 := by decide +kernel
    exact .intro rfl hoffset (by decide +kernel)
      (.this "<?php class A\x7bfunction go()\x7b".toList) (by simp [isIdentifierChar])
      (by decide +kernel)
  have hlisted : members x.repository.state .instanceMembers ['r'] "A" = [rate, run] := by
    have hfound : (owners x.repository.state .instanceMembers "A").flatMap
        (membersOf x.repository.state .instanceMembers ['r']) =
          [run, ⟨"run", .method, "T::run()"⟩, rate] := by decide +kernel
    rw [members, hfound]
    have hincreasing : Increasing CompletionItem.label [rate, run] :=
      List.pairwise_pair.mpr (by decide)
    refine eq_of_find?_key (increasing_arrange _) hincreasing fun label => ?_
    rw [find?_arrange]
    by_cases hrun : "run" = label
    · subst hrun
      rfl
    · by_cases hrate : "rate" = label <;> simp [rate, run, hrun, hrate]
  obtain ⟨-, -, hanswer⟩ :=
    nearest_members_are_offered unfinishedCall x .instanceMembers ['r'] "A"
  rw [hlisted] at hanswer
  obtain ⟨hone, hcut⟩ := hanswer c 1 hasks
  obtain ⟨htwo, hwhole⟩ := hanswer c 2 hasks
  refine ⟨hasks, hone, hcut.mpr (.inl (by decide)), htwo, ?_⟩
  have hcomplete : x.repository.status = .complete := by decide +kernel
  rw [Bool.eq_false_iff, Ne, hwhole]
  simp [hcomplete]

end Server

end SemanticIndex
