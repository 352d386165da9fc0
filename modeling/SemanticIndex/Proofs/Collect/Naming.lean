import SemanticIndex.Proofs.Collect.Integrity
import SemanticIndex.Proofs.Name.Scheme

namespace SemanticIndex

open Fqn

namespace Resolve

variable {t : Tree} {n : Nat} {context : NameContext} {p : Parts}

def form? (t : Tree) (n : Nat) : Option Form :=
  match t.kind n with
  | .functionDefinition => some .function
  | .methodDeclaration => some .method
  | .propertyElement => some (if isStatic t n then .staticProperty else .property)
  | .promotedProperty => some .property
  | .constElement => some (if isClassConstant t n then .constant else .bare)
  | .enumCase => some .constant
  | kind => if kind.isClassLike then some .bare else none

def ownName (t : Tree) (n : Nat) : Option String :=
  match t.kind n with
  | .propertyElement | .promotedProperty => propertyName t n
  | .constElement => (t.nameChild n).map t.text
  | .enumCase => (declaredNameNode t n).map t.text
  | _ => (t.childByField n .name).map t.text

def owner? (t : Tree) (n : Nat) (context : NameContext) (form : Form) : Option String :=
  if form.isMember then ownerFqn t n context else some context.space

def parts? (t : Tree) (n : Nat) (context : NameContext) : Option Parts :=
  (form? t n).bind fun form =>
    (owner? t n context form).bind fun owner => (ownName t n).map (Parts.mk form owner)

theorem parts?_eq_some : parts? t n context = some p ↔
    form? t n = some p.form ∧ owner? t n context p.form = some p.owner ∧
      ownName t n = some p.name := by
  simp only [parts?, Option.bind_eq_some_iff, Option.map_eq_some_iff]
  constructor
  · rintro ⟨form, hform, owner, howner, name, hname, rfl⟩
    exact ⟨hform, howner, hname⟩
  · rintro ⟨hform, howner, hname⟩
    exact ⟨_, hform, _, howner, _, hname, rfl⟩

theorem declaredFqnIn_eq (t : Tree) (n : Nat) (context : NameContext) :
    declaredFqnIn t n context = (parts? t n context).map Parts.fqn := by
  unfold declaredFqnIn parts? form? ownName
  cases hk : t.kind n
  case functionDefinition =>
    cases t.childByField n .name <;> rfl
  case methodDeclaration =>
    cases ho : ownerFqn t n context <;> cases t.childByField n .name <;>
      simp [owner?, Form.isMember, ho, Parts.fqn]
  case propertyElement =>
    cases ho : ownerFqn t n context <;> cases propertyName t n <;> cases isStatic t n <;>
      simp [owner?, Form.isMember, ho, Parts.fqn]
  case promotedProperty =>
    cases ho : ownerFqn t n context <;> cases propertyName t n <;>
      simp [owner?, Form.isMember, ho, Parts.fqn]
  case constElement =>
    cases ho : ownerFqn t n context <;> cases t.nameChild n <;> cases isClassConstant t n <;>
      simp [owner?, Form.isMember, ho, Parts.fqn, NameContext.qualify]
  case enumCase =>
    cases ho : ownerFqn t n context <;> cases declaredNameNode t n <;>
      simp [owner?, Form.isMember, ho, Parts.fqn]
  all_goals first | rfl | (simp only [classFqn]; cases t.childByField n .name <;> rfl)

structure LegiblyNamed (t : Tree) (n : Nat) (context : NameContext) : Prop where
  space : IsNamespace context.space
  name : ∀ name, ownName t n = some name → IsIdentifier name
  owner : ∀ cls m, enclosingClass t n = some cls → t.childByField cls .name = some m →
    IsIdentifier (t.text m)

theorem LegiblyNamed.isPlain_ownerFqn (h : LegiblyNamed t n context) {owner : String}
    (ho : ownerFqn t n context = some owner) : IsPlain owner := by
  obtain ⟨cls, hcls, hfqn⟩ := Option.bind_eq_some_iff.mp ho
  obtain ⟨m, hm, rfl⟩ := Option.map_eq_some_iff.mp hfqn
  exact h.space.isPlain.qualify (h.owner cls m hcls hm).isPlain

theorem LegiblyNamed.legible (h : LegiblyNamed t n context) (hp : parts? t n context = some p) :
    p.Legible := by
  obtain ⟨-, howner, hname⟩ := parts?_eq_some.mp hp
  refine ⟨?_, h.name p.name hname⟩
  unfold owner? at howner
  split at howner
  · exact h.isPlain_ownerFqn howner
  · exact Option.some.inj howner ▸ h.space.isPlain

theorem declaredName_of_ownName {name : String} (h : ownName t n = some name)
    (hconst : t.kind n = .constElement → ∀ m, t.childByField n .name = some m →
      t.nameChild n = some m) : declaredName t n = some name := by
  have hfield (hn : (t.childByField n .name).map t.text = some name) :
      (declaredNameNode t n).map t.text = some name := by
    obtain ⟨m, hm, rfl⟩ := Option.map_eq_some_iff.mp hn
    simp [declaredNameNode, hm]
  unfold ownName at h
  unfold declaredName
  cases hk : t.kind n <;> rw [hk] at h
  case propertyElement | promotedProperty | enumCase => exact h
  case constElement =>
    obtain ⟨m, hm, rfl⟩ := Option.map_eq_some_iff.mp h
    cases hf : t.childByField n .name with
    | none => simp [declaredNameNode, hf, hm]
    | some m' =>
      have hsame := hconst hk m' hf
      rw [hm] at hsame
      cases hsame
      simp [declaredNameNode, hf]
  all_goals exact hfield h

structure Decodes (t : Tree) (n : Nat) (fqn : String) (p : Parts) : Prop where
  parts_eq : parts? t n (.ofNode t n) = some p
  fqn_eq : fqn = p.fqn
  split_eq : splitMember? fqn = if p.form.isMember then some (p.owner, p.suffix) else none
  name_eq : (t.kind n = .constElement → ∀ m, t.childByField n .name = some m →
    t.nameChild n = some m) → declaredName t n = some p.name

theorem decodes_of_declaredFqn {fqn : String} (h : LegiblyNamed t n (.ofNode t n))
    (hd : declaredFqn t n = some fqn) : ∃ p, Decodes t n fqn p ∧ p.Legible := by
  rw [declaredFqn, declaredFqnIn_eq, Option.map_eq_some_iff] at hd
  obtain ⟨p, hp, rfl⟩ := hd
  have hl := h.legible hp
  have hname := (parts?_eq_some.mp hp).2.2
  exact ⟨p, ⟨hp, rfl, hl.splitMember?_fqn, declaredName_of_ownName hname⟩, hl⟩

end Resolve

namespace Collect

open Resolve

variable {t : Tree} {n : Nat} {context : NameContext} {p : Parts} {s : Symbol}

theorem isMember_symbolKind (hp : parts? t n context = some p) (hl : p.Legible) :
    (symbolKind (t.kind n) p.fqn).isMember = p.form.isMember := by
  obtain ⟨hform, -, -⟩ := parts?_eq_some.mp hp
  unfold form? at hform
  unfold symbolKind
  cases hk : t.kind n <;> rw [hk] at hform
  case constElement =>
    cases hc : isClassConstant t n <;> rw [hc] at hform
    · have hs : p.form = .bare := (Option.some.inj hform).symm
      have hnone : Text.contains [':', ':'] p.fqn.toList = false := Text.contains_eq_false fun hm =>
        (hl.not_mem_fqn (by rw [hs]; rfl) ':' hm).1 rfl
      simp [hs, hnone, SymbolKind.isMember, Form.isMember]
    · have hs : p.form = .constant := (Option.some.inj hform).symm
      have hfound : Text.contains [':', ':'] p.fqn.toList = true := by
        rw [Parts.fqn_of_member (by rw [hs]; rfl), Parts.suffix, hs, String.toList_append,
          String.toList_append]
        exact Text.contains_append
      simp [hs, hfound, SymbolKind.isMember, Form.isMember]
  case propertyElement =>
    cases hc : isStatic t n <;> rw [hc] at hform <;> rw [← Option.some.inj hform] <;> rfl
  all_goals first | cases hform | (rw [← Option.some.inj hform]; rfl)

theorem container_of_legiblyNamed (hs : symbol? t n context = some s)
    (h : LegiblyNamed t n context) :
    s.container = if s.kind.isMember then ownerFqn t n context else none := by
  unfold symbol? at hs
  simp only [Option.bind_eq_bind, Option.bind_eq_some_iff, Option.some.injEq] at hs
  obtain ⟨fqn, hfqn, name, -, rfl⟩ := hs
  rw [declaredFqnIn_eq, Option.map_eq_some_iff] at hfqn
  obtain ⟨p, hp, rfl⟩ := hfqn
  have hl := h.legible hp
  obtain ⟨-, howner, -⟩ := parts?_eq_some.mp hp
  dsimp only
  rw [isMember_symbolKind hp hl, hl.splitMember?_fqn]
  unfold owner? at howner
  split
  · next hm =>
    rw [if_pos hm] at howner
    exact howner.symm
  · rfl

def Contained (t : Tree) (v : Nat × Scope) (kind : SymbolKind) (container : Option String) : Prop :=
  LegiblyNamed t v.1 v.2.context →
    container = if kind.isMember then ownerFqn t v.1 v.2.context else none

theorem fqns_are_unambiguous_and_decodable (t u : Tree) (hash : String) (millis : UInt64) :
    (∀ n m fqn, LegiblyNamed t n (.ofNode t n) → LegiblyNamed u m (.ofNode u m) →
        declaredFqn t n = some fqn → declaredFqn u m = some fqn →
          ∃ p, Decodes t n fqn p ∧ Decodes u m fqn p) ∧
      (∀ s ∈ (collect t hash millis).symbols, (∃ v ∈ visits t, Meets t v s) ∧
        ∀ v ∈ visits t, Meets t v s → Contained t v s.kind s.container) ∧
      (∀ d ∈ (collect t hash millis).definitions, ∃ v ∈ visits t, ∃ s, Meets t v s ∧
        d = definition t v.1 v.2.context s ∧ Contained t v d.kind d.container) ∧
      (t.kind Tree.root = .program → ∀ v ∈ visits t, (t.kind v.1).isDeclaration = true →
        v.2.context = .ofNode t v.1) := by
  refine ⟨?_, fun s hs => ⟨?_, ?_⟩, ?_, ?_⟩
  · intro n m fqn hn hm hfn hfm
    obtain ⟨p, hp, hlp⟩ := decodes_of_declaredFqn hn hfn
    obtain ⟨q, hq, hlq⟩ := decodes_of_declaredFqn hm hfm
    have hpq : p = q := hlp.fqn_inj hlq (hp.fqn_eq.symm.trans hq.fqn_eq)
    exact ⟨p, hp, hpq ▸ hq⟩
  · obtain ⟨n, v, hv, -, hm⟩ := mem_symbols_collect.mp hs
    exact ⟨v, hv, hm⟩
  · exact fun v _ hm hl => container_of_legiblyNamed hm.2 hl
  · intro d hd
    obtain ⟨v, s, hv, hs, -, rfl⟩ := (tidy_findings t).made d hd
    have hm := met?_eq_some_iff.mp hs
    exact ⟨v, hv, s, hm, rfl, fun hl => container_of_legiblyNamed hm.2 hl⟩
  · intro hroot v hv hd
    exact (visits_fit (by simp [hroot]) v hv).context_eq
      (NodeKind.ne_namespaceDefinition_of_isDeclaration hd)

def namesakes : Tree :=
  .ofNodes "file:///a.php" "namespace A\\B;class C{function f(){}const f=1;}"
    [(.program, none, 0, 47, none), (.namespaceDefinition, none, 0, 14, some 0),
     (.namespaceName, some .name, 10, 13, some 1), (.classDeclaration, none, 14, 47, some 0),
     (.name, some .name, 20, 21, some 3), (.declarationList, some .body, 21, 47, some 3),
     (.methodDeclaration, none, 22, 36, some 5), (.name, some .name, 31, 32, some 6),
     (.constDeclaration, none, 36, 46, some 5), (.constElement, none, 42, 45, some 8),
     (.name, none, 42, 43, some 9)]

theorem legiblyNamed_namesakes {n : Nat} (h : n = 6 ∨ n = 9) :
    LegiblyNamed namesakes n (.ofNode namesakes n) := by
  have hspace : (NameContext.ofNode namesakes n).space = "A\\B" := by
    rcases h with rfl | rfl <;> decide +kernel
  have hname : ownName namesakes n = some "f" := by
    rcases h with rfl | rfl <;> decide +kernel
  have hclass : (enclosingClass namesakes n).bind (namesakes.childByField · .name) = some 4 := by
    rcases h with rfl | rfl <;> decide +kernel
  refine ⟨⟨["A", "B"], by decide, by rw [hspace]; decide⟩, fun name hn => ?_, fun cls m hc hm => ?_⟩
  · rw [hname] at hn
    cases hn
    decide
  · rw [hc, Option.bind_some, hm] at hclass
    cases hclass
    decide +kernel

theorem fqns_are_unambiguous_and_decodable_namesakes :
    let t := namesakes
    declaredFqn t 6 = some "A\\B\\C::f()" ∧ declaredFqn t 9 = some "A\\B\\C::f" ∧
      splitMember? "A\\B\\C::f()" = some ("A\\B\\C", "::f()") ∧
      splitMember? "A\\B\\C::f" = some ("A\\B\\C", "::f") := by
  intro t
  have hmethod : declaredFqn t 6 = some "A\\B\\C::f()" := by decide +kernel
  have hconstant : declaredFqn t 9 = some "A\\B\\C::f" := by decide +kernel
  have hapart := (fqns_are_unambiguous_and_decodable t t "" 0).1
  have hl6 := legiblyNamed_namesakes (.inl rfl)
  have hl9 := legiblyNamed_namesakes (.inr rfl)
  obtain ⟨p, hp, -⟩ := hapart 6 6 _ hl6 hl6 hmethod hmethod
  obtain ⟨q, hq, -⟩ := hapart 9 9 _ hl9 hl9 hconstant hconstant
  have hparts : parts? t 6 (.ofNode t 6) = some ⟨.method, "A\\B\\C", "f"⟩ := by decide +kernel
  have hparts' : parts? t 9 (.ofNode t 9) = some ⟨.constant, "A\\B\\C", "f"⟩ := by decide +kernel
  have hsplit := hp.split_eq
  have hsplit' := hq.split_eq
  cases hp.parts_eq.symm.trans hparts
  cases hq.parts_eq.symm.trans hparts'
  exact ⟨hmethod, hconstant, hsplit, hsplit'⟩

end Collect

end SemanticIndex
