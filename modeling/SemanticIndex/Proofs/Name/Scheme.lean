import Mathlib.Data.List.Basic
import SemanticIndex.Name.Fqn
import SemanticIndex.Proofs.Text.Occurrence

namespace SemanticIndex

namespace Text

variable {d : Char} {cs front rest : List Char}

theorem mem_intercalate {c : Char} {pieces : List (List Char)}
    (h : c ∈ List.intercalate [d] pieces) : c = d ∨ ∃ piece ∈ pieces, c ∈ piece := by
  induction pieces with
  | nil => cases h
  | cons piece pieces ih =>
    cases pieces with
    | nil => exact .inr ⟨piece, List.mem_cons_self, by simpa using h⟩
    | cons next pieces =>
      rw [List.intercalate_cons_cons, List.append_assoc, List.mem_append] at h
      rcases h with h | h
      · exact .inr ⟨piece, List.mem_cons_self, h⟩
      · rcases List.mem_cons.mp h with rfl | h
        · exact .inl rfl
        · refine (ih h).imp_right ?_
          rintro ⟨other, hother, hc⟩
          exact ⟨other, List.mem_cons_of_mem _ hother, hc⟩

theorem afterLast_append (h : d ∉ rest) : afterLast d (front ++ d :: rest) = rest := by
  have hrest : ∀ c ∈ rest.reverse, (c != d) = true := by
    intro c hc
    refine bne_iff_ne.mpr ?_
    rintro rfl
    exact h (List.mem_reverse.mp hc)
  rw [afterLast, List.reverse_append, List.reverse_cons, List.append_assoc,
    List.takeWhile_append_of_pos hrest]
  simp

theorem contains_append {phrase : List Char} : contains phrase (front ++ (phrase ++ rest)) = true :=
  contains_iff_infix.mpr ⟨front, rest, List.append_assoc front phrase rest⟩

theorem startsWith_cons_of_ne {c : Char} {phrase : List Char} (h : c ≠ d) :
    startsWith (d :: phrase) (c :: cs) = false := by
  rw [startsWith, after?, if_neg (Ne.symm h)]
  rfl

theorem contains_eq_false {phrase : List Char} (h : d ∉ cs) :
    contains (d :: phrase) cs = false := by
  rw [← Bool.not_eq_true, contains_iff_infix]
  exact fun hwithin => h (hwithin.subset List.mem_cons_self)

end Text

namespace Fqn

open Text

def IsIdentifier (name : String) : Prop :=
  ∀ c ∈ name.toList, c ∉ ['\\', ':', '-', '>', '$', '(', ')']

instance (name : String) : Decidable (IsIdentifier name) :=
  List.decidableBAll _ name.toList

def IsNamespace (space : String) : Prop :=
  ∃ segments : List String, (∀ segment ∈ segments, IsIdentifier segment) ∧
    space = "\\".intercalate segments

def IsPlain (text : String) : Prop :=
  ∀ c ∈ text.toList, c ∉ [':', '-', '>', '$', '(', ')']

variable {space name : String}

theorem IsIdentifier.isPlain (h : IsIdentifier name) : IsPlain name :=
  fun c hc hm => h c hc (List.mem_cons_of_mem _ hm)

theorem IsNamespace.isPlain (h : IsNamespace space) : IsPlain space := by
  obtain ⟨segments, hsegments, rfl⟩ := h
  intro c hc
  rw [String.toList_intercalate] at hc
  rcases mem_intercalate hc with rfl | ⟨piece, hpiece, hc⟩
  · decide
  · obtain ⟨segment, hsegment, rfl⟩ := List.mem_map.mp hpiece
    exact (hsegments segment hsegment).isPlain c hc

theorem IsPlain.qualify (hs : IsPlain space) (hn : IsPlain name) : IsPlain (qualify space name) := by
  unfold Fqn.qualify
  split
  · exact hn
  · intro c hc
    rw [String.toList_append, String.toList_append, List.mem_append, List.mem_append] at hc
    rcases hc with (hc | hc) | hc
    · exact hs c hc
    · rw [List.mem_singleton.mp hc]
      decide
    · exact hn c hc

theorem qualify_inj {space' name' : String} (hn : '\\' ∉ name.toList) (hn' : '\\' ∉ name'.toList)
    (h : qualify space name = qualify space' name') : space = space' ∧ name = name' := by
  have hslash : "\\".toList = ['\\'] := by decide
  unfold qualify at h
  split at h <;> split at h
  · next hs hs' =>
    rw [String.isEmpty_iff] at hs hs'
    exact ⟨hs.trans hs'.symm, h⟩
  · refine absurd ?_ hn
    rw [h, String.toList_append, String.toList_append, hslash]
    simp
  · refine absurd ?_ hn'
    rw [← h, String.toList_append, String.toList_append, hslash]
    simp
  · have hl := congrArg String.toList h
    simp only [String.toList_append, hslash, List.append_assoc, List.singleton_append] at hl
    have hname : name.toList = name'.toList := by
      have hafter := congrArg (afterLast '\\') hl
      rwa [afterLast_append hn, afterLast_append hn'] at hafter
    rw [hname] at hl
    exact ⟨String.toList_injective (List.append_cancel_right hl), String.toList_injective hname⟩

theorem splitChars?_append_of_not_mem {front rest : List Char}
    (hfront : ∀ c ∈ front, c ≠ ':' ∧ c ≠ '-')
    (hrest : (startsWith [':', ':'] rest || startsWith ['-', '>'] rest) = true) :
    splitChars? (front ++ rest) = some (front, rest) := by
  induction front with
  | nil =>
    cases rest with
    | nil => cases hrest
    | cons c rest => exact if_pos hrest
  | cons c front ih =>
    obtain ⟨hcolon, hdash⟩ := hfront c List.mem_cons_self
    have ih := ih fun d hd => hfront d (List.mem_cons_of_mem c hd)
    rw [List.cons_append, splitChars?, startsWith_cons_of_ne hcolon, startsWith_cons_of_ne hdash, ih]
    rfl

theorem splitChars?_eq_none {cs : List Char} (h : ∀ c ∈ cs, c ≠ ':' ∧ c ≠ '-') :
    splitChars? cs = none := by
  induction cs with
  | nil => rfl
  | cons c cs ih =>
    obtain ⟨hcolon, hdash⟩ := h c List.mem_cons_self
    have ih := ih fun d hd => h d (List.mem_cons_of_mem c hd)
    rw [splitChars?, startsWith_cons_of_ne hcolon, startsWith_cons_of_ne hdash, ih]
    rfl

inductive Form where
  | bare
  | function
  | method
  | property
  | staticProperty
  | constant
  deriving DecidableEq, Repr

def Form.isMember : Form → Bool
  | .bare | .function => false
  | .method | .property | .staticProperty | .constant => true

def Form.marks : Form → List Char
  | .bare => []
  | .function => ['(', ')']
  | .method => [':', '(', ')']
  | .property => ['-', '>']
  | .staticProperty => [':', '$']
  | .constant => [':']

structure Parts where
  form : Form
  owner : String
  name : String
  deriving DecidableEq, Repr

namespace Parts

def fqn (p : Parts) : String :=
  match p.form with
  | .bare => qualify p.owner p.name
  | .function => ofFunction (qualify p.owner p.name)
  | .method => ofMethod p.owner p.name
  | .property => ofProperty p.owner p.name
  | .staticProperty => ofStaticProperty p.owner p.name
  | .constant => ofConstant p.owner p.name

def suffix (p : Parts) : String :=
  match p.form with
  | .bare => p.name
  | .function => p.name ++ "()"
  | .method => "::" ++ p.name ++ "()"
  | .property => "->" ++ p.name
  | .staticProperty => "::$" ++ p.name
  | .constant => "::" ++ p.name

structure Legible (p : Parts) : Prop where
  owner : IsPlain p.owner
  name : IsIdentifier p.name

variable {p q : Parts}

theorem fqn_of_member (h : p.form.isMember = true) : p.fqn = p.owner ++ p.suffix := by
  unfold fqn suffix
  cases hs : p.form <;> simp_all [Form.isMember, ofMethod, ofProperty, ofStaticProperty,
    ofConstant, String.append_assoc]

theorem fqn_of_not_member (h : p.form.isMember = false) : p.fqn = qualify p.owner p.suffix := by
  unfold fqn suffix
  cases hs : p.form <;> simp_all [Form.isMember, ofFunction, qualify, String.append_assoc]
  split <;> simp [String.append_assoc]

theorem Legible.mem_suffix (h : p.Legible) {c : Char}
    (hc : c ∈ ['\\', ':', '-', '>', '$', '(', ')']) :
    c ∈ p.suffix.toList ↔ c ∈ p.form.marks := by
  have hname : c ∉ p.name.toList := fun hm => h.name c hm hc
  unfold suffix
  cases hs : p.form <;> simp [Form.marks, String.toList_append, hname]

theorem Legible.backslash_not_mem_suffix (h : p.Legible) : '\\' ∉ p.suffix.toList := by
  rw [h.mem_suffix (by decide)]
  cases p.form <;> decide

theorem Legible.suffix_inj (hp : p.Legible) (hq : q.Legible) (h : p.suffix = q.suffix) :
    p.form = q.form ∧ p.name = q.name := by
  have hmarks : ∀ c ∈ ['\\', ':', '-', '>', '$', '(', ')'],
      (c ∈ p.form.marks ↔ c ∈ q.form.marks) := by
    intro c hc
    rw [← hp.mem_suffix hc, ← hq.mem_suffix hc, h]
  have hform : p.form = q.form := by
    simp only [List.forall_mem_cons] at hmarks
    revert hmarks
    cases p.form <;> cases q.form <;> simp [Form.marks]
  refine ⟨hform, ?_⟩
  have hl := congrArg String.toList h
  unfold suffix at hl
  rw [hform] at hl
  apply String.toList_injective
  cases hs : q.form <;> simpa [hs, String.toList_append] using hl

theorem Legible.not_mem_owner (h : p.Legible) : ∀ c ∈ p.owner.toList, c ≠ ':' ∧ c ≠ '-' := by
  intro c hc
  refine ⟨?_, ?_⟩ <;> rintro rfl <;> exact h.owner _ hc (by decide)

theorem Legible.not_mem_fqn (h : p.Legible) (hm : p.form.isMember = false) :
    ∀ c ∈ p.fqn.toList, c ≠ ':' ∧ c ≠ '-' := by
  have hsuffix : ∀ c ∈ p.suffix.toList, c ≠ ':' ∧ c ≠ '-' := by
    intro c hc
    refine ⟨?_, ?_⟩ <;> rintro rfl <;> rw [h.mem_suffix (by decide)] at hc <;>
      cases hs : p.form <;> simp_all [Form.isMember, Form.marks]
  rw [fqn_of_not_member hm, qualify]
  split
  · exact hsuffix
  · intro c hc
    rw [String.toList_append, String.toList_append, List.mem_append, List.mem_append] at hc
    rcases hc with (hc | hc) | hc
    · exact h.not_mem_owner c hc
    · rw [List.mem_singleton.mp hc]
      decide
    · exact hsuffix c hc

theorem Legible.splitMember?_fqn (h : p.Legible) :
    splitMember? p.fqn = if p.form.isMember then some (p.owner, p.suffix) else none := by
  cases hm : p.form.isMember with
  | true =>
    have hstart : (startsWith [':', ':'] p.suffix.toList ||
        startsWith ['-', '>'] p.suffix.toList) = true := by
      unfold suffix
      cases hs : p.form <;> simp_all [Form.isMember, String.toList_append, startsWith, after?]
    rw [splitMember?, fqn_of_member hm, String.toList_append,
      splitChars?_append_of_not_mem h.not_mem_owner hstart]
    simp
  | false =>
    rw [splitMember?, splitChars?_eq_none (h.not_mem_fqn hm)]
    rfl

theorem Legible.fqn_inj (hp : p.Legible) (hq : q.Legible) (h : p.fqn = q.fqn) : p = q := by
  have hsplit : splitMember? p.fqn = splitMember? q.fqn := congrArg splitMember? h
  rw [hp.splitMember?_fqn, hq.splitMember?_fqn] at hsplit
  have hparts : p.owner = q.owner ∧ p.suffix = q.suffix := by
    cases hmp : p.form.isMember <;> cases hmq : q.form.isMember <;>
      simp only [hmp, hmq, if_true, if_false, Bool.false_eq_true, reduceCtorEq, Option.some.injEq,
        Prod.mk.injEq] at hsplit
    · rw [fqn_of_not_member hmp, fqn_of_not_member hmq] at h
      exact qualify_inj hp.backslash_not_mem_suffix hq.backslash_not_mem_suffix h
    · exact hsplit
  obtain ⟨hform, hname⟩ := hp.suffix_inj hq hparts.2
  cases p
  cases q
  simp_all

end Parts

end Fqn

end SemanticIndex
