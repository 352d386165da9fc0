import Mathlib.Data.List.Induction
import SemanticIndex.Proofs.Sweep.Views

namespace SemanticIndex

inductive Access (ε : Type) where
  | put (uri : String) (version : Int) (text : String)
  | update (uri : String) (version : Int) (text : String)
  | close (uri : String)
  | get (uri : String)
  | tree (uri : String) (parse : String → Except ε Tree)

namespace Access

variable {ε : Type}

def uri : Access ε → String
  | .put uri _ _ | .update uri _ _ | .close uri | .get uri | .tree uri _ => uri

def parser? (uri : String) : Access ε → Option (String → Except ε Tree)
  | .tree u parse => if u = uri then some parse else none
  | _ => none

inductive Reply (ε : Type) where
  | done
  | accepted (yes : Bool)
  | closed (yes : Bool)
  | stored (revision : Option (Int × String))
  | tree (result : Option (Except ε Tree))

def effect : Access ε → Option Document → Option Document
  | .put _ version text, _ => some ⟨version, text, none⟩
  | .update _ version text, stored =>
      if ∀ s ∈ stored, s.version ≤ version then some ⟨version, text, none⟩ else stored
  | .close _, _ => none
  | .get _, stored => stored
  | .tree _ parse, stored =>
      stored.map fun s => { s with tree := s.tree.or (parse s.text).toOption }

end Access

namespace Documents

variable {ε : Type} {d d' : Documents} {a : Access ε} {history : List (Access ε)} {uri : String}
  {version : Int} {text : String} {parsers : List (String → Except ε Tree)}

def access (d : Documents) : Access ε → Documents
  | .put uri version text => d.put uri version text
  | .update uri version text => d.update uri version text
  | .close uri => d.close uri
  | .get _ => d
  | .tree uri parse => (d.tree? uri parse).2

def reply (d : Documents) : Access ε → Access.Reply ε
  | .put _ _ _ => .done
  | .update uri version _ => .accepted (d.accepts uri version)
  | .close uri => .closed (d.isOpen uri)
  | .get uri => .stored ((d.get? uri).map fun s => (s.version, s.text))
  | .tree uri parse => .tree (d.tree? uri parse).1

def after (history : List (Access ε)) : Documents := history.foldl access empty

@[simp] theorem after_concat (history : List (Access ε)) (a : Access ε) :
    after (history ++ [a]) = (after history).access a := by
  simp [after]

theorem accepts_eq_true_iff :
    d.accepts uri version = true ↔ ∀ s ∈ d.get? uri, s.version ≤ version := by
  unfold accepts
  cases d.get? uri <;> simp

theorem tree?_fst (d : Documents) (uri : String) (parse : String → Except ε Tree) :
    (d.tree? uri parse).1 = (d.get? uri).map fun s =>
      match s.tree with
      | some tree => .ok tree
      | none => parse s.text := by
  cases h : d.get? uri with
  | none => simp only [tree?, h, Option.map_none]
  | some s =>
    simp only [tree?, tree, h, Option.map_some]
    cases s.tree with
    | some tree => rfl
    | none =>
      dsimp only
      cases parse s.text <;> rfl

theorem get?_access_self (d : Documents) (a : Access ε) :
    (d.access a).get? a.uri = a.effect (d.get? a.uri) := by
  cases a with
  | put uri version text => exact (get?_put d uri uri version text).trans (if_pos rfl)
  | update uri version text =>
    simp only [access, update, Access.uri, Access.effect, ← accepts_eq_true_iff]
    split
    · exact (get?_put d uri uri version text).trans (if_pos rfl)
    · rfl
  | close uri => exact (get?_close d uri uri).trans (if_pos rfl)
  | get uri => rfl
  | tree uri parse =>
    simp only [access, tree?, Access.uri, Access.effect]
    cases h : d.get? uri with
    | none => exact h
    | some s =>
      simp only [tree, Option.map_some]
      cases ht : s.tree with
      | some tree => exact h.trans (by rw [Option.some_or, ← ht])
      | none =>
        cases hp : parse s.text with
        | ok tree => exact (get?_keepTree d uri uri s tree).trans (if_pos rfl)
        | error e => exact h.trans (by rw [Option.none_or, Except.toOption, ← ht])

theorem get?_access_of_ne (h : a.uri ≠ uri) : (d.access a).get? uri = d.get? uri := by
  cases a with
  | put u version text => exact (get?_put d u uri version text).trans (if_neg h)
  | update u version text =>
    simp only [access, update]
    split
    · exact (get?_put d u uri version text).trans (if_neg h)
    · rfl
  | close u => exact (get?_close d u uri).trans (if_neg h)
  | get u => rfl
  | tree u parse =>
    simp only [access, tree?, tree]
    split
    · rfl
    · next s _ =>
      split
      · rfl
      · split
        · next tree _ => exact (get?_keepTree d u uri s tree).trans (if_neg h)
        · rfl

theorem reply_congr (h : d.get? a.uri = d'.get? a.uri) : d.reply a = d'.reply a := by
  cases a with
  | put u version text => rfl
  | update u version text => simp_all [reply, accepts, Access.uri]
  | close u => simp_all [reply, isOpen, Access.uri]
  | get u => simp_all [reply, Access.uri]
  | tree u parse => simp_all [reply, tree?_fst, Access.uri]

theorem get?_after (history : List (Access ε)) (uri : String) :
    (after history).get? uri =
      (history.filter (·.uri = uri)).foldl (fun stored a => a.effect stored) none := by
  induction history using List.reverseRecOn with
  | nil => simp [after, empty, get?]
  | append_singleton history a ih =>
    rw [after_concat, List.filter_append, List.foldl_append, ← ih]
    by_cases ha : a.uri = uri
    · subst ha
      simp [get?_access_self]
    · simp [get?_access_of_ne ha, ha]

theorem get?_after_filter (history : List (Access ε)) (uri : String) :
    (after (history.filter (·.uri = uri))).get? uri = (after history).get? uri := by
  rw [get?_after, get?_after, List.filter_filter]
  simp

inductive Writes (d : Documents) (uri : String) (version : Int) (text : String) :
    Access ε → Prop where
  | put : Writes d uri version text (.put uri version text)
  | update : d.reply (.update uri version text : Access ε) = .accepted true →
      Writes d uri version text (.update uri version text)

def Replaces (d : Documents) (uri : String) (a : Access ε) : Prop :=
  a = .close uri ∨ ∃ version text, d.Writes uri version text a

inductive LastWritten (uri : String) (version : Int) (text : String) :
    List (Access ε) → List (String → Except ε Tree) → Prop where
  | written (history : List (Access ε)) (a : Access ε) :
      (after history).Writes uri version text a → LastWritten uri version text (history ++ [a]) []
  | kept (history : List (Access ε)) (a : Access ε) (parsers : List (String → Except ε Tree)) :
      LastWritten uri version text history parsers → ¬(after history).Replaces uri a →
      LastWritten uri version text (history ++ [a]) (parsers ++ (a.parser? uri).toList)

def firstTree? (text : String) (parsers : List (String → Except ε Tree)) : Option Tree :=
  parsers.findSome? fun parse => (parse text).toOption

theorem firstTree?_append (text : String) (front back : List (String → Except ε Tree)) :
    firstTree? text (front ++ back) = (firstTree? text front).or (firstTree? text back) :=
  List.findSome?_append

theorem get?_of_writes (h : d.Writes uri version text a) :
    (d.access a).get? uri = some ⟨version, text, none⟩ := by
  cases h with
  | put => exact get?_access_self d (.put uri version text : Access ε)
  | update h =>
    have haccepts : d.accepts uri version = true := by simpa [reply] using h
    exact (get?_access_self d (.update uri version text : Access ε)).trans
      (if_pos (accepts_eq_true_iff.mp haccepts))

theorem get?_of_not_replaces (h : ¬d.Replaces uri a) :
    (d.access a).get? uri = (d.get? uri).map fun s =>
      { s with tree := s.tree.or (firstTree? s.text (a.parser? uri).toList) } := by
  have hkept : d.get? uri = (d.get? uri).map fun s => { s with tree := s.tree.or none } := by
    cases d.get? uri <;> simp
  by_cases hu : a.uri = uri
  · subst hu
    rw [get?_access_self]
    cases a with
    | put u version text => exact absurd (.inr ⟨version, text, .put⟩) h
    | update u version text =>
      have hrefused : ¬d.accepts u version = true := fun ha =>
        h (.inr ⟨version, text, .update (congrArg Access.Reply.accepted ha)⟩)
      rw [accepts_eq_true_iff] at hrefused
      exact (if_neg hrefused).trans hkept
    | close u => exact absurd (.inl rfl) h
    | get u => exact hkept
    | tree u parse =>
      have hparser (text : String) :
          firstTree? text ((Access.tree u parse).parser? u).toList = (parse text).toOption := by
        cases hp : (parse text).toOption <;> simp [firstTree?, Access.parser?, hp]
      simp only [Access.uri, Access.effect, hparser]
  · have hparser : a.parser? uri = none := by
      cases a <;> simp_all [Access.parser?, Access.uri]
    rw [get?_access_of_ne hu, hparser]
    exact hkept

theorem get?_of_lastWritten (h : LastWritten uri version text history parsers) :
    (after history).get? uri = some ⟨version, text, firstTree? text parsers⟩ := by
  induction h with
  | written history a hw =>
    rw [after_concat, get?_of_writes hw]
    rfl
  | kept history a parsers _ hr ih =>
    rw [after_concat, get?_of_not_replaces hr, ih, Option.map_some, firstTree?_append]

theorem exists_lastWritten {stored : Document} (h : (after history).get? uri = some stored) :
    ∃ parsers, LastWritten uri stored.version stored.text history parsers := by
  induction history using List.reverseRecOn generalizing stored with
  | nil => simp [after, empty, get?] at h
  | append_singleton history a ih =>
    rw [after_concat] at h
    by_cases hr : (after history).Replaces uri a
    · rcases hr with rfl | ⟨version, text, hw⟩
      · cases h.symm.trans (get?_access_self (after history) (.close uri : Access ε))
      · rw [get?_of_writes hw] at h
        cases h
        exact ⟨[], .written history a hw⟩
    · rw [get?_of_not_replaces hr, Option.map_eq_some_iff] at h
      obtain ⟨before, hbefore, rfl⟩ := h
      obtain ⟨parsers, hlast⟩ := ih hbefore
      exact ⟨_, .kept history a parsers hlast hr⟩

theorem reply_tree_of_lastWritten (h : LastWritten uri version text history parsers)
    (parse : String → Except ε Tree) :
    (after history).reply (.tree uri parse) = .tree (some
      (match firstTree? text (parsers ++ [parse]) with
        | some tree => .ok tree
        | none => parse text)) := by
  rw [reply, tree?_fst, get?_of_lastWritten h, Option.map_some, firstTree?_append]
  cases firstTree? text parsers with
  | some tree => rfl
  | none => cases hp : parse text <;> simp [firstTree?, hp, Except.toOption]

theorem access_tree_of_error {parse : String → Except ε Tree} {e : ε}
    (h : d.reply (.tree uri parse) = .tree (some (.error e))) : d.access (.tree uri parse) = d := by
  simp only [reply, tree?_fst, Access.Reply.tree.injEq, Option.map_eq_some_iff] at h
  obtain ⟨stored, hs, h⟩ := h
  cases ht : stored.tree with
  | some tree => simp [ht] at h
  | none =>
    rw [ht] at h
    simp [access, tree?, hs, tree, ht, h]

structure Registers (history : List (Access ε)) : Prop where
  apart (a : Access ε) (uri : String) : a.uri ≠ uri →
    ((after history).access a).get? uri = (after history).get? uri
  alone (a : Access ε) :
    (after history).reply a = (after (history.filter (·.uri = a.uri))).reply a
  accepted (uri : String) (version : Int) (text : String) :
    (after history).reply (.update uri version text : Access ε) = .accepted true ↔
      ∀ stored, (after history).get? uri = some stored → stored.version ≤ version
  refused (uri : String) (version : Int) (text : String) :
    (after history).reply (.update uri version text : Access ε) = .accepted false →
      (after history).access (.update uri version text : Access ε) = after history
  written (uri : String) (version : Int) (text : String) (a : Access ε) :
    (after history).Writes uri version text a →
      (after (history ++ [a])).reply (.get uri : Access ε) = .stored (some (version, text)) ∧
        (after (history ++ [a])).get? uri = some ⟨version, text, none⟩
  unopened (uri : String) (parse : String → Except ε Tree) :
    (after history).reply (.tree uri parse) = .tree none ↔
      ¬∃ version text parsers, LastWritten uri version text history parsers
  first (uri : String) (version : Int) (text : String) (parsers : List (String → Except ε Tree)) :
    LastWritten uri version text history parsers → ∀ parse : String → Except ε Tree,
      (after history).reply (.tree uri parse) = .tree (some
        (match firstTree? text (parsers ++ [parse]) with
          | some tree => .ok tree
          | none => parse text))
  failed (uri : String) (parse : String → Except ε Tree) (e : ε) :
    (after history).reply (.tree uri parse) = .tree (some (.error e)) →
      (after history).access (.tree uri parse) = after history

theorem documents_are_registers (history : List (Access ε)) : Registers history where
  apart a uri h := get?_access_of_ne h
  alone a := reply_congr (get?_after_filter history a.uri).symm
  accepted uri version text := by
    rw [reply, Access.Reply.accepted.injEq, accepts_eq_true_iff]
    rfl
  refused uri version text h := by
    have hrefused : (after history).accepts uri version = false := by simpa [reply] using h
    simp [access, update, hrefused]
  written uri version text a h := by
    rw [after_concat, reply, get?_of_writes h]
    exact ⟨rfl, rfl⟩
  unopened uri parse := by
    rw [reply, tree?_fst, Access.Reply.tree.injEq, Option.map_eq_none_iff]
    constructor
    · rintro h ⟨version, text, parsers, hlast⟩
      rw [get?_of_lastWritten hlast] at h
      cases h
    · intro h
      cases hs : (after history).get? uri with
      | none => rfl
      | some stored => exact absurd ⟨_, _, exists_lastWritten hs⟩ h
  first uri version text parsers h parse := reply_tree_of_lastWritten h parse
  failed uri parse e h := access_tree_of_error h

end Documents

end SemanticIndex
