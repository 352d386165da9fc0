import Mathlib.Data.Set.Basic
import Mathlib.Order.Bounds.Defs
import SemanticIndex.Proofs.Source.Positions

namespace SemanticIndex

namespace Text

structure IsLine (text : List Char) (number : Nat) (before line after : List Char) : Prop where
  text_eq : text = before ++ line ++ after
  number_eq : before.count '\n' = number
  starts : EndsLines before
  unbroken : '\n' ∉ line
  ends : after = [] ∨ ∃ rest, after = '\n' :: rest

theorem unitLength_append (a b : List Char) :
    unitLength (a ++ b) = unitLength a + unitLength b := by
  induction a with
  | nil => simp [unitLength]
  | cons c a ih => simp [unitLength, ih, Nat.add_assoc]

theorem eq_nil_of_byteLength {text : List Char} (h : byteLength text = 0) : text = [] := by
  cases text with
  | nil => rfl
  | cons c text =>
    have hpos := c.utf8Size_pos
    rw [byteLength] at h
    omega

theorem exists_append_of_le {a b x y : List Char} (h : a ++ x = b ++ y)
    (hle : byteLength a ≤ byteLength b) : ∃ mid, b = a ++ mid := by
  rcases List.append_eq_append_iff.mp h with ⟨mid, hb, -⟩ | ⟨mid, ha, -⟩
  · exact ⟨mid, hb⟩
  · rw [ha, byteLength_append] at hle
    obtain rfl : mid = [] := eq_nil_of_byteLength (by omega)
    exact ⟨[], by simp [ha]⟩

theorem EndsLines.eq_nil {before mid : List Char} (h : EndsLines (before ++ mid))
    (hmid : '\n' ∉ mid) : mid = [] := by
  rcases List.eq_nil_or_concat mid with rfl | ⟨front, c, rfl⟩
  · rfl
  · rcases h with h | ⟨rest, h⟩
    · simp at h
    · rw [List.concat_eq_append, ← List.append_assoc] at h
      have hc : c = '\n' := by simpa using (List.append_inj' h rfl).2
      simp [hc] at hmid

theorem EndsLines.append_inj {before line before' line' : List Char} (h : EndsLines before)
    (h' : EndsLines before') (hline : '\n' ∉ line) (hline' : '\n' ∉ line')
    (heq : before ++ line = before' ++ line') : before = before' ∧ line = line' := by
  rcases List.append_eq_append_iff.mp heq with ⟨mid, hb, hl⟩ | ⟨mid, hb, hl⟩
  · have hmid : '\n' ∉ mid := fun hm => hline (hl ▸ List.mem_append_left _ hm)
    obtain rfl := EndsLines.eq_nil (hb ▸ h') hmid
    simp [hb, hl]
  · have hmid : '\n' ∉ mid := fun hm => hline' (hl ▸ List.mem_append_left _ hm)
    obtain rfl := EndsLines.eq_nil (hb ▸ h) hmid
    simp [hb, hl]

theorem IsLine.count_eq {text before line after : List Char} {number : Nat}
    (h : IsLine text number before line after) : (before ++ line).count '\n' = number := by
  rw [List.count_append, List.count_eq_zero.mpr h.unbroken, h.number_eq, Nat.add_zero]

theorem IsLine.end_lt {text before line after before' line' after' : List Char} {k k' : Nat}
    (h : IsLine text k before line after) (h' : IsLine text k' before' line' after') (hlt : k < k') :
    byteLength (before ++ line) < byteLength before' := by
  refine Nat.lt_of_not_le fun hle => ?_
  have hsame : before' ++ (line' ++ after') = before ++ line ++ after := by
    rw [← List.append_assoc, ← h'.text_eq, h.text_eq]
  obtain ⟨mid, hmid⟩ := exists_append_of_le hsame hle
  have hcount := h.count_eq
  rw [hmid, List.count_append, h'.number_eq] at hcount
  omega

theorem exists_isLine {text before rest : List Char} (h : text = before ++ rest)
    (hstarts : EndsLines before) :
    ∃ line after, IsLine text (before.count '\n') before line after ∧ rest = line ++ after := by
  have hrest : rest = rest.takeWhile (· != '\n') ++ rest.dropWhile (· != '\n') :=
    List.takeWhile_append_dropWhile.symm
  refine ⟨_, _, ⟨by rw [List.append_assoc, ← hrest, h], rfl, hstarts, ?_, ?_⟩, hrest⟩
  · intro hm
    simpa using List.all_eq_true.mp List.all_takeWhile _ hm
  · cases hafter : rest.dropWhile (· != '\n') with
    | nil => exact .inl rfl
    | cons c after =>
      have hc := List.head?_dropWhile_not (· != '\n') rest
      rw [hafter] at hc
      exact .inr ⟨after, by simpa using hc⟩

end Text

theorem Position.lt_of_not_le {p q : Position} (h : ¬q ≤ p) : p < q := by
  rw [Position.le_iff] at h
  rw [Position.lt_iff]
  omega

open Text

namespace Line

theorem exists_newline_cons {c : Char} {cs : List Char} {P : List Char → List Char → Prop} :
    (∃ front rest, c :: cs = front ++ '\n' :: rest ∧ P front rest) ↔
      c = '\n' ∧ P [] cs ∨ ∃ front rest, cs = front ++ '\n' :: rest ∧ P (c :: front) rest := by
  constructor
  · rintro ⟨front, rest, hcs, h⟩
    cases front with
    | nil =>
      cases hcs
      exact .inl ⟨rfl, h⟩
    | cons d front =>
      cases hcs
      exact .inr ⟨front, rest, rfl, h⟩
  · rintro (⟨rfl, h⟩ | ⟨front, rest, rfl, h⟩)
    · exact ⟨[], cs, rfl, h⟩
    · exact ⟨c :: front, rest, rfl, h⟩

theorem getElem?_following {offset k : Nat} {cs : List Char} {l : Line} :
    (following offset cs)[k]? = some l ↔ ∃ front rest, cs = front ++ '\n' :: rest ∧
      front.count '\n' = k ∧ l = ⟨offset + byteLength (front ++ ['\n']), rest⟩ := by
  induction cs generalizing offset k with
  | nil => simp [following]
  | cons c cs ih =>
    rw [exists_newline_cons, following]
    split
    · next hc =>
      cases k with
      | zero => simp [hc, byteLength, eq_comm]
      | succ k => simp [ih, hc, byteLength, Nat.add_assoc]
    · next hc => simp [ih, hc, byteLength, Nat.add_assoc]

theorem getElem?_split {text : List Char} {k : Nat} {l : Line} :
    (split text)[k]? = some l ↔ ∃ before rest, text = before ++ rest ∧ before.count '\n' = k ∧
      EndsLines before ∧ l = ⟨byteLength before, rest⟩ := by
  cases k with
  | zero =>
    rw [split, List.getElem?_cons_zero, Option.some.injEq]
    constructor
    · rintro rfl
      exact ⟨[], text, rfl, rfl, .inl rfl, rfl⟩
    · rintro ⟨before, rest, rfl, hcount, rfl | ⟨front, rfl⟩, rfl⟩
      · rfl
      · simp at hcount
  | succ k =>
    rw [split, List.getElem?_cons_succ, getElem?_following]
    constructor
    · rintro ⟨front, rest, rfl, rfl, rfl⟩
      exact ⟨front ++ ['\n'], rest, by simp, by simp, .inr ⟨front, rfl⟩, by simp⟩
    · rintro ⟨before, rest, rfl, hcount, rfl | ⟨front, rfl⟩, rfl⟩
      · cases hcount
      · exact ⟨front, rest, by simp, by simpa using hcount, by simp⟩

theorem bytesTo_line {line after : List Char} (hline : '\n' ∉ line)
    (hafter : after = [] ∨ ∃ rest, after = '\n' :: rest) (target column : Nat) :
    ∃ front rest, line = front ++ rest ∧
      bytesTo target column (line ++ after) = byteLength front ∧
      (target ≤ column + unitLength front ∨ rest = []) ∧
      ∀ front' rest', line = front' ++ rest' → target ≤ column + unitLength front' →
        byteLength front ≤ byteLength front' := by
  induction line generalizing column with
  | nil =>
    refine ⟨[], [], rfl, ?_, .inr rfl, fun _ _ _ _ => Nat.zero_le _⟩
    rcases hafter with rfl | ⟨rest, rfl⟩
    · rfl
    · simp [bytesTo, byteLength]
  | cons c line ih =>
    obtain ⟨hc, hline⟩ := not_or.mp (mt List.mem_cons.mpr hline)
    rw [List.cons_append, bytesTo]
    by_cases htarget : target ≤ column
    · rw [if_pos (.inl htarget)]
      exact ⟨[], c :: line, rfl, rfl, .inl htarget, fun _ _ _ _ => Nat.zero_le _⟩
    · obtain ⟨front, rest, rfl, hbytes, hreach, hleast⟩ := ih hline (column + units c)
      rw [if_neg (not_or.mpr ⟨htarget, Ne.symm hc⟩), hbytes]
      refine ⟨c :: front, rest, rfl, rfl, ?_, fun front' rest' hsplit hreach' => ?_⟩
      · rwa [unitLength, ← Nat.add_assoc]
      · cases front' with
        | nil => exact absurd hreach' htarget
        | cons d front' =>
          obtain ⟨rfl, htail⟩ := List.cons.inj hsplit
          rw [unitLength, ← Nat.add_assoc] at hreach'
          exact Nat.add_le_add_left (hleast front' rest' htail hreach') _

theorem bytesTo_mono {target target' : Nat} (h : target ≤ target') (column : Nat) (cs : List Char) :
    bytesTo target column cs ≤ bytesTo target' column cs := by
  induction cs generalizing column with
  | nil => exact Nat.le_refl 0
  | cons c cs ih =>
    rw [bytesTo, bytesTo]
    split
    · exact Nat.zero_le _
    · next hgo =>
      rw [if_neg fun hstop => hgo (hstop.imp_left (Nat.le_trans h))]
      exact Nat.add_le_add_left (ih _) _

end Line

namespace LineIndex

open Line

variable {text before line after : List Char} {number : Nat}

theorem lines_getElem? (h : IsLine text number before line after) :
    (ofText text).lines[number]? = some ⟨byteLength before, line ++ after⟩ := by
  refine getElem?_split.mpr ⟨before, line ++ after, ?_, h.number_eq, h.starts, rfl⟩
  rw [h.text_eq, List.append_assoc]

theorem exists_isLine_of_lt (h : number < (ofText text).lines.length) :
    ∃ before line after, IsLine text number before line after := by
  obtain ⟨l, hl⟩ : ∃ l, (ofText text).lines[number]? = some l :=
    ⟨_, List.getElem?_eq_getElem h⟩
  obtain ⟨before, rest, htext, rfl, hstarts, -⟩ := getElem?_split.mp hl
  obtain ⟨line, after, hline, -⟩ := exists_isLine htext hstarts
  exact ⟨before, line, after, hline⟩

theorem isLine_iff : (∃ before line after, IsLine text number before line after) ↔
    number < (ofText text).lines.length := by
  refine ⟨?_, exists_isLine_of_lt⟩
  rintro ⟨before, line, after, h⟩
  exact (List.getElem?_eq_some_iff.mp (lines_getElem? h)).1

theorem position_isLine (h : IsLine text number before line after) {front rest : List Char}
    (hline : line = front ++ rest) :
    (ofText text).position (byteLength before + byteLength front) =
      ⟨number.toUInt32, (unitLength front).toUInt32⟩ := by
  obtain ⟨before', front', hfront, hstarts, hunbroken, hfound⟩ :=
    exists_lineAt (before ++ front) (rest ++ after)
  have hunbroken' : '\n' ∉ front := fun hm => h.unbroken (hline ▸ List.mem_append_left _ hm)
  obtain ⟨rfl, rfl⟩ := h.starts.append_inj hstarts hunbroken' hunbroken hfront
  have htext : text = before ++ front ++ (rest ++ after) := by
    rw [h.text_eq, hline]
    simp
  have hposition := position_eq hfront hfound
  rwa [← htext, byteLength_append, h.number_eq] at hposition

theorem position_toNat (hsize : byteLength text < 0x100000000)
    (h : IsLine text number before line after) {front rest : List Char}
    (hline : line = front ++ rest) :
    let p := (ofText text).position (byteLength before + byteLength front)
    p.line.toNat = number ∧ p.character.toNat = unitLength front := by
  intro p
  have hnumber := count_le_byteLength '\n' before
  have hunits := unitLength_le_byteLength front
  rw [h.text_eq, hline] at hsize
  rw [h.number_eq] at hnumber
  simp only [byteLength_append] at hsize
  have hp : p = ⟨number.toUInt32, (unitLength front).toUInt32⟩ := position_isLine h hline
  rw [hp]
  exact ⟨Nat.mod_eq_of_lt (by omega), Nat.mod_eq_of_lt (by omega)⟩

def boundariesFrom (text before line : List Char) (column : UInt32) : Set Nat :=
  {o | IsBoundary text o ∧ byteLength before ≤ o ∧ o ≤ byteLength before + byteLength line ∧
    column ≤ ((ofText text).position o).character}

theorem exists_front (h : IsLine text number before line after) {o : Nat} (hb : IsBoundary text o)
    (hstart : byteLength before ≤ o) (hend : o ≤ byteLength before + byteLength line) :
    ∃ front rest, line = front ++ rest ∧ o = byteLength before + byteLength front := by
  obtain ⟨front, rest, htext, rfl⟩ := hb
  have hsame : before ++ (line ++ after) = front ++ rest := by
    rw [← List.append_assoc, ← h.text_eq, htext]
  obtain ⟨mid, rfl⟩ := exists_append_of_le hsame hstart
  rw [List.append_assoc, List.append_cancel_left_eq] at hsame
  rw [byteLength_append] at hend
  obtain ⟨more, hmore⟩ := exists_append_of_le hsame.symm (by omega)
  exact ⟨mid, more, hmore, byteLength_append before mid⟩

theorem mem_boundariesFrom (hsize : byteLength text < 0x100000000)
    (h : IsLine text number before line after) {column : UInt32} {o : Nat} :
    o ∈ boundariesFrom text before line column ↔ ∃ front rest, line = front ++ rest ∧
      o = byteLength before + byteLength front ∧ column.toNat ≤ unitLength front := by
  constructor
  · rintro ⟨hb, hstart, hend, hcolumn⟩
    obtain ⟨front, rest, hline, rfl⟩ := exists_front h hb hstart hend
    rw [UInt32.le_iff_toNat_le, (position_toNat hsize h hline).2] at hcolumn
    exact ⟨front, rest, hline, rfl, hcolumn⟩
  · rintro ⟨front, rest, hline, rfl, hcolumn⟩
    refine ⟨⟨before ++ front, rest ++ after, ?_, byteLength_append before front⟩,
      Nat.le_add_right _ _, ?_, ?_⟩
    · rw [h.text_eq, hline]
      simp
    · rw [hline, byteLength_append]
      omega
    · rwa [UInt32.le_iff_toNat_le, (position_toNat hsize h hline).2]

theorem offset?_eq {p : Position} (h : IsLine text p.line.toNat before line after) :
    (ofText text).offset? p =
      some (byteLength before + bytesTo p.character.toNat 0 (line ++ after)) := by
  rw [offset?, lines_getElem? h, Option.map_some]

theorem offset?_isLine (hsize : byteLength text < 0x100000000) {p : Position}
    (h : IsLine text p.line.toNat before line after) :
    ∃ o, (ofText text).offset? p = some o ∧
      (IsLeast (boundariesFrom text before line p.character) o ∨
        boundariesFrom text before line p.character = ∅ ∧
          o = byteLength before + byteLength line) := by
  obtain ⟨front, rest, hline, hbytes, hreach, hleast⟩ :=
    bytesTo_line h.unbroken h.ends p.character.toNat 0
  simp only [Nat.zero_add] at hreach hleast
  refine ⟨_, offset?_eq h, ?_⟩
  rw [hbytes]
  by_cases hcolumn : p.character.toNat ≤ unitLength front
  · refine .inl ⟨(mem_boundariesFrom hsize h).mpr ⟨front, rest, hline, rfl, hcolumn⟩, fun o ho => ?_⟩
    obtain ⟨front', rest', hline', rfl, hcolumn'⟩ := (mem_boundariesFrom hsize h).mp ho
    exact Nat.add_le_add_left (hleast front' rest' hline' hcolumn') _
  · obtain rfl := hreach.resolve_left hcolumn
    rw [List.append_nil] at hline
    refine .inr ⟨Set.eq_empty_iff_forall_notMem.mpr fun o ho => hcolumn ?_, by rw [hline]⟩
    obtain ⟨front', rest', hline', rfl, hcolumn'⟩ := (mem_boundariesFrom hsize h).mp ho
    rw [← hline, hline', unitLength_append]
    omega

theorem offset?_isSome_iff {p : Position} : ((ofText text).offset? p).isSome ↔
    ∃ before line after, IsLine text p.line.toNat before line after := by
  rw [isLine_iff, offset?, Option.isSome_map, isSome_getElem?]

theorem offset?_eq_none_iff {p : Position} : (ofText text).offset? p = none ↔
    ¬∃ before line after, IsLine text p.line.toNat before line after := by
  rw [← offset?_isSome_iff, Option.not_isSome_iff_eq_none]

theorem offset?_mono {p q : Position} (hpq : p ≤ q) {b : Nat}
    (hq : (ofText text).offset? q = some b) : ∃ a, (ofText text).offset? p = some a ∧ a ≤ b := by
  obtain ⟨before', line', after', hline'⟩ :=
    offset?_isSome_iff.mp (Option.isSome_iff_exists.mpr ⟨b, hq⟩)
  rw [offset?_eq hline', Option.some.injEq] at hq
  subst hq
  rcases Position.le_iff.mp hpq with hlt | ⟨heq, hcolumn⟩
  · have hcount := isLine_iff.mp ⟨before', line', after', hline'⟩
    obtain ⟨before, line, after, hline⟩ := exists_isLine_of_lt (Nat.lt_trans hlt hcount)
    refine ⟨_, offset?_eq hline, ?_⟩
    have hend := hline.end_lt hline' hlt
    obtain ⟨front, rest, rfl, hbytes, -⟩ :=
      bytesTo_line hline.unbroken hline.ends p.character.toNat 0
    rw [hbytes]
    simp only [byteLength_append] at hend
    omega
  · rw [← heq] at hline'
    exact ⟨_, offset?_eq hline', Nat.add_le_add_left (bytesTo_mono hcolumn 0 _) _⟩

theorem position_lt_position {a b : Nat} (hsize : byteLength text < 0x100000000)
    (ha : IsBoundary text a) (hb : IsBoundary text b) (hab : a < b) :
    (ofText text).position a < (ofText text).position b := by
  refine Position.lt_of_not_le fun hle => ?_
  obtain ⟨c, hc, hca⟩ := offset?_mono hle (offset?_position ha hsize)
  rw [offset?_position hb hsize, Option.some.injEq] at hc
  omega

theorem offsets_and_positions_correspond (text : List Char) (hsize : byteLength text < 0x100000000) :
    let index := ofText text
    (∀ a b, IsBoundary text a → IsBoundary text b → a < b → index.position a < index.position b) ∧
      (∀ o, IsBoundary text o → index.offset? (index.position o) = some o) ∧
      (∀ number before line after, IsLine text number before line after →
        ∀ front rest, line = front ++ rest →
          let p := index.position (byteLength before + byteLength front)
          p.line.toNat = number ∧ p.character.toNat = unitLength front) ∧
      (∀ p, index.offset? p = none ↔
        ¬∃ before line after, IsLine text p.line.toNat before line after) ∧
      (∀ p before line after, IsLine text p.line.toNat before line after →
        ∃ o, index.offset? p = some o ∧
          (IsLeast (boundariesFrom text before line p.character) o ∨
            boundariesFrom text before line p.character = ∅ ∧
              o = byteLength before + byteLength line)) ∧
      ∀ p q b, p ≤ q → index.offset? q = some b → ∃ a, index.offset? p = some a ∧ a ≤ b := by
  intro index
  exact ⟨fun a b ha hb => position_lt_position hsize ha hb, fun o ho => offset?_position ho hsize,
    fun number before line after h front rest hline => position_toNat hsize h hline,
    fun p => offset?_eq_none_iff, fun p before line after h => offset?_isLine hsize h,
    fun p q b hpq => offset?_mono hpq⟩

theorem offsets_and_positions_correspond_inside_pair :
    let text := ['a', '\r', '\n', '😀', 'b', '\n']
    byteLength text < 0x100000000 ∧ IsLine text 1 ['a', '\r', '\n'] ['😀', 'b'] ['\n'] ∧
      (ofText text).offset? ⟨1, 1⟩ = some 7 ∧
      IsLeast (boundariesFrom text ['a', '\r', '\n'] ['😀', 'b'] 1) 7 ∧
      (ofText text).position 3 < (ofText text).position 7 ∧ (ofText text).offset? ⟨3, 0⟩ = none := by
  intro text
  have hsize : byteLength text < 0x100000000 := by decide
  have hline : IsLine text 1 ['a', '\r', '\n'] ['😀', 'b'] ['\n'] :=
    ⟨rfl, rfl, .inr ⟨['a', '\r'], rfl⟩, by decide, .inr ⟨[], rfl⟩⟩
  obtain ⟨hlt, -, -, -, hoffset, -⟩ := offsets_and_positions_correspond text hsize
  obtain ⟨o, ho, hleast⟩ := hoffset ⟨1, 1⟩ _ _ _ hline
  have hseven : (ofText text).offset? ⟨1, 1⟩ = some 7 := by decide
  obtain rfl : o = 7 := Option.some.inj (ho.symm.trans hseven)
  refine ⟨hsize, hline, hseven, hleast.resolve_right fun h => absurd h.2 (by decide),
    hlt 3 7 (by decide) (by decide) (by decide), by decide⟩

end LineIndex

end SemanticIndex
