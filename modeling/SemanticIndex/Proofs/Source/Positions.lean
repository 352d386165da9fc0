import SemanticIndex.Source.Line

namespace SemanticIndex

namespace Text

theorem units_pos (c : Char) : 0 < units c := by
  unfold units
  split <;> omega

theorem units_le_utf8Size (c : Char) : units c ≤ c.utf8Size := by
  have hpos := c.utf8Size_pos
  unfold units
  split
  · exact hpos
  · next hbig =>
    have hone : c.utf8Size ≠ 1 := by
      intro h
      have hsmall := UInt32.le_iff_toNat_le.mp (Char.utf8Size_eq_one_iff.mp h)
      rw [UInt32.lt_iff_toNat_lt] at hbig
      simp only [UInt32.reduceToNat] at hsmall hbig
      omega
    omega

theorem unitLength_le_byteLength (cs : List Char) : unitLength cs ≤ byteLength cs := by
  induction cs with
  | nil => exact Nat.le_refl 0
  | cons c cs ih => exact Nat.add_le_add (units_le_utf8Size c) ih

def IsBoundary (text : List Char) (n : Nat) : Prop :=
  ∃ front rest, text = front ++ rest ∧ byteLength front = n

theorem IsBoundary.le {text : List Char} {n : Nat} (h : IsBoundary text n) :
    n ≤ byteLength text := by
  obtain ⟨front, rest, rfl, rfl⟩ := h
  rw [byteLength_append]
  exact Nat.le_add_right _ _

theorem isBoundary_iff {text : List Char} {n : Nat} :
    IsBoundary text n ↔ (takeBytes? n text).isSome = true := by
  constructor
  · rintro ⟨front, rest, rfl, rfl⟩
    rw [takeBytes?_append]
    rfl
  · intro h
    induction text generalizing n with
    | nil =>
      cases n with
      | zero => exact ⟨[], [], rfl, rfl⟩
      | succ n => cases h
    | cons c text ih =>
      cases n with
      | zero => exact ⟨[], c :: text, rfl, rfl⟩
      | succ n =>
        unfold takeBytes? at h
        split at h
        · next hle =>
          obtain ⟨front, rest, rfl, hlen⟩ := ih (Option.isSome_map ▸ h)
          exact ⟨c :: front, rest, rfl, by rw [byteLength, hlen]; omega⟩
        · cases h

instance (text : List Char) (n : Nat) : Decidable (IsBoundary text n) :=
  decidable_of_iff _ isBoundary_iff.symm

def EndsLines (text : List Char) : Prop :=
  text = [] ∨ ∃ front, text = front ++ ['\n']

theorem EndsLines.after {text : List Char} (h : EndsLines text) (front : List Char) :
    EndsLines (front ++ '\n' :: text) := by
  rcases h with rfl | ⟨more, rfl⟩
  · exact .inr ⟨front, rfl⟩
  · exact .inr ⟨front ++ '\n' :: more, by simp⟩

theorem count_le_byteLength (c : Char) (text : List Char) : text.count c ≤ byteLength text := by
  induction text with
  | nil => exact Nat.le_refl 0
  | cons d text ih =>
    have hpos := d.utf8Size_pos
    rw [List.count_cons, byteLength]
    split <;> omega

end Text

open Text

namespace Line

theorem bytesTo_append {front : List Char} (rest : List Char) (h : '\n' ∉ front) (column : Nat) :
    bytesTo (column + unitLength front) column (front ++ rest) = byteLength front := by
  induction front generalizing column with
  | nil => cases rest <;> simp [bytesTo, unitLength, byteLength]
  | cons c front ih =>
    obtain ⟨hc, hfront⟩ := not_or.mp (mt List.mem_cons.mpr h)
    have hpos := units_pos c
    have hgo : ¬(column + (units c + unitLength front) ≤ column ∨ c = '\n') := by
      rintro (hle | rfl)
      · omega
      · exact hc rfl
    rw [List.cons_append, unitLength, bytesTo, if_neg hgo, byteLength, ← Nat.add_assoc,
      ih hfront (column + units c)]

theorem lt_start_of_mem_following {offset : Nat} {cs : List Char} {l : Line}
    (h : l ∈ following offset cs) : offset < l.start := by
  induction cs generalizing offset with
  | nil => cases h
  | cons c cs ih =>
    have hpos := c.utf8Size_pos
    have hlater (hl : l ∈ following (offset + c.utf8Size) cs) : offset < l.start := by
      have := ih hl
      omega
    unfold following at h
    split at h
    · rcases List.mem_cons.mp h with rfl | hl
      · exact Nat.lt_add_of_pos_right hpos
      · exact hlater hl
    · exact hlater h

end Line

namespace LineIndex

open Line

theorem lineAt_getElem? (offset number : Nat) (l : Line) (rest : List Line) :
    number ≤ (lineAt offset number l rest).1 ∧
      (l :: rest)[(lineAt offset number l rest).1 - number]? =
        some (lineAt offset number l rest).2 := by
  induction rest generalizing number l with
  | nil => simp [lineAt]
  | cons next rest ih =>
    unfold lineAt
    split
    · obtain ⟨hle, hget⟩ := ih (number + 1) next
      refine ⟨by omega, ?_⟩
      rwa [show (lineAt offset (number + 1) next rest).1 - number =
        (lineAt offset (number + 1) next rest).1 - (number + 1) + 1 by omega,
        List.getElem?_cons_succ]
    · simp

theorem lineAt_of_lt {offset number : Nat} {l : Line} {rest : List Line}
    (h : ∀ next ∈ rest, offset < next.start) : lineAt offset number l rest = (number, l) := by
  cases rest with
  | nil => rfl
  | cons next rest =>
    have := h next List.mem_cons_self
    rw [lineAt, if_neg (by omega)]

theorem lineAt_newline {offset k : Nat} (h : k + ('\n' : Char).utf8Size ≤ offset) (number : Nat)
    (l : Line) (cs : List Char) :
    lineAt offset number l (following k ('\n' :: cs)) =
      lineAt offset (number + 1) ⟨k + ('\n' : Char).utf8Size, cs⟩
        (following (k + ('\n' : Char).utf8Size) cs) := by
  rw [following, if_pos rfl, lineAt, if_pos h]

theorem lineAt_following (start number : Nat) (passed front rest : List Char)
    (hp : '\n' ∉ passed) :
    ∃ before line, passed ++ front = before ++ line ∧ EndsLines before ∧ '\n' ∉ line ∧
      lineAt (start + byteLength passed + byteLength front) number ⟨start, passed ++ front ++ rest⟩
        (following (start + byteLength passed) (front ++ rest)) =
      (number + before.count '\n', ⟨start + byteLength before, line ++ rest⟩) := by
  induction front generalizing start number passed with
  | nil =>
    refine ⟨[], passed, by simp, .inl rfl, hp, ?_⟩
    rw [lineAt_of_lt]
    · simp [byteLength]
    · intro next hn
      simpa [byteLength] using lt_start_of_mem_following hn
  | cons c front ih =>
    by_cases hc : c = '\n'
    · subst hc
      obtain ⟨before, line, hsplit, hends, hline, hfound⟩ :=
        ih (start + byteLength passed + ('\n' : Char).utf8Size) (number + 1) [] List.not_mem_nil
      refine ⟨passed ++ '\n' :: before, line, by simpa using hsplit, hends.after passed, hline, ?_⟩
      have hnumber : number + (passed ++ '\n' :: before).count '\n' =
          number + 1 + before.count '\n' := by
        rw [List.count_append, List.count_eq_zero.mpr hp, List.count_cons_self]
        omega
      have hstart : start + byteLength (passed ++ '\n' :: before) =
          start + byteLength passed + ('\n' : Char).utf8Size + byteLength before := by
        simp only [byteLength_append, byteLength]
        omega
      have hoffset : start + byteLength passed + byteLength ('\n' :: front) =
          start + byteLength passed + ('\n' : Char).utf8Size + byteLength front := by
        simp only [byteLength]
        omega
      rw [hnumber, hstart, hoffset, List.cons_append, lineAt_newline (Nat.le_add_right _ _)]
      exact hfound
    · have hmore : '\n' ∉ passed ++ [c] := by simp [hp, Ne.symm hc]
      obtain ⟨before, line, hsplit, hends, hline, hfound⟩ := ih start number (passed ++ [c]) hmore
      refine ⟨before, line, by simpa using hsplit, hends, hline, ?_⟩
      rw [← hfound, List.cons_append, following, if_neg hc]
      simp [byteLength, Nat.add_assoc]

theorem exists_lineAt (front rest : List Char) :
    ∃ before line, front = before ++ line ∧ EndsLines before ∧ '\n' ∉ line ∧
      lineAt (byteLength front) 0 ⟨0, front ++ rest⟩ (following 0 (front ++ rest)) =
        (before.count '\n', ⟨byteLength before, line ++ rest⟩) := by
  simpa [byteLength] using lineAt_following 0 0 [] front rest List.not_mem_nil

theorem position_eq {front rest before line : List Char} (hfront : front = before ++ line)
    (h : lineAt (byteLength front) 0 ⟨0, front ++ rest⟩ (following 0 (front ++ rest)) =
      (before.count '\n', ⟨byteLength before, line ++ rest⟩)) :
    (ofText (front ++ rest)).position (byteLength front) =
      ⟨(before.count '\n').toUInt32, (unitLength line).toUInt32⟩ := by
  have hlen : byteLength front - byteLength before = byteLength line := by
    rw [hfront, byteLength_append]
    omega
  have hle : byteLength front ≤ byteLength (front ++ rest) := by
    rw [byteLength_append]
    omega
  simp only [position, ofText, Nat.min_eq_left hle, split, h, column, hlen, takeBytes?_append]

theorem offset?_position {text : List Char} {n : Nat} (hn : IsBoundary text n)
    (hsize : byteLength text < 0x100000000) :
    (ofText text).offset? ((ofText text).position n) = some n := by
  have hle := hn.le
  obtain ⟨front, rest, rfl, rfl⟩ := hn
  obtain ⟨before, line, hfront, -, hline, hfound⟩ := exists_lineAt front rest
  have hlength : byteLength front = byteLength before + byteLength line := by
    rw [hfront, byteLength_append]
  have hnumber := count_le_byteLength '\n' before
  have hunits := unitLength_le_byteLength line
  have hnumber32 : (before.count '\n').toUInt32.toNat = before.count '\n' :=
    Nat.mod_eq_of_lt (by omega)
  have hcolumn32 : (unitLength line).toUInt32.toNat = unitLength line := Nat.mod_eq_of_lt (by omega)
  have hget := (lineAt_getElem? (byteLength front) 0 ⟨0, front ++ rest⟩
    (following 0 (front ++ rest))).2
  rw [hfound] at hget
  have hline? : (ofText (front ++ rest)).lines[before.count '\n']? =
      some ⟨byteLength before, line ++ rest⟩ := hget
  have hwalk := bytesTo_append rest hline 0
  rw [Nat.zero_add] at hwalk
  rw [position_eq hfront hfound]
  simp only [offset?, hnumber32, hline?, hcolumn32, hwalk, Option.map_some, hlength]

end LineIndex

end SemanticIndex
