import SemanticIndex.Json.Text
import SemanticIndex.Proofs.Text.ByteOrder

namespace SemanticIndex

def OneLine (s : String) : Prop := '\n' ∉ s.toList

instance (s : String) : Decidable (OneLine s) := inferInstanceAs (Decidable ('\n' ∉ s.toList))

namespace OneLine

theorem append {s t : String} (hs : OneLine s) (ht : OneLine t) : OneLine (s ++ t) := by
  simp only [OneLine, String.toList_append, List.mem_append, not_or]
  exact ⟨hs, ht⟩

theorem ofList_of_sublist {s : String} (hs : OneLine s) {cs : List Char}
    (h : cs.Sublist s.toList) : OneLine (String.ofList cs) := by
  rw [OneLine, String.toList_ofList]
  exact fun hc => hs (h.subset hc)

theorem nat (n : Nat) : OneLine (toString n) := by
  intro h
  have hdigit : '\n' ∈ Nat.toDigits 10 n := by
    simpa [toString, Nat.repr_eq_ofList_toDigits] using h
  exact absurd (Nat.isDigit_of_mem_toDigits (by decide) (by decide) hdigit) (by decide)

theorem int (n : Int) : OneLine (toString n) := by
  cases n with
  | ofNat n => exact nat n
  | negSucc n => exact (show OneLine "-" by decide).append (nat (n + 1))

theorem zeros (n : Nat) : OneLine (Double.zeros n) := by
  simp [OneLine, Double.zeros, List.mem_replicate]

theorem double (d : Double) : OneLine d.render := by
  unfold Double.render
  have hsign : OneLine (if d.negative then "-" else "") := by split <;> decide
  extract_lets sign
  split
  · exact hsign.append (by decide)
  · obtain ⟨digits, power⟩ := d.shortest
    dsimp only
    have htext := nat digits
    generalize toString digits = text at htext
    generalize (text.toList.length : Int) + power = point
    have hsub {cs : List Char} (h : cs.Sublist text.toList) : OneLine (String.ofList cs) :=
      htext.ofList_of_sublist h
    have hall := hsub (List.Sublist.refl text.toList)
    have hfirst (n : Nat) := hsub (List.take_sublist n text.toList)
    have hrest (n : Nat) := hsub (List.drop_sublist n text.toList)
    refine hsign.append ?_
    split
    · exact (hall.append (zeros _)).append (by decide)
    split
    · exact ((hfirst _).append (by decide)).append (hrest _)
    split
    · exact ((show OneLine "0." by decide).append (zeros _)).append hall
    · have htail : OneLine (if text.toList.length = 1 then "" else
          "." ++ String.ofList (text.toList.drop 1)) := by
        split
        · decide
        · exact (show OneLine "." by decide).append (hrest 1)
      exact (((hfirst 1).append htail).append (by decide)).append (int _)

theorem number (n : Number) : OneLine n.render := by
  cases n with
  | int value => exact int value
  | double value => exact double value

theorem hexDigit_ne : ∀ n < 16, Json.hexDigit n ≠ '\n' := by
  decide

theorem escapeChar (c : Char) : '\n' ∉ Json.escapeChar c := by
  unfold Json.escapeChar
  split_ifs with _ _ hbreak _ _ _ _ hlow
  any_goals decide
  · have hhigh := hexDigit_ne (c.toNat / 16) (by omega)
    have hrest := hexDigit_ne (c.toNat % 16) (by omega)
    simp [hhigh.symm, hrest.symm]
  · simpa [eq_comm] using hbreak

theorem quote (s : String) : OneLine (Json.quote s) := by
  have hbody : OneLine (String.ofList (s.toList.flatMap Json.escapeChar)) := by
    rw [OneLine, String.toList_ofList, List.mem_flatMap]
    rintro ⟨c, -, hc⟩
    exact escapeChar c hc
  exact ((show OneLine "\"" by decide).append hbody).append (by decide)

end OneLine

namespace Json

mutual

theorem oneLine_render (j : Json) : OneLine j.render := by
  cases j with
  | null => exact (show OneLine "null" by decide)
  | bool value => cases value <;> decide
  | number value => exact .number value
  | string value => exact .quote value
  | array items =>
    exact ((show OneLine "[" by decide).append (oneLine_renderItems items)).append (by decide)
  | object members =>
    exact ((show OneLine "\x7b" by decide).append (oneLine_renderMembers members)).append (by decide)

theorem oneLine_renderItems (items : List Json) : OneLine (renderItems items) := by
  match items with
  | [] => decide
  | [item] => exact oneLine_render item
  | item :: next :: rest =>
    exact ((oneLine_render item).append (by decide)).append (oneLine_renderItems (next :: rest))

theorem oneLine_renderMembers (members : List (String × Json)) : OneLine (renderMembers members) := by
  match members with
  | [] => decide
  | [(key, value)] =>
    exact ((OneLine.quote key).append (by decide)).append (oneLine_render value)
  | (key, value) :: next :: rest =>
    exact ((((OneLine.quote key).append (by decide)).append (oneLine_render value)).append
      (by decide)).append (oneLine_renderMembers (next :: rest))

end

end Json

theorem OneLine.not_mem_utf8 {s : String} (h : OneLine s) : 10 ∉ Text.utf8 s := by
  rw [Text.utf8_eq_flatMap, List.mem_flatMap]
  rintro ⟨c, hc, hmem⟩
  have hchar : c.val.toNat ≠ 10 := fun hten =>
    h ((Char.ext (UInt32.toNat_inj.mp hten) : c = '\n') ▸ hc)
  simp only [String.utf8EncodeChar] at hmem
  generalize c.val.toNat = v at *
  split_ifs at hmem <;>
    simp only [List.mem_cons, List.not_mem_nil, or_false, ← UInt8.toNat_inj, UInt8.toNat_ofNat',
      UInt8.reduceToNat] at hmem <;>
    omega

end SemanticIndex
