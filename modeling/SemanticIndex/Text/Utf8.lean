namespace SemanticIndex.Text

structure Lead where
  bits : Nat
  more : Nat
  low : Nat
  high : Nat

def Lead.of? (b : Nat) : Option Lead :=
  if b < 0x80 then some ⟨b, 0, 0, 0⟩
  else if b < 0xC2 then none
  else if b < 0xE0 then some ⟨b - 0xC0, 1, 0x80, 0xBF⟩
  else if b = 0xE0 then some ⟨0, 2, 0xA0, 0xBF⟩
  else if b = 0xED then some ⟨0xD, 2, 0x80, 0x9F⟩
  else if b < 0xF0 then some ⟨b - 0xE0, 2, 0x80, 0xBF⟩
  else if b = 0xF0 then some ⟨0, 3, 0x90, 0xBF⟩
  else if b < 0xF4 then some ⟨b - 0xF0, 3, 0x80, 0xBF⟩
  else if b = 0xF4 then some ⟨4, 3, 0x80, 0x8F⟩
  else none

def continuation (acc : Nat) : (more low high : Nat) → List UInt8 → Option Char × Nat
  | 0, _, _, _ => (some (Char.ofNat acc), 0)
  | _ + 1, _, _, [] => (none, 0)
  | more + 1, low, high, b :: bs =>
      if low ≤ b.toNat ∧ b.toNat ≤ high then
        let (c, n) := continuation (acc * 64 + (b.toNat - 0x80)) more 0x80 0xBF bs
        (c, n + 1)
      else (none, 0)

def firstChar (b : UInt8) (bs : List UInt8) : Option Char × Nat :=
  match Lead.of? b.toNat with
  | none => (none, 0)
  | some lead => continuation lead.bits lead.more lead.low lead.high bs

def decodeRuns : List UInt8 → List (Option Char)
  | [] => []
  | b :: bs => (firstChar b bs).1 :: decodeRuns (bs.drop (firstChar b bs).2)
termination_by bytes => bytes.length
decreasing_by
  have := (List.drop_sublist (firstChar b bs).2 bs).length_le
  simp only [List.length_cons]
  omega

def decodeLossy (bytes : List UInt8) : List Char :=
  (decodeRuns bytes).map (·.getD '\uFFFD')

def decode? (bytes : List UInt8) : Option (List Char) :=
  (decodeRuns bytes).mapM id

def encode (text : String) : List UInt8 :=
  text.toUTF8.toList

end SemanticIndex.Text
