namespace SemanticIndex

structure Position where
  line : UInt32
  character : UInt32
  deriving DecidableEq, Repr, Inhabited

namespace Position

instance : LT Position where
  lt p q := p.line < q.line ∨ (p.line = q.line ∧ p.character < q.character)

instance : LE Position where
  le p q := p.line < q.line ∨ (p.line = q.line ∧ p.character ≤ q.character)

instance (p q : Position) : Decidable (p < q) :=
  inferInstanceAs (Decidable (_ ∨ _))

instance (p q : Position) : Decidable (p ≤ q) :=
  inferInstanceAs (Decidable (_ ∨ _))

theorem le_iff {p q : Position} :
    p ≤ q ↔ p.line.toNat < q.line.toNat ∨
      (p.line.toNat = q.line.toNat ∧ p.character.toNat ≤ q.character.toNat) := by
  rw [UInt32.toNat_inj]
  rfl

theorem lt_iff {p q : Position} :
    p < q ↔ p.line.toNat < q.line.toNat ∨
      (p.line.toNat = q.line.toNat ∧ p.character.toNat < q.character.toNat) := by
  rw [UInt32.toNat_inj]
  rfl

end Position

structure Range where
  start : Position
  stop : Position
  deriving DecidableEq, Repr, Inhabited

def Range.touches (r : Range) (p : Position) : Bool :=
  r.start ≤ p && p ≤ r.stop

end SemanticIndex
