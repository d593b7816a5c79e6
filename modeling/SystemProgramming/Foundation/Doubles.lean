import Mathlib.Tactic

/-!
# Comparing doubles

A double is its 64 bits. Without the sign, a larger value has larger bits, from zero over the
subnormal and the normal numbers to infinity, and everything above infinity is NaN. So numbers
are compared by their bits, the two zeros are equal, and a NaN is neither less nor greater than
anything.

## Main definitions

* `Double`, `Double.isNan`: the bits, and those that are no number
* `Double.place`: where a number stands among the numbers

## Main results

* `Double.lt_iff`: numbers are ordered by their place
-/

namespace SystemProgramming

/-- A `double`. -/
structure Double where
  bits : BitVec 64
  deriving DecidableEq

namespace Double

/-- The bits without the sign. -/
def magnitude (d : Double) : Nat := d.bits.toNat % 2 ^ 63

/-- Above the bits of infinity there is no number. -/
def isNan (d : Double) : Bool := 0x7FF0000000000000 < d.magnitude

/-- Where the value stands among the numbers. Both zeros stand at 0. -/
def place (d : Double) : Int := if d.bits.msb then -d.magnitude else d.magnitude

/-- `<` of C. -/
instance : LT Double := ⟨fun a b => a.isNan = false ∧ b.isNan = false ∧ a.place < b.place⟩

instance : DecidableLT Double := fun a b =>
  inferInstanceAs (Decidable (a.isNan = false ∧ b.isNan = false ∧ a.place < b.place))

variable {a b : Double}

theorem lt_iff (ha : a.isNan = false) (hb : b.isNan = false) : a < b ↔ a.place < b.place :=
  ⟨fun h => h.2.2, fun h => ⟨ha, hb, h⟩⟩

end Double

end SystemProgramming
