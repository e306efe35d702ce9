/-!
# Coordinates

A coordinate is an integer of 64 bits.  Arithmetic on coordinates never wraps:
a sum, difference or product is computed over the integers and is a coordinate
again only if it still lies in the range.

**Main statements.**
* `Coord.ofInt?_eq_some`: reading an integer as a coordinate keeps its value.
* `Coord.ofInt?_isSome`: the range is the only reason for refusing an integer.
-/

namespace StencilShapes

/-- An integer between `-2 ^ 63` and `2 ^ 63 - 1`. -/
structure Coord where
  val : Int
  inRange : -9223372036854775808 ≤ val ∧ val ≤ 9223372036854775807 := by decide
  deriving DecidableEq

namespace Coord

/-- The integer as a coordinate, if it lies in the range. -/
def ofInt? (n : Int) : Option Coord :=
  if h : -9223372036854775808 ≤ n ∧ n ≤ 9223372036854775807 then some ⟨n, h⟩ else none

def one : Coord := ⟨1, by decide⟩

/-- The sum, if it is a coordinate. -/
def add? (a b : Coord) : Option Coord :=
  ofInt? (a.val + b.val)

/-- The difference, if it is a coordinate. -/
def sub? (a b : Coord) : Option Coord :=
  ofInt? (a.val - b.val)

/-- The product, if it is a coordinate. -/
def mul? (a b : Coord) : Option Coord :=
  ofInt? (a.val * b.val)

/-- The lesser of two coordinates. -/
def min (a b : Coord) : Coord :=
  if a.val ≤ b.val then a else b

/-- The greater of two coordinates. -/
def max (a b : Coord) : Coord :=
  if a.val ≤ b.val then b else a

/-- The decimal digits, after a minus sign for a negative coordinate. -/
def text (a : Coord) : String :=
  toString a.val

theorem ofInt?_eq_some {n : Int} {a : Coord} : ofInt? n = some a ↔ a.val = n := by
  unfold ofInt?
  split
  · constructor
    · intro h
      cases h
      rfl
    · intro h
      cases a
      subst h
      rfl
  · constructor
    · intro h
      cases h
    · intro h
      exact absurd (h ▸ a.inRange) ‹_›

theorem ofInt?_isSome {n : Int} :
    (ofInt? n).isSome ↔ -9223372036854775808 ≤ n ∧ n ≤ 9223372036854775807 := by
  unfold ofInt?
  split <;> simp_all

theorem val_min (a b : Coord) : (min a b).val = Min.min a.val b.val := by
  unfold min
  split <;> omega

theorem val_max (a b : Coord) : (max a b).val = Max.max a.val b.val := by
  unfold max
  split <;> omega

end Coord

end StencilShapes
