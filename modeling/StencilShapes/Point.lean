import StencilShapes.Coord

/-!
# Points of the grid

A point has one coordinate per dimension.  Bounds, offsets, sizes and unroll
factors are all points.  Two points combine only if they have the same rank,
and only if every coordinate of the result is in range; the rank is looked at
first.

**Main statements.**
* `Point.combine_rank`: points of different rank never combine.
-/

namespace StencilShapes

abbrev Point := List Coord

/-- Why two points do not combine. -/
inductive PointFault where
  | rankMismatch (left right : Nat)
  /-- A coordinate of the result is out of range. -/
  | overflow
  deriving DecidableEq

/-- The wording of a fault. -/
def PointFault.message : PointFault → String
  | .rankMismatch left right => s!"indices of rank {left} and {right} do not match"
  | .overflow => "index arithmetic overflows i64"

namespace Point

/-- Combines coordinates pairwise, where `f` refuses a result out of range. -/
def zip? (f : Coord → Coord → Option Coord) : Point → Point → Option Point
  | a :: p, b :: q =>
      match f a b, zip? f p q with
      | some c, some r => some (c :: r)
      | _, _ => none
  | _, _ => some []

/-- Combines two points of one rank. -/
def combine (f : Coord → Coord → Option Coord) (p q : Point) : Except PointFault Point :=
  if p.length = q.length then
    match zip? f p q with
    | some r => .ok r
    | none => .error .overflow
  else .error (.rankMismatch p.length q.length)

/-- The sum of two points. -/
def add (p q : Point) : Except PointFault Point :=
  combine Coord.add? p q

/-- The difference of two points. -/
def sub (p q : Point) : Except PointFault Point :=
  combine Coord.sub? p q

/-- The lesser coordinate in each dimension. -/
def min (p q : Point) : Except PointFault Point :=
  combine (fun a b => some (Coord.min a b)) p q

/-- The greater coordinate in each dimension. -/
def max (p q : Point) : Except PointFault Point :=
  combine (fun a b => some (Coord.max a b)) p q

/-- Takes `u - 1` off each coordinate: the width that a body unrolled by `u`
covers by itself.  The difference has to be in range before the one is given back. -/
def shrink (p u : Point) : Except PointFault Point :=
  combine (fun a b => (Coord.sub? a b).bind (Coord.add? · Coord.one)) p u

/-- The product of all coordinates, if every product on the way from the left
is in range; one for a point without dimensions. -/
def volume? (p : Point) : Option Coord :=
  p.foldlM Coord.mul? Coord.one

def text (p : Point) : String :=
  "[" ++ ", ".intercalate (p.map Coord.text) ++ "]"

theorem combine_rank {f : Coord → Coord → Option Coord} {p q : Point}
    (h : p.length ≠ q.length) :
    combine f p q = .error (.rankMismatch p.length q.length) := by
  simp [combine, h]

end Point

end StencilShapes
