import StencilShapes.Point

/-!
# Extents

An extent is the least box that holds a set of offsets.  It starts with one
offset and is widened by others of the same rank; a step that fails leaves the
extent as it was.
-/

namespace StencilShapes

/-- The least and the greatest offset in each dimension. -/
structure Extent where
  negative : Point
  positive : Point
  deriving DecidableEq

namespace Extent

/-- The extent of one offset. -/
def single (offset : Point) : Extent :=
  { negative := offset, positive := offset }

/-- The extent that holds one more offset. -/
def widen (e : Extent) (offset : Point) : Except PointFault Extent :=
  match Point.min e.negative offset with
  | .error fault => .error fault
  | .ok negative =>
      match Point.max e.positive offset with
      | .error fault => .error fault
      | .ok positive => .ok { negative, positive }

/-- Widens by one offset if that is possible, and tells the fault if it is not. -/
def step (e : Extent) (offset : Point) : Extent × Option PointFault :=
  match e.widen offset with
  | .ok e' => (e', none)
  | .error fault => (e, some fault)

/-- Widens by one offset after the other; after each one, the extent and the fault of that step. -/
def trace (e : Extent) : List Point → List (Extent × Option PointFault)
  | [] => []
  | offset :: offsets => e.step offset :: (e.step offset).1.trace offsets

/-- The extent of a body that computes a block of cells at once: what the block
covers by itself is taken off the positive end. -/
def unroll (e : Extent) (block : Point) : Except PointFault Extent :=
  match Point.shrink e.positive block with
  | .error fault => .error fault
  | .ok positive => .ok { e with positive }

end Extent

end StencilShapes
