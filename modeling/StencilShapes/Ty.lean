import StencilShapes.Point

/-!
# Element types, value types and bounds

A value is a scalar, a field of external storage or a temp that flows between
operations.  A temp starts without a shape and is given one when its domain is
known.  A field may have so many dimensions that its type cannot be written down.
Bounds are the half-open box of points on which an operation works.
-/

namespace StencilShapes

/-- What one grid cell holds. -/
inductive Element where
  | f32
  | f64
  | i32
  | i64
  deriving DecidableEq

namespace Element

def all : List Element := [.f32, .f64, .i32, .i64]

/-- The spelling of an element. -/
def text : Element → String
  | .f32 => "f32"
  | .f64 => "f64"
  | .i32 => "i32"
  | .i64 => "i64"

/-- The element of a spelling. -/
def ofText? (s : String) : Option Element :=
  all.find? (·.text == s)

instance : Inhabited Element := ⟨.f64⟩

end Element

/-- The number of bytes that a text can have, `2 ^ 63 - 1`. -/
def textLimit : Nat :=
  9223372036854775807

/-- The type of a value. -/
inductive Ty where
  /-- One cell, as it flows inside the body of an apply. -/
  | scalar (element : Element)
  /-- Storage that is passed into a function. -/
  | field (element : Element) (rank : Nat)
  /-- A grid that flows between operations; it has a shape once that is inferred. -/
  | temp (element : Element) (shape : Option Point)
  deriving DecidableEq

namespace Ty

/-- The element of the cells. -/
def element : Ty → Element
  | .scalar e => e
  | .field e _ => e
  | .temp e _ => e

/-- A temp is a grid that flows between operations. -/
def isTemp : Ty → Bool
  | .temp _ _ => true
  | _ => false

/-- The shape of a temp that has one. -/
def shape? : Ty → Option Point
  | .temp _ s => s
  | _ => none

/-- A field shows one question mark per dimension, a temp its sizes or a star. -/
def spelling : Ty → String
  | .scalar e => e.text
  | .field e rank => "!stencil.field<" ++ String.join (List.replicate rank "?x") ++ e.text ++ ">"
  | .temp e none => "!stencil.temp<*x" ++ e.text ++ ">"
  | .temp e (some dims) =>
      "!stencil.temp<" ++ String.join (dims.map fun d => d.text ++ "x") ++ e.text ++ ">"

/-- The question marks of a field, two bytes for each dimension, are not more than a text
can have. -/
def fits : Ty → Bool
  | .field _ rank => 2 * rank ≤ textLimit
  | _ => true

/-- The spelling of a type.  The question marks of a field are put together first; where
they do not fit, there is no text. -/
def text (t : Ty) : Option String :=
  if t.fits then some t.spelling else none

instance : Inhabited Ty := ⟨.scalar default⟩

end Ty

/-- The box of points from `lower` on and below `upper`. -/
structure Bounds where
  lower : Point
  /-- The end in each dimension, itself outside the box. -/
  upper : Point
  deriving DecidableEq

namespace Bounds

def rank (b : Bounds) : Nat :=
  b.lower.length

/-- The size in each dimension, if the ends agree in rank and all sizes are in range. -/
def shape? (b : Bounds) : Option Point :=
  match Point.sub b.upper b.lower with
  | .ok s => some s
  | .error _ => none

def text (b : Bounds) : String :=
  "(" ++ b.lower.text ++ " : " ++ b.upper.text ++ ")"

end Bounds

end StencilShapes
