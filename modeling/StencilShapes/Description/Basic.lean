import StencilShapes.Program.Basic
import StencilShapes.Json.Basic

/-!
# Program descriptions

A description says with names what a program does.  Values of a function are
named once; the body of an apply has names of its own, for its parameters and
for what it computes.
-/

namespace StencilShapes

/-- A field that is passed into a function. -/
structure FieldDesc where
  name : String
  element : Element
  rank : UInt64
  deriving DecidableEq

/-- An operation in the body of an apply. -/
inductive BodyOpDesc where
  | access (result param : String) (offset : Point)
  | arith (result : String) (operator : Operator) (lhs rhs : String)
  | ret (operands : List String) (unroll : Option Point)
  deriving DecidableEq

/-- An operation of a function. -/
inductive OpDesc where
  | load (result field : String)
  /-- Computes results from operands, which the body knows as its parameters. -/
  | apply (results operands params : List String) (body : List BodyOpDesc)
  | store (value field : String) (lower upper : Point)
  deriving DecidableEq

structure FunctionDesc where
  name : String
  stencil : Bool
  args : List FieldDesc
  ops : List OpDesc
  deriving DecidableEq

structure Description where
  functions : List FunctionDesc
  deriving DecidableEq

/-- The coordinates of a point. -/
def Point.toJson (p : Point) : Json :=
  .array (p.map fun c => .int c.val)

/-- A field as an object. -/
def FieldDesc.toJson (f : FieldDesc) : Json :=
  .object
    [("name", .string f.name), ("element", .string f.element.text), ("rank", .int f.rank.toNat)]

/-- An operation of a body as an object; the kind of operation comes first. -/
def BodyOpDesc.toJson : BodyOpDesc → Json
  | .access result param offset =>
      .object
        [("op", .string "access"), ("result", .string result), ("param", .string param),
          ("offset", offset.toJson)]
  | .arith result operator lhs rhs =>
      .object
        [("op", .string "arith"), ("result", .string result), ("kind", .string operator.text),
          ("lhs", .string lhs), ("rhs", .string rhs)]
  | .ret operands unroll =>
      .object
        [("op", .string "return"), ("operands", .strings operands),
          ("unroll", unroll.elim .null Point.toJson)]

/-- An operation as an object; the kind of operation comes first. -/
def OpDesc.toJson : OpDesc → Json
  | .load result field =>
      .object [("op", .string "load"), ("result", .string result), ("field", .string field)]
  | .apply results operands params body =>
      .object
        [("op", .string "apply"), ("results", .strings results), ("operands", .strings operands),
          ("params", .strings params), ("body", .array (body.map BodyOpDesc.toJson))]
  | .store value field lower upper =>
      .object
        [("op", .string "store"), ("value", .string value), ("field", .string field),
          ("lb", lower.toJson), ("ub", upper.toJson)]

/-- A function as an object. -/
def FunctionDesc.toJson (f : FunctionDesc) : Json :=
  .object
    [("name", .string f.name), ("stencil_program", .bool f.stencil),
      ("args", .array (f.args.map FieldDesc.toJson)), ("ops", .array (f.ops.map OpDesc.toJson))]

/-- A description as an object. -/
def Description.toJson (d : Description) : Json :=
  .object [("functions", .array (d.functions.map FunctionDesc.toJson))]

/-- The text of a description. -/
def Description.text (d : Description) : String :=
  d.toJson.compact

end StencilShapes
