import StencilShapes.Description.Basic
import StencilShapes.Domain.Inference

/-!
# Reports

What a compilation has found, as JSON over several lines.
-/

namespace StencilShapes

/-- What was committed for one operation. -/
structure OpShape where
  op : OpId
  name : String
  bounds : Bounds
  shape : Point
  deriving DecidableEq

/-- What was committed in one function. -/
structure FunctionShapes where
  name : String
  /-- Operations in the order of the program. -/
  ops : List OpShape
  deriving DecidableEq

/-- What was committed in a program. -/
structure ShapeReport where
  functions : List FunctionShapes
  skipped : List String
  deriving DecidableEq

namespace ShapeSummary

/-- What was committed for an operation. -/
def opShape? (s : ShapeSummary) (o : Operation) : Option OpShape :=
  (s.inferred.find? (·.op == o.id)).map fun i =>
    { op := o.id, name := o.kind.name, bounds := i.bounds, shape := i.shape }

/-- The report on a run: functions and operations stand in the order of the program. -/
def report (s : ShapeSummary) (p : Program) : ShapeReport :=
  { functions :=
      (p.functions.toList.filter (·.stencil)).map fun f =>
        { name := f.name, ops := (p.opsAt f.body).filterMap s.opShape? }
    skipped := s.skipped }

end ShapeSummary

/-- An operation as an object. -/
def OpShape.toJson (o : OpShape) : Json :=
  .object
    [("op", .int o.op.index), ("name", .string o.name), ("lb", o.bounds.lower.toJson),
      ("ub", o.bounds.upper.toJson), ("shape", o.shape.toJson)]

/-- A function as an object. -/
def FunctionShapes.toJson (f : FunctionShapes) : Json :=
  .object [("name", .string f.name), ("ops", .array (f.ops.map OpShape.toJson))]

/-- The report as an object. -/
def ShapeReport.toJson (r : ShapeReport) : Json :=
  .object
    [("functions", .array (r.functions.map FunctionShapes.toJson)),
      ("skipped_functions", .strings r.skipped)]

/-- The text of the report. -/
def ShapeReport.text (r : ShapeReport) : String :=
  r.toJson.pretty

/-- The extent of one operand. -/
structure OperandExtent where
  value : ValueId
  extent : Extent
  deriving DecidableEq

/-- The extents of one apply. -/
structure ApplyExtents where
  op : OpId
  operands : List OperandExtent
  deriving DecidableEq

/-- The extents of a program, ordered by apply. -/
structure ExtentReport where
  applies : List ApplyExtents
  deriving DecidableEq

/-- The report on the extents of a program. -/
def ExtentTable.report (t : ExtentTable) : ExtentReport :=
  { applies :=
      (t.applies.entries.filter fun (_, extents) => !extents.entries.isEmpty).map
        fun (op, extents) =>
          { op := ⟨op⟩
            operands := extents.entries.map fun (value, extent) => { value := ⟨value⟩, extent } } }

/-- An operand as an object. -/
def OperandExtent.toJson (o : OperandExtent) : Json :=
  .object
    [("value", .int o.value.index), ("negative", o.extent.negative.toJson),
      ("positive", o.extent.positive.toJson)]

/-- An apply as an object. -/
def ApplyExtents.toJson (a : ApplyExtents) : Json :=
  .object [("op", .int a.op.index), ("operands", .array (a.operands.map OperandExtent.toJson))]

/-- The report as an object. -/
def ExtentReport.toJson (r : ExtentReport) : Json :=
  .object [("applies", .array (r.applies.map ApplyExtents.toJson))]

/-- The text of the report. -/
def ExtentReport.text (r : ExtentReport) : String :=
  r.toJson.pretty

end StencilShapes
