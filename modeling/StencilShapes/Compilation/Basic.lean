import StencilShapes.Compilation.Pass
import StencilShapes.Domain.Inference
import StencilShapes.Domain.Certificate

/-!
# Compilations

A compilation holds a program with the artifacts that passes have left behind.
Running it towards a pass runs all that the pass requires, until one of them
reports an error.
-/

namespace StencilShapes

/-- A program with its artifacts and diagnostics. -/
structure Compilation where
  program : Program
  extents : Option ExtentTable := none
  shapes : Option ShapeSummary := none
  certificate : Option Certificate := none
  diagnostics : List Diagnostic := []
  hasError : Bool := false

/-- A pass that was run, with its diagnostics. -/
structure PassReport where
  pass : Pass
  diagnostics : List Diagnostic
  deriving DecidableEq

/-- What a run has come to. -/
structure PassRun where
  /-- The compilation as the run leaves it. -/
  compilation : Compilation
  /-- The passes that were run, in order. -/
  reports : List PassReport
  /-- The pass whose error has ended the run. -/
  failing : Option Pass

namespace Compilation

/-- Does the work of a pass: the artifacts it leaves, and its diagnostics. -/
def perform (c : Compilation) : Pass → Compilation × List Diagnostic
  | .extentAnalysis =>
      match c.program.extents with
      | .ok extents => ({ c with extents := some extents }, [])
      | .error d => (c, [d])
  | .shapeInference =>
      let extents := c.extents.getD .empty
      let (program, shapes, fault) := c.program.inferShapes extents
      ({ c with program, extents := some extents, shapes := some shapes },
        fault.toList.map DomainFault.diagnostic)
  | .verification =>
      let certificate := c.program.certify
      ({ c with certificate := some certificate },
        c.program.certificateDiagnostics certificate)

/-- Keeps the diagnostics of a pass. -/
def record (c : Compilation) (ds : List Diagnostic) : Compilation :=
  { c with
    diagnostics := c.diagnostics ++ ds
    hasError := c.hasError || ds.any Diagnostic.isError }

/-- Runs some passes until one of them reports an error. -/
def runPasses (c : Compilation) : List Pass → PassRun
  | [] => { compilation := c, reports := [], failing := none }
  | pass :: rest =>
      let (c, ds) := c.perform pass
      let c := c.record ds
      let report : PassReport := { pass, diagnostics := ds }
      if ds.any Diagnostic.isError then
        { compilation := c, reports := [report], failing := some pass }
      else
        let r := c.runPasses rest
        { r with reports := report :: r.reports }

/-- Runs all that a pass requires. -/
def run (c : Compilation) (terminal : Pass) : PassRun :=
  c.runPasses terminal.required

end Compilation

end StencilShapes
