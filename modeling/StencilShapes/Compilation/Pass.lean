/-!
# Passes

A pass needs the artifacts of other passes and produces its own.  To reach a
pass, those that it depends on run first, each of them once.

**Main statements.**
* `Pass.required_extentAnalysis`, `Pass.required_shapeInference`,
  `Pass.required_verification`: the passes that are run for each goal.
-/

namespace StencilShapes

/-- The steps of a compilation. -/
inductive Pass where
  | extentAnalysis
  | shapeInference
  | verification
  deriving DecidableEq

/-- What a pass leaves behind. -/
inductive Artifact where
  | extents
  | shapes
  | certificate
  deriving DecidableEq

/-- The spelling of an artifact. -/
def Artifact.text : Artifact → String
  | .extents => "Extents"
  | .shapes => "Shapes"
  | .certificate => "ShapeCert"

namespace Pass

def all : List Pass := [.extentAnalysis, .shapeInference, .verification]

/-- The name by which a pass is asked for. -/
def name : Pass → String
  | .extentAnalysis => "extent_analysis"
  | .shapeInference => "shape_inference"
  | .verification => "verify_shapes"

/-- The name by which a pass is mentioned when it fails. -/
def label : Pass → String
  | .extentAnalysis => "ExtentAnalysis"
  | .shapeInference => "ShapeInference"
  | .verification => "VerifyShapes"

/-- The pass of a name. -/
def ofName? (s : String) : Option Pass :=
  all.find? (·.name == s)

/-- The passes whose artifacts a pass uses. -/
def inputs : Pass → List Pass
  | .extentAnalysis => []
  | .shapeInference => [.extentAnalysis]
  | .verification => [.shapeInference]

/-- The artifacts of a pass. -/
def outputs : Pass → List Artifact
  | .extentAnalysis => [.extents]
  | .shapeInference => [.shapes]
  | .verification => [.certificate]

/-- What holds after a pass. -/
def invariants : Pass → String
  | .extentAnalysis => "every accessed (apply, operand) pair has a min/max offset box"
  | .shapeInference => "loads/applies bounded, result types static, operand types in sync"
  | .verification => "V1-V4 obligations hold"

/-- The length of the longest chain of passes that leads to a pass. -/
def depth : Pass → Nat
  | .extentAnalysis => 0
  | .shapeInference => 1
  | .verification => 2

theorem depth_lt_of_mem_inputs {p q : Pass} (h : q ∈ p.inputs) : q.depth < p.depth := by
  cases p <;> simp [inputs] at h <;> subst h <;> decide

/-- A pass after all that it depends on, in the order in which they run. -/
def required (p : Pass) : List Pass :=
  (p.inputs.attach.flatMap fun ⟨q, _⟩ => q.required).eraseDups ++ [p]
termination_by p.depth
decreasing_by exact depth_lt_of_mem_inputs ‹_›

theorem required_extentAnalysis : required .extentAnalysis = [.extentAnalysis] := by
  rw [required]
  rfl

theorem required_shapeInference :
    required .shapeInference = [.extentAnalysis, .shapeInference] := by
  rw [required]
  simp [inputs, required_extentAnalysis, List.eraseDups_cons]

theorem required_verification :
    required .verification = [.extentAnalysis, .shapeInference, .verification] := by
  rw [required]
  simp [inputs, required_shapeInference, List.eraseDups_cons]

end Pass

end StencilShapes
