import StencilShapes.Diagnostic

/-!
# Certificates

After inference four obligations can be checked on a program: domains are
known, results have a shape, the shape is that of the domain, and the declared
types of operands are the types of the values.
-/

namespace StencilShapes

structure Certificate where
  boundsFinalized : Bool
  /-- Every result of a load or an apply is a temp with a shape. -/
  staticResultTypes : Bool
  /-- That shape is the size of the bounds. -/
  shapeMatchesBounds : Bool
  /-- Shaped operations declare the types of the temps that they read. -/
  operandTypesConsistent : Bool
  deriving DecidableEq

namespace Certificate

/-- The obligations with their names, in order. -/
def obligations (c : Certificate) : List (String × Bool) :=
  [("V1_bounds_finalized", c.boundsFinalized),
    ("V2_static_result_types", c.staticResultTypes),
    ("V3_shape_matches_bounds", c.shapeMatchesBounds),
    ("V4_operand_types_consistent", c.operandTypesConsistent)]

def allPass (c : Certificate) : Bool :=
  c.boundsFinalized && c.staticResultTypes && c.shapeMatchesBounds && c.operandTypesConsistent

/-- The names of the obligations that fail. -/
def failed (c : Certificate) : List String :=
  (c.obligations.filter fun o => !o.2).map Prod.fst

end Certificate

namespace Program

/-- The operations of the stencil programs, without those of bodies. -/
def stencilOps (p : Program) : List Operation :=
  (p.functions.toList.filter (·.stencil)).flatMap fun f => p.opsAt f.body

/-- All results are temps with a shape. -/
def hasStaticResults (p : Program) (o : Operation) : Bool :=
  o.results.all fun r => (p.typeOf r).shape?.isSome

/-- All results have the shape of the bounds. -/
def matchesBounds (p : Program) (o : Operation) : Bool :=
  match o.kind.bounds?.bind Bounds.shape? with
  | none => false
  | some shape => o.results.all fun r => (p.typeOf r).shape? == some shape

/-- The temps among the operands have the declared types, and so have the
arguments of the body. -/
def declaresOperands (p : Program) (o : Operation) : Bool :=
  ((o.operands.zip o.operandTypes).all fun (v, declared) =>
      !(p.typeOf v).isTemp || p.typeOf v == declared) &&
    o.kind.body?.elim true fun body =>
      (body.args.zip o.operandTypes).all fun (arg, declared) => p.typeOf arg == declared

/-- Checks the obligations on a program. -/
def certify (p : Program) : Certificate :=
  let shaped := p.stencilOps.filter (·.kind.isShaped)
  let inferable := p.stencilOps.filter (·.kind.isInferable)
  { boundsFinalized := inferable.all (·.kind.bounds?.isSome)
    staticResultTypes := inferable.all p.hasStaticResults
    shapeMatchesBounds := inferable.all p.matchesBounds
    operandTypesConsistent := shaped.all p.declaresOperands }

/-- Where a failed certificate is reported: the first stencil program, if there is one. -/
def certificatePlace (p : Program) : Place :=
  { function := ((p.functions.toList.find? (·.stencil)).map (·.name)).getD "program" }

/-- The diagnostic for a certificate, unless all obligations hold. -/
def certificateDiagnostics (p : Program) (c : Certificate) : List Diagnostic :=
  if c.allPass then []
  else
    [{ Diagnostic.error .unverified p.certificatePlace
        ("shape verification failed: " ++ ", ".intercalate c.failed) with
      causes := c.failed.map fun name =>
        { message := "obligation " ++ name ++ " does not hold", place := none } }]

end Program

end StencilShapes
