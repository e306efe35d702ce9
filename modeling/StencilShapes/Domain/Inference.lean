import StencilShapes.Extent.Analysis
import StencilShapes.Program.Commit

/-!
# Inferring domains

A load or an apply has to be computed wherever one of its results is read.
Each use by an operation whose box is known demands that box, widened by the
extent at which the operation reads the value; the domain is the least box that
meets all demands.  Operations are visited from the last to the first, so that
consumers have their boxes before producers are asked for theirs.  The first
fault ends the run; what has been committed before stays.
-/

namespace StencilShapes

/-- One use of a result while the domain of its producer is inferred. -/
structure Demand where
  consumer : Place
  producer : Place
  operand : Nat
  /-- The value that the consumer reads there. -/
  value : ValueId
  deriving DecidableEq

/-- Why a domain cannot be inferred. -/
inductive DomainFault where
  /-- The extent of a read does not have the rank of the reader. -/
  | extentRank (demand : Demand)
  | widening (demand : Demand) (base extent : Point)
  | mixedRank (demand : Demand) (rank earlier : Nat)
  /-- The ends of the box have no difference. -/
  | noShape (producer : Place) (bounds : Bounds) (fault : PointFault)
  | unconsumed (producer : Place)
  | emptyDomain (producer : Place) (bounds : Bounds) (shape : Point)
  | commit (producer : Place) (fault : CommitFault)
  deriving DecidableEq

namespace DomainFault

/-- An error at a consumer, which mentions the producer. -/
def atConsumer (code : Code) (demand : Demand) (message : String) : Diagnostic :=
  { Diagnostic.error code demand.consumer message with
    related :=
      [{ place := demand.producer, label := "while inferring bounds for this operation" }] }

/-- The diagnostic for a fault. -/
def diagnostic : DomainFault → Diagnostic
  | .extentRank d =>
      atConsumer .rankMismatch d <|
        s!"access extent of operand {d.operand} ({d.value.text}) does not match the rank of the operation"
  | .widening d base extent =>
      atConsumer .overflow d <|
        s!"widening {base.text} by extent {extent.text} of operand {d.operand} ({d.value.text}) overflows i64"
  | .mixedRank d rank earlier =>
      atConsumer .rankMismatch d <|
        s!"expected operations to have the same rank (operand {d.operand} ({d.value.text}) is used at rank {rank}, earlier uses at rank {earlier})"
  | .noShape producer bounds fault =>
      .ofPointFault fault producer
        s!"cannot derive a shape from bounds {bounds.lower.text} to {bounds.upper.text}"
  | .unconsumed producer =>
      { Diagnostic.error .unbounded producer "expected shape to have non-zero size" with
        hint := some "no shaped operation consumes the results of this operation" }
  | .emptyDomain producer bounds shape =>
      { Diagnostic.error .emptyDimension producer "expected shape to have non-zero entries" with
        hint := some
          s!"bounds {bounds.lower.text} to {bounds.upper.text} give shape {shape.text}" }
  | .commit producer fault => .error .alreadyFinal producer fault.message

end DomainFault

namespace Bounds

/-- The box before any demand; it is also the box of rank zero. -/
def nil : Bounds :=
  { lower := [], upper := [] }

/-- The least box that holds two boxes of one rank.  The first box counts for
nothing as long as it has no dimension. -/
def hull? (b need : Bounds) : Option Bounds :=
  if b.lower.isEmpty && b.upper.isEmpty then some need
  else if b.lower.length = need.rank ∧ b.upper.length = need.rank then
    match Point.min b.lower need.lower, Point.max b.upper need.upper with
    | .ok lower, .ok upper => some { lower, upper }
    | _, _ => none
  else none

end Bounds

/-- The bounds and the shape that were committed for an operation. -/
structure Inferred where
  function : String
  op : OpId
  bounds : Bounds
  shape : Point
  deriving DecidableEq

/-- What a run over a program has done. -/
structure ShapeSummary where
  /-- Commits, in the order in which they were made. -/
  inferred : List Inferred := []
  /-- The names of the functions that are no stencil programs. -/
  skipped : List String := []
  deriving DecidableEq

namespace Program

/-- Widens one end of a box by one end of an extent. -/
def widenEnd (d : Demand) (base extent : Point) : Except DomainFault Point :=
  match Point.add base extent with
  | .ok p => .ok p
  | .error (.rankMismatch _ _) => .error (.extentRank d)
  | .error .overflow => .error (.widening d base extent)

/-- The box that a consumer with known bounds demands. -/
def demandedBounds (t : ExtentTable) (consumer : OpId) (d : Demand) (bounds : Bounds) :
    Except DomainFault Bounds :=
  match t.find? consumer d.value with
  | none => .ok bounds
  | some extent =>
      match widenEnd d bounds.lower extent.negative with
      | .error fault => .error fault
      | .ok lower =>
          match widenEnd d bounds.upper extent.positive with
          | .error fault => .error fault
          | .ok upper => .ok { lower, upper }

/-- Extends the box of a producer by what one use demands.  A consumer without
bounds demands nothing. -/
def meetDemand (p : Program) (t : ExtentTable) (function : String) (producer : Place)
    (b : Bounds) (use : Use) : Except DomainFault Bounds :=
  match p.op? use.user with
  | none => .ok b
  | some consumer =>
      match consumer.kind.bounds?, consumer.operands[use.operand]? with
      | some bounds, some value =>
          let d : Demand :=
            { consumer := .ofOp function consumer, producer, operand := use.operand, value }
          match demandedBounds t use.user d bounds with
          | .error fault => .error fault
          | .ok need =>
              match b.hull? need with
              | some b => .ok b
              | none => .error (.mixedRank d need.rank b.rank)
      | _, _ => .ok b

/-- Extends the box of a producer by what all of some uses demand. -/
def meetDemands (p : Program) (t : ExtentTable) (function : String) (producer : Place)
    (b : Bounds) : List Use → Except DomainFault Bounds
  | [] => .ok b
  | use :: rest =>
      match p.meetDemand t function producer b use with
      | .ok b => p.meetDemands t function producer b rest
      | .error fault => .error fault

/-- The size of a box that has at least one point. -/
def domainShape (producer : Place) (b : Bounds) : Except DomainFault Point :=
  match Point.sub b.upper b.lower with
  | .error fault => .error (.noShape producer b fault)
  | .ok shape =>
      if shape.isEmpty then .error (.unconsumed producer)
      else if shape.any (·.val < 1) then .error (.emptyDomain producer b shape)
      else .ok shape

/-- Tells the shaped operations that read a value its type. -/
def retypeUses (p : Program) (ty : Ty) : List Use → Program
  | [] => p
  | use :: rest =>
      let shaped := (p.op? use.user).elim false (·.kind.isShaped)
      (if shaped then p.setOperandType use.user use.operand ty else p).retypeUses ty rest

/-- Gives some results, as far as they are temps, a shape. -/
def retypeResults (p : Program) (shape : Point) : List ValueId → Program
  | [] => p
  | v :: rest =>
      match p.typeOf v with
      | .temp element _ =>
          let ty := Ty.temp element (some shape)
          ((p.setType v ty).retypeUses ty (p.usesOf v)).retypeResults shape rest
      | _ => p.retypeResults shape rest

/-- Infers and commits the domain of one operation. -/
def inferOp (p : Program) (t : ExtentTable) (function : String) (o : Operation) :
    Except DomainFault (Program × Inferred) :=
  let producer := Place.ofOp function o
  match p.meetDemands t function producer .nil (o.results.flatMap p.usesOf) with
  | .error fault => .error fault
  | .ok bounds =>
      match domainShape producer bounds with
      | .error fault => .error fault
      | .ok shape =>
          match p.commit o.id bounds with
          | .error fault => .error (.commit producer fault)
          | .ok p =>
              .ok (p.retypeResults shape o.results, { function, op := o.id, bounds, shape })

end Program

/-- How far inference has come. -/
structure Inference where
  /-- The program with what has been committed. -/
  program : Program
  inferred : List Inferred
  /-- The fault that has ended the run. -/
  fault : Option DomainFault

/-- Puts an earlier commit in front. -/
def Inference.cons (i : Inferred) (r : Inference) : Inference :=
  { r with inferred := i :: r.inferred }

namespace Program

/-- Infers the domains of the loads and applies among some operations, in the order given. -/
def inferOps (p : Program) (t : ExtentTable) (function : String) : List OpId → Inference
  | [] => { program := p, inferred := [], fault := none }
  | op :: rest =>
      match p.op? op with
      | none => p.inferOps t function rest
      | some o =>
          if o.kind.isInferable then
            match p.inferOp t function o with
            | .error fault => { program := p, inferred := [], fault := some fault }
            | .ok (p, i) => (p.inferOps t function rest).cons i
          else p.inferOps t function rest

/-- Infers the domains of one function, from the last operation to the first. -/
def inferFunction (p : Program) (t : ExtentTable) (f : Function) : Inference :=
  p.inferOps t f.name f.body.reverse

/-- Infers the domains of the stencil programs among some functions and lists the others. -/
def inferFunctions (p : Program) (t : ExtentTable) :
    List Function → Inference × List String
  | [] => ({ program := p, inferred := [], fault := none }, [])
  | f :: rest =>
      if f.stencil then
        let r := p.inferFunction t f
        match r.fault with
        | some _ => (r, [])
        | none =>
            let (s, skipped) := r.program.inferFunctions t rest
            ({ s with inferred := r.inferred ++ s.inferred }, skipped)
      else
        let (s, skipped) := p.inferFunctions t rest
        (s, f.name :: skipped)

/-- Infers the domains of a program: what has become of it, what has been done,
and the fault that has ended the run. -/
def inferShapes (p : Program) (t : ExtentTable) : Program × ShapeSummary × Option DomainFault :=
  let (r, skipped) := p.inferFunctions t p.functions.toList
  (r.program, { inferred := r.inferred, skipped }, r.fault)

end Program

end StencilShapes
