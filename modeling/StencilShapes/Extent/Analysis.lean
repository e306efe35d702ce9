import StencilShapes.Extent.Table
import StencilShapes.Diagnostic

/-!
# The extents of a program

For every apply of a stencil program, and every value among its operands, the
analysis takes the offsets of all accesses to the arguments that stand for that
value.  A value that is passed twice collects the accesses to both arguments.
The unroll of the body is taken off once, when all accesses are known.
-/

namespace StencilShapes

/-- Why the extents of an apply cannot be found; the operation is the access or
the return at which the offsets do not combine. -/
inductive ExtentFault where
  /-- The offset of an access does not combine with earlier ones. -/
  | access (op : OpId) (fault : PointFault)
  /-- The unroll of a return does not combine with an extent. -/
  | unroll (op : OpId) (fault : PointFault)
  deriving DecidableEq

/-- The diagnostic for a fault in a function. -/
def ExtentFault.diagnostic (function : String) : ExtentFault → Diagnostic
  | .access op fault =>
      .ofPointFault fault { function, op := some (op, "stencil.access") } "cannot fold access offset"
  | .unroll op fault =>
      .ofPointFault fault { function, op := some (op, "stencil.return") }
        "cannot apply unroll to extent"

/-- One access to an operand of an apply. -/
structure Access where
  op : OpId
  value : ValueId
  /-- Where it reads, relative to the cell that is computed. -/
  offset : Point
  deriving DecidableEq

namespace Program

/-- The operand that an operation of a body reads, if that is an access to an
argument of the body. -/
def access? (body : Block) (operands : List ValueId) (o : Operation) : Option Access :=
  match o.kind, o.operands.head? with
  | .access offset, some arg =>
      ((body.args.zip operands).lookup arg).map fun value => { op := o.id, value, offset }
  | _, _ => none

/-- The accesses to the operands of an apply, in order. -/
def accesses (p : Program) (apply : Operation) : List Access :=
  match apply.kind.body? with
  | none => []
  | some body => (p.opsAt body.ops).filterMap (access? body apply.operands)

/-- Widens the extents of an apply by further accesses. -/
def foldAccesses (extents : Table Extent) : List Access → Except ExtentFault (Table Extent)
  | [] => .ok extents
  | a :: rest =>
      match extents.find? a.value.index with
      | none => foldAccesses (extents.insert a.value.index (.single a.offset)) rest
      | some e =>
          match e.widen a.offset with
          | .ok e => foldAccesses (extents.insert a.value.index e) rest
          | .error fault => .error (.access a.op fault)

/-- The unroll of an apply, with the return that carries it. -/
def unroll? (p : Program) (apply : Operation) : Option (OpId × Point) :=
  match p.terminator? apply with
  | some { id, kind := .ret (some block), .. } => some (id, block)
  | _ => none

/-- The extents of an apply. -/
def applyExtents (p : Program) (apply : Operation) : Except ExtentFault (Table Extent) :=
  match foldAccesses .empty (p.accesses apply) with
  | .error fault => .error fault
  | .ok extents =>
      match p.unroll? apply with
      | none => .ok extents
      | some (ret, block) =>
          match extents.change (·.unroll block) with
          | .ok extents => .ok extents
          | .error fault => .error (.unroll ret fault)

/-- Enters the extents of all applies among some operations. -/
def foldApplies (p : Program) (t : ExtentTable) : List Operation → Except ExtentFault ExtentTable
  | [] => .ok t
  | o :: rest =>
      match o.kind with
      | .apply _ _ =>
          match p.applyExtents o with
          | .ok extents => p.foldApplies (t.insert o.id extents) rest
          | .error fault => .error fault
      | _ => p.foldApplies t rest

/-- Enters the extents of all applies of the stencil programs among some functions. -/
def foldFunctions (p : Program) (t : ExtentTable) : List Function → Except Diagnostic ExtentTable
  | [] => .ok t
  | f :: rest =>
      if f.stencil then
        match p.foldApplies t (p.walk f.body) with
        | .ok t => p.foldFunctions t rest
        | .error fault => .error (fault.diagnostic f.name)
      else p.foldFunctions t rest

/-- The extents of a program, or the first access or return at which they cannot be found. -/
def extents (p : Program) : Except Diagnostic ExtentTable :=
  p.foldFunctions .empty p.functions.toList

end Program

end StencilShapes
