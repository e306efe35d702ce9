import StencilShapes.Ty

/-!
# Programs

A program keeps its operations and its values in two arenas; an identifier is a
position in one of them.  Identifiers are given out by a supply of their own, which
a program carries together with the proof that it is in step with the arenas.
A function lists its arguments and its operations.
Only an apply has a body: its arguments stand for the operands of the apply,
and its operations read them.

The declared type of an operand is kept with the operation and apart from the
type of the value, and each value lists the operands that refer to it.
-/

namespace StencilShapes

/-- The position of an operation. -/
structure OpId where
  index : Nat
  deriving DecidableEq

/-- The position of a value. -/
structure ValueId where
  index : Nat
  deriving DecidableEq

/-- Operations are written with a hash. -/
def OpId.text (o : OpId) : String := "#" ++ toString o.index

/-- Values are written with a percent sign. -/
def ValueId.text (v : ValueId) : String := "%" ++ toString v.index

/-- Identifiers not yet given out; each kind is numbered densely from zero. -/
structure IdSupply where
  nextOp : Nat := 0
  nextValue : Nat := 0

/-- Gives out an operation identifier. -/
def IdSupply.takeOp (s : IdSupply) : OpId × IdSupply :=
  (⟨s.nextOp⟩, { s with nextOp := s.nextOp + 1 })

/-- Gives out a value identifier. -/
def IdSupply.takeValue (s : IdSupply) : ValueId × IdSupply :=
  (⟨s.nextValue⟩, { s with nextValue := s.nextValue + 1 })

inductive Operator where
  | add
  | sub
  | mul
  | div
  deriving DecidableEq

namespace Operator

def all : List Operator := [.add, .sub, .mul, .div]

/-- The spelling of an operator. -/
def text : Operator → String
  | .add => "add"
  | .sub => "sub"
  | .mul => "mul"
  | .div => "div"

/-- The operator of a spelling. -/
def ofText? (s : String) : Option Operator :=
  all.find? (·.text == s)

end Operator

/-- The body of an apply. -/
structure Block where
  /-- Argument `i` stands for operand `i` of the apply. -/
  args : List ValueId
  ops : List OpId
  deriving DecidableEq

inductive OpKind where
  | load (bounds : Option Bounds)
  /-- Computes temps from temps with a body. -/
  | apply (bounds : Option Bounds) (body : Block)
  /-- Reads an argument of the body at an offset. -/
  | access (offset : Point)
  | arith (operator : Operator)
  /-- Ends a body; with an unroll factor it returns a whole block of cells per result. -/
  | ret (unroll : Option Point)
  /-- Writes a temp into a field, over fixed bounds. -/
  | store (bounds : Bounds)
  deriving DecidableEq

namespace OpKind

/-- The name of an operation. -/
def name : OpKind → String
  | .load _ => "stencil.load"
  | .apply _ _ => "stencil.apply"
  | .access _ => "stencil.access"
  | .arith f => "arith." ++ f.text
  | .ret _ => "stencil.return"
  | .store _ => "stencil.store"

/-- Shaped operations work on a box of points. -/
def isShaped : OpKind → Bool
  | .load _ | .apply _ _ | .store _ => true
  | _ => false

/-- The box of an inferable operation follows from its consumers. -/
def isInferable : OpKind → Bool
  | .load _ | .apply _ _ => true
  | _ => false

/-- The box of a shaped operation, once it is known. -/
def bounds? : OpKind → Option Bounds
  | .load b => b
  | .apply b _ => b
  | .store b => some b
  | _ => none

/-- The body of an apply. -/
def body? : OpKind → Option Block
  | .apply _ body => some body
  | _ => none

end OpKind

/-- An operation of a program. -/
structure Operation where
  id : OpId
  kind : OpKind
  operands : List ValueId
  operandTypes : List Ty
  results : List ValueId
  /-- The apply in whose body it stands. -/
  parent : Option OpId
  deriving DecidableEq

/-- The number of dimensions of the box, or zero while there is none. -/
def Operation.rank (o : Operation) : Nat :=
  o.kind.bounds?.elim 0 Bounds.rank

/-- Where a value comes from. -/
inductive Origin where
  | result (op : OpId) (index : Nat)
  /-- An argument of the body of an apply, or of a function. -/
  | arg (owner : Option OpId) (index : Nat)
  deriving DecidableEq

/-- One operand that refers to a value. -/
structure Use where
  user : OpId
  operand : Nat
  deriving DecidableEq

/-- A value of a program. -/
structure Value where
  id : ValueId
  ty : Ty
  origin : Origin
  /-- The operands that refer to it, oldest first. -/
  uses : List Use
  deriving DecidableEq

/-- A function of a program. -/
structure Function where
  name : String
  /-- Shapes are inferred for stencil programs only. -/
  stencil : Bool
  args : List ValueId
  body : List OpId
  deriving DecidableEq

/-- Before anything is given out, a supply is in step with empty arenas. -/
theorem IdSupply.nextOp_start : ({} : IdSupply).nextOp = (#[] : Array Operation).size :=
  rfl

theorem IdSupply.nextValue_start : ({} : IdSupply).nextValue = (#[] : Array Value).size :=
  rfl

/-- Functions, and the arenas that they share. -/
structure Program where
  /-- In the order in which they were begun. -/
  functions : Array Function := #[]
  ops : Array Operation := #[]
  values : Array Value := #[]
  /-- The identifiers that are free. -/
  supply : IdSupply := {}
  /-- The next operation comes at the end of its arena. -/
  nextOp_eq : supply.nextOp = ops.size := by exact IdSupply.nextOp_start
  /-- The next value comes at the end of its arena. -/
  nextValue_eq : supply.nextValue = values.size := by exact IdSupply.nextValue_start

namespace Program

/-- The operation at a position. -/
def op? (p : Program) (o : OpId) : Option Operation :=
  p.ops[o.index]?

/-- The value at a position. -/
def value? (p : Program) (v : ValueId) : Option Value :=
  p.values[v.index]?

/-- The type of a value. -/
def typeOf (p : Program) (v : ValueId) : Ty :=
  (p.value? v).elim default Value.ty

/-- The uses of a value. -/
def usesOf (p : Program) (v : ValueId) : List Use :=
  (p.value? v).elim [] Value.uses

/-- The operations at the given positions, in that order. -/
def opsAt (p : Program) (os : List OpId) : List Operation :=
  os.filterMap p.op?

/-- The last operation of the body of an apply. -/
def terminator? (p : Program) (o : Operation) : Option Operation :=
  (o.kind.body?.bind (·.ops.getLast?)).bind p.op?

/-- The given operations, each one followed by the operations of its body. -/
def walk (p : Program) (roots : List OpId) : List Operation :=
  (p.opsAt roots).flatMap fun o => o :: p.opsAt (o.kind.body?.elim [] Block.ops)

/-- Changes the operation at a position. -/
def modifyOp (p : Program) (o : OpId) (f : Operation → Operation) : Program :=
  { p with
    ops := p.ops.modify o.index f
    nextOp_eq := p.nextOp_eq.trans Array.size_modify.symm }

/-- Changes the value at a position. -/
def modifyValue (p : Program) (v : ValueId) (f : Value → Value) : Program :=
  { p with
    values := p.values.modify v.index f
    nextValue_eq := p.nextValue_eq.trans Array.size_modify.symm }

/-- The first function of a name. -/
def function? (p : Program) (name : String) : Option Function :=
  p.functions.find? (·.name == name)

end Program

end StencilShapes
