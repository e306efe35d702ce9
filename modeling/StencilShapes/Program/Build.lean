import StencilShapes.Program.Basic

/-!
# Growing a program

Each call adds one operation to the function begun last.  An apply is opened,
filled and closed: it joins its function only when it is closed, and its results
follow from the values that its body returns.  New operations record the types
of their operands and are entered in the use lists of the values they read.
-/

namespace StencilShapes

/-- Why the body of an apply cannot be closed. -/
inductive CloseFault where
  /-- The last operation is not a return. -/
  | missingReturn
  /-- The returned values do not fall into groups of the size that the unroll asks for. -/
  | unevenReturn (operands : Nat) (unroll : Point)
  deriving DecidableEq

/-- The wording of a fault. -/
def CloseFault.message : CloseFault → String
  | .missingReturn => "apply body must end with stencil.return"
  | .unevenReturn operands unroll =>
      s!"return has {operands} operands, not a multiple of the volume of unroll " ++ unroll.text

namespace Program

/-- Adds a value that nothing uses yet. -/
def newValue (p : Program) (ty : Ty) (origin : Origin) : Program × ValueId :=
  let id := p.supply.takeValue.1
  ({ p with
      values := p.values.push { id, ty, origin, uses := [] }
      supply := p.supply.takeValue.2
      nextValue_eq := by simp [IdSupply.takeValue, p.nextValue_eq] }, id)

/-- Adds one argument per type, numbered from `index` on. -/
def newArgs (p : Program) (owner : Option OpId) (index : Nat) : List Ty → Program × List ValueId
  | [] => (p, [])
  | ty :: tys =>
      let (p, v) := p.newValue ty (.arg owner index)
      let (p, vs) := p.newArgs owner (index + 1) tys
      (p, v :: vs)

/-- Enters the operands of an operation, numbered from `index` on, in the use lists. -/
def addUses (values : Array Value) (user : OpId) (index : Nat) : List ValueId → Array Value
  | [] => values
  | v :: vs =>
      addUses
        (values.modify v.index fun w => { w with uses := w.uses ++ [{ user, operand := index }] })
        user (index + 1) vs

theorem size_addUses (user : OpId) (vs : List ValueId) :
    ∀ (values : Array Value) (index : Nat),
      (addUses values user index vs).size = values.size := by
  induction vs with
  | nil => simp [addUses]
  | cons v vs ih => simp [addUses, ih]

/-- Adds an operation without results. -/
def newOp (p : Program) (kind : OpKind) (operands : List ValueId) (parent : Option OpId) :
    Program × OpId :=
  let id := p.supply.takeOp.1
  let op : Operation :=
    { id, kind, operands, operandTypes := operands.map p.typeOf, results := [], parent }
  ({ p with
      ops := p.ops.push op
      values := addUses p.values id 0 operands
      supply := p.supply.takeOp.2
      nextOp_eq := by simp [IdSupply.takeOp, p.nextOp_eq]
      nextValue_eq := by simp [IdSupply.takeOp, p.nextValue_eq, size_addUses] }, id)

/-- Adds a result to an operation. -/
def newResult (p : Program) (op : OpId) (ty : Ty) : Program × ValueId :=
  let index := (p.op? op).elim 0 (·.results.length)
  let (p, v) := p.newValue ty (.result op index)
  (p.modifyOp op fun o => { o with results := o.results ++ [v] }, v)

/-- Adds one result per type. -/
def newResults (p : Program) (op : OpId) : List Ty → Program × List ValueId
  | [] => (p, [])
  | ty :: tys =>
      let (p, v) := p.newResult op ty
      let (p, vs) := p.newResults op tys
      (p, v :: vs)

/-- Puts an operation at the end of the function begun last. -/
def append (p : Program) (op : OpId) : Program :=
  { p with
    functions := p.functions.modify (p.functions.size - 1) fun f =>
      { f with body := f.body ++ [op] } }

/-- Puts an operation at the end of the body of an apply. -/
def appendToBody (p : Program) (apply op : OpId) : Program :=
  p.modifyOp apply fun o =>
    match o.kind with
    | .apply bounds body => { o with kind := .apply bounds { body with ops := body.ops ++ [op] } }
    | _ => o

/-- Begins a function with arguments of the given types. -/
def beginFunction (p : Program) (name : String) (stencil : Bool) (tys : List Ty) :
    Program × List ValueId :=
  let (p, args) := p.newArgs none 0 tys
  ({ p with functions := p.functions.push { name, stencil, args, body := [] } }, args)

/-- Marks a function as a stencil program, or as none. -/
def setStencil (p : Program) (function : Nat) (stencil : Bool) : Program :=
  { p with functions := p.functions.modify function fun f => { f with stencil } }

/-- Reads a field into a temp of the same element. -/
def load (p : Program) (field : ValueId) : Program × ValueId :=
  let (q, op) := p.newOp (.load none) [field] none
  let (q, v) := q.newResult op (.temp (p.typeOf field).element none)
  (q.append op, v)

/-- Writes a value into a field. -/
def store (p : Program) (value field : ValueId) (bounds : Bounds) : Program × OpId :=
  let (p, op) := p.newOp (.store bounds) [value, field] none
  (p.append op, op)

/-- Opens an apply; its body has one argument per operand, of the same type. -/
def openApply (p : Program) (operands : List ValueId) : Program × OpId × List ValueId :=
  let (q, op) := p.newOp (.apply none { args := [], ops := [] }) operands none
  let (q, args) := q.newArgs (some op) 0 (operands.map p.typeOf)
  (q.modifyOp op fun o => { o with kind := .apply none { args, ops := [] } }, op, args)

/-- Reads an argument of an open apply at an offset. -/
def access (p : Program) (apply : OpId) (arg : ValueId) (offset : Point) : Program × ValueId :=
  let (q, op) := p.newOp (.access offset) [arg] (some apply)
  let (q, v) := q.newResult op (.scalar (p.typeOf arg).element)
  (q.appendToBody apply op, v)

/-- Combines two values in an open apply; the result has the type of the left one. -/
def arith (p : Program) (apply : OpId) (operator : Operator) (lhs rhs : ValueId) :
    Program × ValueId :=
  let (q, op) := p.newOp (.arith operator) [lhs, rhs] (some apply)
  let (q, v) := q.newResult op (p.typeOf lhs)
  (q.appendToBody apply op, v)

/-- Returns values from an open apply. -/
def ret (p : Program) (apply : OpId) (values : List ValueId) (unroll : Option Point) : Program :=
  let (p, op) := p.newOp (.ret unroll) values (some apply)
  p.appendToBody apply op

/-- How many returned values make up one result; zero if the volume of the unroll
is out of range. -/
def groupSize (unroll : Option Point) : Int :=
  match unroll with
  | none => 1
  | some u => u.volume?.elim 0 Coord.val

/-- The types of the results of an apply whose body returns values of types `tys`:
one temp per group of `size`, with the element of the first of the group. -/
def groupTypes (tys : List Ty) (size : Nat) : List Ty :=
  (List.range (tys.length / size)).filterMap fun j =>
    tys[j * size]?.map fun ty => .temp ty.element none

/-- Closes an apply: gives it its results and puts it at the end of its function. -/
def closeApply (p : Program) (apply : OpId) : Except CloseFault (Program × List ValueId) :=
  match (p.op? apply).bind p.terminator? with
  | some { kind := .ret unroll, operandTypes := tys, .. } =>
      let size := groupSize unroll
      if size < 1 ∨ (tys.length : Int) % size ≠ 0 then
        .error (.unevenReturn tys.length (unroll.getD []))
      else
        let (p, results) := p.newResults apply (groupTypes tys size.toNat)
        .ok (p.append apply, results)
  | _ => .error .missingReturn

end Program

end StencilShapes
