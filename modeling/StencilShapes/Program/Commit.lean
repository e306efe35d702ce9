import StencilShapes.Program.Basic

/-!
# Committing bounds and types

The bounds of a load or an apply are written once.  When a value gets its shape,
the operations that read it are told so operand by operand; an apply passes the
type on to the argument of its body.

**Main statements.**
* `OpKind.commit_eq_ok`: exactly loads and applies without bounds can be committed.
-/

namespace StencilShapes

/-- Why bounds cannot be committed. -/
inductive CommitFault where
  | alreadyFinalized
  /-- The operation is neither a load nor an apply. -/
  | notShapeInferable
  deriving DecidableEq

/-- The wording of a fault. -/
def CommitFault.message : CommitFault → String
  | .alreadyFinalized => "bounds are already finalized"
  | .notShapeInferable => "operation does not support shape inference"

/-- The operation with its bounds. -/
def OpKind.commit (bounds : Bounds) : OpKind → Except CommitFault OpKind
  | .load none => .ok (.load (some bounds))
  | .apply none body => .ok (.apply (some bounds) body)
  | .load (some _) | .apply (some _) _ => .error .alreadyFinalized
  | _ => .error .notShapeInferable

theorem OpKind.commit_eq_ok {bounds : Bounds} {k k' : OpKind} :
    k.commit bounds = .ok k' ↔
      (k = .load none ∧ k' = .load (some bounds)) ∨
        ∃ body, k = .apply none body ∧ k' = .apply (some bounds) body := by
  cases k with
  | load b => cases b <;> simp [commit, eq_comm]
  | apply b body => cases b <;> simp [commit, eq_comm]
  | _ => simp [commit]

namespace Program

/-- Commits the bounds of an operation. -/
def commit (p : Program) (op : OpId) (bounds : Bounds) : Except CommitFault Program :=
  match p.op? op with
  | none => .error .notShapeInferable
  | some o =>
      match o.kind.commit bounds with
      | .error fault => .error fault
      | .ok kind => .ok (p.modifyOp op fun o => { o with kind })

/-- Gives a value a type. -/
def setType (p : Program) (v : ValueId) (ty : Ty) : Program :=
  p.modifyValue v fun w => { w with ty }

/-- The argument of the body that stands for an operand of an apply. -/
def bodyArg? (p : Program) (user : OpId) (operand : Nat) : Option ValueId :=
  ((p.op? user).bind (·.kind.body?)).bind (·.args[operand]?)

/-- Declares the type of an operand; the argument that stands for it follows. -/
def setOperandType (p : Program) (user : OpId) (operand : Nat) (ty : Ty) : Program :=
  let arg? := p.bodyArg? user operand
  let q := p.modifyOp user fun o => { o with operandTypes := o.operandTypes.set operand ty }
  arg?.elim q (q.setType · ty)

end Program

end StencilShapes
