import StencilShapes.Description.Basic
import StencilShapes.Diagnostic
import StencilShapes.Program.Build

/-!
# From descriptions to programs

Names are resolved function by function.  The body of an apply sees its own
parameters and results and nothing else.  Where ranks are known they have to
agree: among the parts of a store, and among the operands, offsets and unroll of
an apply.  A fault ends its function; the other functions are still looked at,
so that all faulty ones are reported.
-/

namespace StencilShapes

/-- A part of an operation that has a rank. -/
inductive RankedPart where
  | stored (value : String) (lower : Point) (name : String)
  | operand (name : String)
  | access (result param : String) (offset : Point)
  | unroll (factor : Point)
  deriving DecidableEq

/-- How a part is called in a message. -/
def RankedPart.text : RankedPart → String
  | .stored value lower name => s!"store of `{value}` over {lower.text}: `{name}`"
  | .operand name => s!"apply operand `{name}`"
  | .access result param offset => s!"access `{result}` reading `{param}` at offset {offset.text}"
  | .unroll factor => s!"unroll {factor.text}"

/-- Why a function cannot be built. -/
inductive ElaborationFault where
  /-- A name is not defined where it is read. -/
  | undefinedName (name : String)
  | duplicateName (name : String)
  /-- The ends of a store have different ranks. -/
  | storeEnds (value : String) (lower upper : Nat)
  /-- A part does not have the rank that earlier parts have. -/
  | rank (part : RankedPart) (found expected : Nat)
  /-- An apply has more operands than parameters, or fewer. -/
  | paramCount (operands params : Nat)
  /-- An access reads something else than a parameter. -/
  | notParam (param : String)
  | earlyReturn
  | close (fault : CloseFault)
  /-- An apply has more results than names for them, or fewer. -/
  | resultCount (values results : Nat)
  deriving DecidableEq

namespace ElaborationFault

/-- The code of a fault. -/
def code : ElaborationFault → Code
  | .undefinedName _ => .undefinedName
  | .duplicateName _ => .duplicateName
  | _ => .malformed

/-- The wording of a fault. -/
def message : ElaborationFault → String
  | .undefinedName name => s!"undefined value `{name}`"
  | .duplicateName name => s!"value `{name}` is defined more than once"
  | .storeEnds value lower upper =>
      s!"store of `{value}` has bounds of different rank ({lower} and {upper})"
  | .rank part found expected => s!"{part.text} has rank {found}, expected rank {expected}"
  | .paramCount operands params => s!"apply has {operands} operands but {params} params"
  | .notParam param => s!"access reads `{param}`, which is not an apply parameter"
  | .earlyReturn => "stencil.return must be the last operation of an apply body"
  | .close fault => fault.message
  | .resultCount values results => s!"apply returns {values} values but names {results} results"

/-- The diagnostic for a fault in a function. -/
def diagnostic (function : String) (fault : ElaborationFault) : Diagnostic :=
  .error fault.code { function } fault.message

end ElaborationFault

abbrev Elaboration := Except ElaborationFault

/-- Names with what they stand for, latest first. -/
structure Scope (α : Type) where
  bindings : List (String × α) := []

namespace Scope

variable {α : Type}

/-- What a name stands for. -/
def get (s : Scope α) (name : String) : Elaboration α :=
  match s.bindings.lookup name with
  | some a => .ok a
  | none => .error (.undefinedName name)

/-- What several names stand for. -/
def getAll (s : Scope α) (names : List String) : Elaboration (List α) :=
  names.mapM s.get

/-- Defines a name, which must be new. -/
def define (s : Scope α) (name : String) (a : α) : Elaboration (Scope α) :=
  match s.bindings.lookup name with
  | some _ => .error (.duplicateName name)
  | none => .ok { bindings := (name, a) :: s.bindings }

/-- Defines several names in order. -/
def defineAll (s : Scope α) : List (String × α) → Elaboration (Scope α)
  | [] => .ok s
  | (name, a) :: rest => do
      let s ← s.define name a
      s.defineAll rest

end Scope

/-- The rank of a part, which has to be the rank of earlier parts if there were any. -/
def unifyRank (rank : Option Nat) (found : Nat) (part : RankedPart) : Elaboration Nat :=
  match rank with
  | none => .ok found
  | some expected =>
      if expected = found then .ok found else .error (.rank part found expected)

/-- A value of a function, with its rank where that is known. -/
structure Named where
  value : ValueId
  rank : Option Nat
  deriving DecidableEq

/-- The common rank of earlier parts and of one more, as far as it is known. -/
def Named.unify (rank : Option Nat) (n : Named) (part : RankedPart) : Elaboration (Option Nat) :=
  match n.rank with
  | none => .ok rank
  | some found => do return some (← unifyRank rank found part)

/-- A body that is being built. -/
structure BodyState where
  program : Program
  scope : Scope ValueId
  /-- The common rank of operands, offsets and unroll, as far as it is known. -/
  rank : Option Nat

namespace BodyState

/-- Builds one operation of the body of `apply`, which has the arguments `args`;
`last` tells whether it is the last one. -/
def addOp (apply : OpId) (args : List ValueId) (last : Bool) (s : BodyState) :
    BodyOpDesc → Elaboration BodyState
  | .access result param offset => do
      let arg ← s.scope.get param
      if ¬ args.contains arg then throw (.notParam param)
      let rank ← unifyRank s.rank offset.length (.access result param offset)
      let (program, v) := s.program.access apply arg offset
      let scope ← s.scope.define result v
      return { program, scope, rank := some rank }
  | .arith result operator lhs rhs => do
      let l ← s.scope.get lhs
      let r ← s.scope.get rhs
      let (program, v) := s.program.arith apply operator l r
      let scope ← s.scope.define result v
      return { s with program, scope }
  | .ret operands unroll => do
      if ¬ last then throw .earlyReturn
      let values ← s.scope.getAll operands
      let rank ←
        match unroll with
        | none => pure s.rank
        | some u => some <$> unifyRank s.rank u.length (.unroll u)
      return { s with program := s.program.ret apply values unroll, rank }

/-- Builds the operations of a body. -/
def addOps (apply : OpId) (args : List ValueId) (s : BodyState) :
    List BodyOpDesc → Elaboration BodyState
  | [] => .ok s
  | op :: rest => do
      let s ← s.addOp apply args rest.isEmpty op
      s.addOps apply args rest

end BodyState

/-- A function that is being built. -/
structure FunctionState where
  program : Program
  scope : Scope Named

/-- The common rank of the operands of an apply, as far as it is known. -/
def operandRank (rank : Option Nat) : List (String × Named) → Elaboration (Option Nat)
  | [] => .ok rank
  | (name, n) :: rest => do
      let rank ← n.unify rank (.operand name)
      operandRank rank rest

namespace FunctionState

def addLoad (s : FunctionState) (result field : String) : Elaboration FunctionState := do
  let n ← s.scope.get field
  let (program, v) := s.program.load n.value
  let scope ← s.scope.define result { value := v, rank := n.rank }
  return { program, scope }

def addStore (s : FunctionState) (value field : String) (lower upper : Point) :
    Elaboration FunctionState := do
  if lower.length ≠ upper.length then
    throw (.storeEnds value lower.length upper.length)
  let v ← s.scope.get value
  let f ← s.scope.get field
  let rank ← v.unify (some lower.length) (.stored value lower value)
  let _ ← f.unify rank (.stored value lower field)
  return { s with program := (s.program.store v.value f.value { lower, upper }).1 }

/-- Builds an apply with its body. -/
def addApply (s : FunctionState) (results operands params : List String)
    (body : List BodyOpDesc) : Elaboration FunctionState := do
  if params.length ≠ operands.length then
    throw (.paramCount operands.length params.length)
  let ns ← s.scope.getAll operands
  let rank ← operandRank none (operands.zip ns)
  let (program, apply, args) := s.program.openApply (ns.map Named.value)
  let scope ← Scope.defineAll {} (params.zip args)
  let b ← BodyState.addOps apply args { program, scope, rank } body
  match b.program.closeApply apply with
  | .error fault => throw (.close fault)
  | .ok (program, values) =>
      if values.length ≠ results.length then
        throw (.resultCount values.length results.length)
      let scope ← s.scope.defineAll (results.zip (values.map fun v => { value := v, rank := b.rank }))
      return { program, scope }

def addOp (s : FunctionState) : OpDesc → Elaboration FunctionState
  | .load result field => s.addLoad result field
  | .apply results operands params body => s.addApply results operands params body
  | .store value field lower upper => s.addStore value field lower upper

def addOps (s : FunctionState) : List OpDesc → Elaboration FunctionState
  | [] => .ok s
  | op :: rest => do
      let s ← s.addOp op
      s.addOps rest

end FunctionState

namespace FunctionDesc

/-- The types of the arguments. -/
def argTypes (f : FunctionDesc) : List Ty :=
  f.args.map fun a => .field a.element a.rank.toNat

/-- The names of the arguments, for the given values. -/
def argNames (f : FunctionDesc) (args : List ValueId) : List (String × Named) :=
  (f.args.zip args).map fun (a, v) => (a.name, { value := v, rank := some a.rank.toNat })

/-- Adds a function to a program. -/
def elaborate (p : Program) (f : FunctionDesc) : Elaboration Program := do
  let (program, args) := p.beginFunction f.name f.stencil f.argTypes
  let scope ← Scope.defineAll {} (f.argNames args)
  let s ← FunctionState.addOps { program, scope } f.ops
  return s.program

end FunctionDesc

/-- Adds functions to a program, as far as they are sound, and collects the faults of the others. -/
def elaborateFunctions (p : Program) : List FunctionDesc → Program × List Diagnostic
  | [] => (p, [])
  | f :: rest =>
      match f.elaborate p with
      | .ok p => elaborateFunctions p rest
      | .error fault =>
          let (p, ds) := elaborateFunctions p rest
          (p, fault.diagnostic f.name :: ds)

/-- The program that a description gives, or one diagnostic per faulty function. -/
def Description.elaborate (d : Description) : Except (List Diagnostic) Program :=
  match elaborateFunctions {} d.functions with
  | (p, []) => .ok p
  | (_, ds) => .error ds

end StencilShapes
