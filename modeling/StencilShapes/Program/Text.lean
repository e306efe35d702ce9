import StencilShapes.Program.Basic

/-!
# The text of a program

One line per operation, indented by its depth: the results, the name, what
belongs to the kind of operation, and the types of the results.  The body of an
apply follows between braces.  Where a type has no text, the program has none.
-/

namespace StencilShapes

def ValueId.listText (vs : List ValueId) : String :=
  ", ".intercalate (vs.map ValueId.text)

def Ty.listText (tys : List Ty) : Option String := do
  return ", ".intercalate (← tys.mapM Ty.text)

namespace Operation

/-- The bounds after a blank, once they are known. -/
def boundsText (b : Option Bounds) : String :=
  b.elim "" fun b => " " ++ b.text

/-- The arguments of a body, each with its operand and the type of that. -/
def argsText (o : Operation) (body : Block) : Option String := do
  let args ← (body.args.zip (o.operands.zip o.operandTypes)).mapM fun (arg, operand, ty) => do
    return arg.text ++ " = " ++ operand.text ++ " : " ++ (← ty.text)
  return ", ".intercalate args

/-- The type of what a store writes, which is its first operand. -/
def storedText : List Ty → Option String
  | [] => some ""
  | ty :: _ => do return " : " ++ (← ty.text)

/-- What stands between the name and the types of the results. -/
def kindText (o : Operation) : Option String :=
  match o.kind with
  | .load bounds => some (" " ++ ValueId.listText o.operands ++ boundsText bounds)
  | .apply bounds body => do
      return " (" ++ (← o.argsText body) ++ ")" ++ boundsText bounds
  | .access offset => some (" " ++ ValueId.listText o.operands ++ " " ++ offset.text)
  | .arith _ => some (" " ++ ValueId.listText o.operands)
  | .ret unroll => do
      return " " ++ ValueId.listText o.operands
        ++ unroll.elim "" (fun u => " unroll " ++ u.text)
        ++ " : " ++ (← Ty.listText o.operandTypes)
  | .store bounds => do
      let written :=
        match o.operands with
        | [value, field] => " " ++ value.text ++ " to " ++ field.text
        | _ => ""
      return written ++ " " ++ bounds.text ++ (← storedText o.operandTypes)

/-- The line of an operation, without the end of the line. -/
def lineText (p : Program) (o : Operation) : Option String := do
  let kind ← o.kindText
  let types ← Ty.listText (o.results.map p.typeOf)
  return (if o.results.isEmpty then "" else ValueId.listText o.results ++ " = ")
    ++ o.kind.name ++ kind
    ++ (if o.results.isEmpty then "" else " : " ++ types)

end Operation

namespace Program

/-- An operation of a function, with its body. -/
def opText (p : Program) (o : Operation) : Option String := do
  let line ← o.lineText p
  match o.kind.body? with
  | none => return "  " ++ line ++ "\n"
  | some body => do
      let inner ← (p.opsAt body.ops).mapM (Operation.lineText p)
      return "  " ++ line ++ " \x7b\n"
        ++ String.join (inner.map fun n => "    " ++ n ++ "\n")
        ++ "  \x7d\n"

/-- A function, with its operations. -/
def functionText (p : Program) (f : Function) : Option String := do
  let args ← f.args.mapM fun a => do
    return a.text ++ " : " ++ (← (p.typeOf a).text)
  let ops ← (p.opsAt f.body).mapM p.opText
  return "func @" ++ f.name ++ "(" ++ ", ".intercalate args ++ ")"
    ++ (if f.stencil then " attributes \x7bstencil.program\x7d" else "") ++ " \x7b\n"
    ++ String.join ops
    ++ "\x7d\n"

/-- The functions one after another. -/
def text (p : Program) : Option String := do
  return String.join (← p.functions.toList.mapM p.functionText)

end Program

end StencilShapes
