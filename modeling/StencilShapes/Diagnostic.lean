import StencilShapes.Program.Basic

/-!
# Diagnostics

A diagnostic points at a function and perhaps at one of its operations.  It has
a message and perhaps a code, a hint, related places and causes.

**Main statements.**
* `Code.ofText?_text`: the codes are told apart by their spelling.
-/

namespace StencilShapes

/-- What a diagnostic is about. -/
inductive Code where
  | undefinedName
  | duplicateName
  | malformed
  | rankMismatch
  | unbounded
  | emptyDimension
  | alreadyFinal
  | overflow
  | unverified
  deriving DecidableEq

namespace Code

def all : List Code :=
  [.undefinedName, .duplicateName, .malformed, .rankMismatch, .unbounded, .emptyDimension,
    .alreadyFinal, .overflow, .unverified]

/-- The spelling of a code. -/
def text : Code → String
  | .undefinedName => "E0001"
  | .duplicateName => "E0002"
  | .malformed => "E0003"
  | .rankMismatch => "E0100"
  | .unbounded => "E0101"
  | .emptyDimension => "E0102"
  | .alreadyFinal => "E0103"
  | .overflow => "E0104"
  | .unverified => "E0600"

/-- The code of a spelling. -/
def ofText? (s : String) : Option Code :=
  all.find? (·.text == s)

theorem ofText?_text (c : Code) : ofText? c.text = some c := by
  cases c <;> decide

end Code

/-- How grave a diagnostic is. -/
inductive Severity where
  | error
  | warning
  deriving DecidableEq

/-- The spelling of a severity. -/
def Severity.text : Severity → String
  | .error => "error"
  | .warning => "warning"

/-- A function, and perhaps one of its operations with its name. -/
structure Place where
  function : String
  op : Option (OpId × String) := none
  deriving DecidableEq

namespace Place

/-- The place of an operation. -/
def ofOp (function : String) (o : Operation) : Place :=
  { function, op := some (o.id, o.kind.name) }

/-- The function, then the operation. -/
def text (p : Place) : String :=
  match p.op with
  | none => "@" ++ p.function
  | some (o, name) => "@" ++ p.function ++ ", op " ++ o.text ++ " (" ++ name ++ ")"

end Place

/-- A further place that helps to understand a diagnostic. -/
structure Related where
  place : Place
  /-- What it has to do with the diagnostic. -/
  label : String
  deriving DecidableEq

/-- A reason for a diagnostic. -/
structure Cause where
  message : String
  place : Option Place
  deriving DecidableEq

/-- A message to the author of a program. -/
structure Diagnostic where
  code : Option Code := none
  severity : Severity := .error
  place : Place
  message : String
  hint : Option String := none
  related : List Related := []
  causes : List Cause := []
  deriving DecidableEq

namespace Diagnostic

/-- An error with a code. -/
def error (code : Code) (place : Place) (message : String) : Diagnostic :=
  { code := some code, place, message }

/-- The diagnostic for points that do not combine, where `context` says what was attempted. -/
def ofPointFault (fault : PointFault) (place : Place) (context : String) : Diagnostic :=
  let code : Code :=
    match fault with
    | .rankMismatch _ _ => .rankMismatch
    | .overflow => .overflow
  error code place (context ++ ": " ++ fault.message)

/-- Errors keep a program from being compiled. -/
def isError (d : Diagnostic) : Bool :=
  d.severity == .error

/-- The message, the place, the related places and the hint, one per line. -/
def text (d : Diagnostic) : String :=
  d.severity.text ++ d.code.elim "" (fun c => "[" ++ c.text ++ "]") ++ ": " ++ d.message
    ++ "\n  --> " ++ d.place.text
    ++ String.join (d.related.map fun r => "\n  note: " ++ r.label ++ " (" ++ r.place.text ++ ")")
    ++ d.hint.elim "" (fun h => "\n  hint: " ++ h)

end Diagnostic

end StencilShapes
