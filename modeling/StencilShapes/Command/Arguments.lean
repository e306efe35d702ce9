import StencilShapes.Compilation.Pass

/-!
# Command line arguments

One source is compiled up to a stage; the result goes to a file or to the
standard output.  Arguments are looked at one by one, so that a request for the
version or for help counts unless something before it is wrong.
-/

namespace StencilShapes
namespace Command

/-- What is made of a source. -/
inductive Stage where
  /-- The text of the program with its shapes. -/
  | ir
  | shapes
  | extents
  | buildInfo
  deriving DecidableEq

namespace Stage

def all : List Stage := [.ir, .shapes, .extents, .buildInfo]

/-- The name by which a stage is asked for. -/
def name : Stage → String
  | .ir => "ir"
  | .shapes => "shapes"
  | .extents => "extents"
  | .buildInfo => "build-info"

/-- The name by which a stage is mentioned. -/
def label : Stage → String
  | .ir => "Ir"
  | .shapes => "Shapes"
  | .extents => "Extents"
  | .buildInfo => "BuildInfo"

/-- The stage of a name. -/
def ofName? (s : String) : Option Stage :=
  all.find? (·.name == s)

/-- The last pass that a stage needs; the provenance needs none. -/
def terminal? : Stage → Option Pass
  | .ir | .shapes => some .verification
  | .extents => some .extentAnalysis
  | .buildInfo => none

end Stage

/-- What is to be done. -/
structure Invocation where
  source : String
  output : Option String := none
  stage : Stage := .ir
  verbose : Bool := false
  deriving DecidableEq

inductive Refusal where
  | usage
  | help
  | version
  deriving DecidableEq

/-- The options that take a value. -/
inductive Valued where
  | output
  | emit
  deriving DecidableEq

/-- The arguments that have been looked at. -/
structure Arguments where
  source : Option String := none
  output : Option String := none
  stage : Option Stage := none
  verbose : Bool := false
  due : Option Valued := none
  onlySources : Bool := false

namespace Arguments

def setSource (a : Arguments) (s : String) : Except Refusal Arguments :=
  if a.source.isSome || s.isEmpty then .error .usage else .ok { a with source := some s }

/-- Takes the value of an option. -/
def setValue (a : Arguments) (option : Valued) (s : String) : Except Refusal Arguments :=
  match option with
  | .output =>
      if a.output.isSome || s.isEmpty then .error .usage
      else .ok { a with output := some s, due := none }
  | .emit =>
      match a.stage, Stage.ofName? s with
      | none, some stage => .ok { a with stage := some stage, due := none }
      | _, _ => .error .usage

/-- Takes an option with the value that is attached to it, or waits for its value. -/
def option (a : Arguments) (option : Valued) (attached : Option String) :
    Except Refusal Arguments :=
  match attached with
  | some s => a.setValue option s
  | none => .ok { a with due := some option }

/-- Takes an option that is spelled out, with the value behind an equals sign. -/
def longOption (a : Arguments) (name : String) (attached : Option String) :
    Except Refusal Arguments :=
  match name, attached with
  | "output", _ => a.option .output attached
  | "emit", _ => a.option .emit attached
  | "verbose", none => if a.verbose then .error .usage else .ok { a with verbose := true }
  | "version", none => .error .version
  | "help", none => .error .help
  | _, _ => .error .usage

/-- Takes an option of one letter, with all that follows it in the same argument. -/
def shortOption (a : Arguments) (letter : Char) (rest : List Char) : Except Refusal Arguments :=
  if letter = 'V' then .error .version
  else if letter = 'h' then .error .help
  else if letter = 'o' then
    match rest with
    | [] => a.option .output none
    | '=' :: value => a.option .output (some (String.ofList value))
    | value => a.option .output (some (String.ofList value))
  else .error .usage

/-- Splits the text behind two dashes at its first equals sign. -/
def splitLong (cs : List Char) : String × Option String :=
  match cs.dropWhile (· != '=') with
  | [] => (String.ofList cs, none)
  | _ :: value => (String.ofList (cs.takeWhile (· != '=')), some (String.ofList value))

def take (a : Arguments) (arg : String) : Except Refusal Arguments :=
  if a.onlySources then
    if a.due.isSome then .error .usage else a.setSource arg
  else
    match arg.toList, a.due with
    | ['-', '-'], _ => .ok { a with onlySources := true }
    | '-' :: '-' :: cs, none => a.longOption (splitLong cs).1 (splitLong cs).2
    | '-' :: c :: cs, none => a.shortOption c cs
    | '-' :: _ :: _, some _ => .error .usage
    | _, some option => a.setValue option arg
    | _, none => a.setSource arg

/-- What all arguments together ask for. -/
def finish (a : Arguments) : Except Refusal Invocation :=
  match a.due, a.source with
  | none, some source =>
      .ok { source, output := a.output, stage := a.stage.getD .ir, verbose := a.verbose }
  | _, _ => .error .usage

def takeAll (a : Arguments) : List String → Except Refusal Arguments
  | [] => .ok a
  | arg :: rest =>
      match a.take arg with
      | .ok a => a.takeAll rest
      | .error r => .error r

end Arguments

/-- What some arguments ask for. -/
def Invocation.ofArguments (args : List String) : Except Refusal Invocation :=
  match Arguments.takeAll {} args with
  | .ok a => a.finish
  | .error r => .error r

end Command
end StencilShapes
