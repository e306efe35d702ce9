import StencilShapes.Command.Run

/-!
# The command

Reads the arguments, the source and the clock, and writes what is planned.
-/

namespace StencilShapes
namespace Command

/-- The number of an error of the system; some calls report it with a minus sign. -/
def errorNumber (code : UInt32) : Nat :=
  min code.toNat (0 - code).toNat

/-- The fault that an error of the system stands for. -/
def faultOfError : IO.Error → FileFault
  | .noFileOrDirectory .. => .notFound
  | .inappropriateType _ code _ =>
      if errorNumber code = 21 then .isDirectory else .notDirectory
  | .permissionDenied _ code _ => .other s!"Permission denied (os error {errorNumber code})"
  | e => .other (toString e)

/-- The outcome of reading a source. -/
def readSource (path : String) : IO (Except FileFault String) := do
  try
    return textOfBytes (← IO.FS.readBinFile path)
  catch e =>
    return .error (faultOfError e)

/-- The outcome of writing a result. -/
def writeResult (path text : String) : IO (Option FileFault) := do
  try
    IO.FS.writeFile path text
    return none
  catch e =>
    return some (faultOfError e)

/-- Shows the notices that an invocation wants to be shown. -/
def tellAll (i : Invocation) (w : Wording) (notices : List Notice) : IO Unit := do
  for n in i.shown notices do
    IO.eprintln (n.text w)

/-- Why a text gives no description. -/
def reason : ReadFault → String
  | .cutShort => "the text ends inside a value"
  | .notJson => "the text is not JSON"
  | .wrongShape => "the text does not describe a program"

/-- A span of time in milliseconds, with one decimal. -/
def millis (nanos : Nat) : String :=
  let tenths := nanos / 100000
  s!"{tenths / 10}.{tenths % 10}ms"

def execute (i : Invocation) : IO UInt32 := do
  let source ← readSource i.source
  let start ← IO.monoNanosNow
  let plan ← IO.lazyPure fun _ => i.plan source
  let stop ← IO.monoNanosNow
  let w : Wording :=
    { duration := fun _ => millis (stop - start), reason, overlong := "capacity overflow" }
  tellAll i w plan.notices
  match plan.verdict with
  | .error code => return code.toUInt32
  | .ok text =>
      match i.output with
      | none =>
          IO.print text
          return 0
      | some path =>
          match ← writeResult path text with
          | none =>
              tellAll i w [.wrote path]
              return 0
          | some fault =>
              tellAll i w [.fileFault path fault]
              return 2

/-- Does what some arguments ask for. -/
def executeArguments (args : List String) : IO UInt32 := do
  match Invocation.ofArguments args with
  | .ok i => execute i
  | .error .version =>
      IO.print versionText
      return 0
  | .error .help =>
      IO.print helpText
      return 0
  | .error .usage =>
      IO.eprint helpText
      return 2

end Command
end StencilShapes

/-- Does what the arguments of the command ask for. -/
def main (args : List String) : IO UInt32 :=
  StencilShapes.Command.executeArguments args
