import StencilShapes.Command.Arguments
import StencilShapes.Command.Files
import StencilShapes.Compilation.Basic
import StencilShapes.Description.Elaboration
import StencilShapes.Description.Read
import StencilShapes.Program.Text
import StencilShapes.Provenance
import StencilShapes.Report

/-!
# Running a command

A command reads its source, makes of it what its stage asks for, and writes the
result.  What it does is planned first: the notices and either a text or an exit
code.  Only a text is written, and only then does a file change.  A result that cannot be
put together breaks the command off before anything is written.
-/

namespace StencilShapes
namespace Command

/-- What a command tells on the way. -/
inductive Notice where
  | source (path : String)
  | stage (wanted : Stage)
  /-- A file that cannot be read or written. -/
  | fileFault (path : String) (fault : FileFault)
  | readFault (path : String) (fault : ReadFault)
  | diagnostic (d : Diagnostic)
  | loaded (functions ops : Nat)
  | completed (pass : Pass)
  | aborted (pass : Pass)
  /-- A result that is too long to be put together. -/
  | overlong
  | wrote (path : String)

/-- What depends on the surroundings in the wording of notices. -/
structure Wording where
  duration : Pass → String
  reason : ReadFault → String
  /-- What is said about a result that is too long. -/
  overlong : String

namespace Notice

/-- Notices that are given only when verbosity is asked for. -/
def isVerbose : Notice → Bool
  | .fileFault _ _ | .readFault _ _ | .diagnostic _ | .overlong => false
  | _ => true

/-- The wording of a notice. -/
def text (w : Wording) : Notice → String
  | .source path => "stencilc: source = " ++ path
  | .stage wanted => "stencilc: emit   = " ++ wanted.label
  | .fileFault path fault => "stencilc: error: " ++ path ++ ": " ++ fault.message
  | .readFault path fault => "stencilc: error: " ++ path ++ ": " ++ w.reason fault
  | .diagnostic d => d.text
  | .loaded functions ops => s!"stencilc: loaded {functions} functions, {ops} ops"
  | .completed pass => "stencilc: " ++ pass.name ++ " complete, " ++ w.duration pass
  | .aborted pass => "stencilc: aborted in " ++ pass.label
  | .overlong => w.overlong
  | .wrote path => "stencilc: wrote " ++ path

end Notice

/-- What a command is going to do. -/
structure Plan where
  notices : List Notice
  /-- The text that it writes, or the code with which it ends. -/
  verdict : Except Nat String

namespace Plan

/-- Tells something before all else. -/
def tell (notices : List Notice) (p : Plan) : Plan :=
  { p with notices := notices ++ p.notices }

def stop (code : Nat) : Plan :=
  { notices := [], verdict := .error code }

def emit (text : String) : Plan :=
  { notices := [], verdict := .ok text }

end Plan

/-- The text that a stage makes of a compilation.  A program may have none. -/
def Stage.render (stage : Stage) (c : Compilation) : Option String :=
  match stage with
  | .ir => c.program.text
  | .shapes => some (c.shapes.elim "" fun s => (s.report c.program).text)
  | .extents => some (c.extents.elim "" fun t => t.report.text)
  | .buildInfo => some ""

/-- What is told about passes that have been run. -/
def passNotices (reports : List PassReport) : List Notice :=
  reports.flatMap fun r => r.diagnostics.map .diagnostic ++ [.completed r.pass]

/-- Runs the passes that a stage needs. -/
def planPasses (stage : Stage) (terminal : Pass) (p : Program) : Plan :=
  let r := Compilation.run { program := p } terminal
  Plan.tell (.loaded p.functions.size p.ops.size :: passNotices r.reports) <|
    match r.failing with
    | some pass => (Plan.stop 1).tell [.aborted pass]
    | none =>
        match stage.render r.compilation with
        | some text => .emit text
        | none => (Plan.stop 101).tell [.overlong]

/-- Compiles the text of a source. -/
def planText (stage : Stage) (terminal : Pass) (path text : String) : Plan :=
  match Description.ofText text with
  | .error fault => (Plan.stop 2).tell [.readFault path fault]
  | .ok d =>
      match d.elaborate with
      | .error ds => (Plan.stop 1).tell (ds.map .diagnostic)
      | .ok p => planPasses stage terminal p

/-- What an invocation does with the content of its source. -/
def Invocation.plan (i : Invocation) (source : Except FileFault String) : Plan :=
  Plan.tell [.source i.source, .stage i.stage] <|
    match source with
    | .error fault => (Plan.stop 2).tell [.fileFault i.source fault]
    | .ok text =>
        match i.stage.terminal? with
        | none => .emit (Provenance.ofSource text).text
        | some terminal => planText i.stage terminal i.source text

/-- What is left of notices when verbosity is not asked for. -/
def Invocation.shown (i : Invocation) (notices : List Notice) : List Notice :=
  if i.verbose then notices else notices.filter (!·.isVerbose)

/-- What a command has done. -/
structure Outcome where
  exit : Nat
  stdout : String
  notices : List Notice
  files : Files

def Invocation.carryOut (i : Invocation) (files : Files) (p : Plan) : Outcome :=
  match p.verdict with
  | .error code => { exit := code, stdout := "", notices := i.shown p.notices, files }
  | .ok text =>
      match i.output with
      | none => { exit := 0, stdout := text, notices := i.shown p.notices, files }
      | some path =>
          match files.write path text with
          | .ok files =>
              { exit := 0, stdout := "", notices := i.shown (p.notices ++ [.wrote path]), files }
          | .error fault =>
              { exit := 2, stdout := ""
                notices := i.shown (p.notices ++ [.fileFault path fault]), files }

def Invocation.run (i : Invocation) (files : Files) : Outcome :=
  i.carryOut files (i.plan (files.read i.source))

/-- The name and the version. -/
def versionText : String :=
  "stencilc " ++ version ++ "\n"

/-- How the command is used. -/
def helpText : String :=
  "Infers iteration domains and static shapes for stencil programs\n\n" ++
  "Usage: stencilc [OPTIONS] <SOURCE>\n\n" ++
  "Arguments:\n" ++
  "  <SOURCE>  Input .json program description\n\n" ++
  "Options:\n" ++
  "  -o, --output <OUTPUT>  Output file path (default: stdout)\n" ++
  "      --emit <EMIT>      Output stage [default: ir] " ++
    "[possible values: ir, shapes, extents, build-info]\n" ++
  "      --verbose          Print compiler phases and timing\n" ++
  "  -h, --help             Print help\n" ++
  "  -V, --version          Print version\n"

end Command
end StencilShapes
