import TinyArm.Command.Report
import TinyArm.Command.Usage
import TinyArm.Files.Compile
import TinyArm.Node.Printer

/-!
# Running the command

`Command.run` gives what the command prints, its exit code, and the files after it. The arguments are read first; a
question is answered at once; then the output option is checked, then the source file, then that there is nothing more.
Only a compilation that succeeds writes, and only to the output path. What is printed is plain text, without control
sequences of terminals; log lines and files keep them.
-/

namespace TinyArm.Command

/-- What running the command comes to. -/
structure Outcome where
  exitCode : Nat
  stdout : String
  stderr : String
  workspace : Workspace
  deriving DecidableEq

/-- A compilation that the command is asked for. -/
structure Job where
  source : Path
  output : Option Path
  print : Bool
  verbose : Bool
  deriving DecidableEq

/-- Checks the value of an output option. -/
def checkOutput (w : Workspace) (written : String) : Except UsageFault Path :=
  match w.findWritten? written with
  | some .directory => .error (.outputIsDirectory written)
  | _ => .ok (Path.ofString written)

/-- Checks the source file argument. -/
def checkSource (w : Workspace) (written : String) : Except UsageFault Path :=
  match w.findWritten? written with
  | none => .error (.sourceMissing written)
  | some .directory => .error (.sourceIsDirectory written)
  | some (.file _) => if (Path.ofString written).suffix = ".c" then .ok (Path.ofString written) else .error .sourceSuffix

/-- The compilation that arguments ask for. -/
def Job.ofArguments (w : Workspace) (a : Arguments) : Except UsageFault Job := do
  let output ← a.output.mapM (checkOutput w)
  match a.others with
  | [] => .error .noSource
  | written :: extra =>
    let source ← checkSource w written
    if extra.isEmpty then .ok ⟨source, output, a.print, a.verbose⟩ else .error (.extraArguments extra)

/-- What the command shows of each stage, as far as it comes. -/
def showStages (c : Compiled) : String × Except Failure Unit :=
  let tokens := Text.unlines (c.tokens.map Token.text ++ [""])
  match c.tree.print with
  | .error f => (tokens, .error f)
  | .ok outline => (tokens ++ Text.unlines [outline, ""] ++ c.assembly.text, .ok ())

/-- The path that a job writes to: the one that is given, or the source with the suffix of assemblies. -/
def Job.outputPath (job : Job) : Except Failure Path :=
  match job.output with
  | some o => .ok o
  | none => job.source.withSuffix ({} : Options).outputSuffix

/-- Compiles the source of a job and writes the output. -/
def Job.compile (job : Job) (w : Workspace) : Except Failure (Compiled × Path × Workspace) := do
  let output ← job.outputPath
  let c ← compileSourceFile { keepTokens := job.print } w job.source.text
  let w' ← writeText w output c.assembly.text
  return (c, output, w')

/-- The log lines of a job. -/
def Job.log (job : Job) (w : Workspace) : List String :=
  match readSource w job.source with
  | .error _ => []
  | .ok source => (compilationLog source job.source.text).map LogEntry.text

/-- The lines shown at the end of a job. -/
def Job.closing (job : Job) (c : Compiled) (output : Path) : List String :=
  let counts :=
    if job.verbose then
      ["Tokenized: " ++ toString c.tokenCount ++ " tokens",
        "Parsed: " ++ toString c.tree.functions.length ++ " functions",
        "Wrote " ++ toString c.assembly.text.length ++ " bytes to " ++ output.text]
    else []
  counts ++ ["Compiled " ++ job.source.text ++ " -> " ++ output.text]

/-- What is shown once the output is written, as far as it comes. -/
def Job.shown (job : Job) (c : Compiled) (output : Path) : String × Except Failure Unit :=
  let closing := Text.unlines (job.closing c output)
  if job.print then
    match showStages c with
    | (shown, .error f) => (shown, .error f)
    | (shown, .ok ()) => (shown ++ closing, .ok ())
  else (closing, .ok ())

/-- Runs a job. A failure after the output is written leaves it there. -/
def Job.run (job : Job) (w : Workspace) : Outcome :=
  let opening := if job.verbose then Text.unlines ["Compiling " ++ job.source.text ++ "..."] else ""
  let log := if job.verbose then Text.unlines (job.log w) else ""
  match job.compile w with
  | .error f => ⟨f.trouble.exitCode, Text.plain opening, log ++ f.trouble.report job.verbose, w⟩
  | .ok (c, output, w') =>
    match job.shown c output with
    | (shown, .error f) =>
      ⟨f.trouble.exitCode, Text.plain (opening ++ shown), log ++ f.trouble.report job.verbose, w'⟩
    | (shown, .ok ()) => ⟨0, Text.plain (opening ++ shown), log, w'⟩

/-- Runs the command with its arguments. -/
def run (w : Workspace) (args : List String) : Outcome :=
  match Arguments.parse args with
  | .error f => ⟨2, "", f.text, w⟩
  | .ok a =>
    match a.question with
    | some q => ⟨0, q.answer, "", w⟩
    | none =>
      match Job.ofArguments w a with
      | .error f => ⟨2, "", f.text, w⟩
      | .ok job => job.run w

end TinyArm.Command
