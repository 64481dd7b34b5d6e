import TinyArm.Assembly.Writer
import TinyArm.Compilation
import TinyArm.Files.Path
import TinyArm.Node.Writer

/-!
# Sessions

A session keeps the options of the compiler, the table of the latest analysis and the two writers between steps. An
analysis replaces the table and a writer's work replaces what that writer holds, whether they succeed or fail; a source
that cannot be read changes nothing.
-/

namespace TinyArm

/-- What a session keeps. -/
structure Session where
  options : Options
  table : SymbolTable
  /-- The writer of assembly, with what it wrote last. -/
  code : CodeWriter
  /-- The writer of outlines, with what it wrote last. -/
  outline : OutlineWriter
  deriving DecidableEq

namespace Session

/-- A tree to work on: one made by hand, or the source to read it from. -/
inductive Input where
  | tree (n : Tree)
  | source (source file : String)

/-- The tree of an input. -/
def Input.read : Input → Except Failure Tree
  | tree n => .ok n
  | source s f => Tree.ofSource s f

/-- A step of a session. -/
inductive Step where
  | compile (source file : String)
  /-- The default output path of a source path. -/
  | outputPath (path : String)
  | setSuffix (suffix : String)
  /-- The type of an expression, by the current table. -/
  | type (expression : Tree)
  | analyze (input : Input)
  | generate (input : Input)
  | print (input : Input)

/-- The result of an analysis: the table, and the failure if there is one. -/
structure Analysis where
  table : SymbolTable
  failure : Option Failure
  deriving DecidableEq

/-- The result of a step. -/
inductive Result where
  | nothing
  | failed (f : Failure)
  | text (s : String)
  | compiled (c : Compiled)
  | type (t : DataType)
  | analysis (a : Analysis)

/-- A result of one kind, or a failure. -/
def Result.ofExcept {α : Type} (f : α → Result) : Except Failure α → Result
  | .ok a => f a
  | .error e => failed e

/-- The analysis of a tree. -/
def analysisOf (n : Tree) : Analysis :=
  let r := TinyArm.analyze n
  ⟨r.1, match r.2 with
    | .ok () => none
    | .error f => some f⟩

/-- The default output path of a source path. -/
def outputPathFor (options : Options) (path : String) : Except Failure Path :=
  (Path.ofString path).withSuffix options.outputSuffix

/-- Takes a step. -/
def step (s : Session) : Step → Session × Result
  | .compile source file => (s, .ofExcept .compiled (TinyArm.compile s.options source file))
  | .outputPath path => (s, .ofExcept (fun p => .text p.text) (outputPathFor s.options path))
  | .setSuffix suffix => ({ s with options := { s.options with outputSuffix := suffix } }, .nothing)
  | .type e => (s, .ofExcept .type (typeOf s.table e))
  | .analyze input =>
    match input.read with
    | .error f => (s, .failed f)
    | .ok n =>
      let a := analysisOf n
      ({ s with table := a.table }, .analysis a)
  | .generate input =>
    match input.read with
    | .error f => (s, .failed f)
    | .ok n =>
      let r := s.code.write n
      ({ s with code := r.1 }, .ofExcept .text r.2)
  | .print input =>
    match input.read with
    | .error f => (s, .failed f)
    | .ok n =>
      let r := s.outline.write n
      ({ s with outline := r.1 }, .ofExcept .text r.2)

/-- The results of steps, one after the other. -/
def run (s : Session) : List Step → List Result
  | [] => []
  | x :: rest =>
    let r := s.step x
    r.2 :: run r.1 rest

/-- A session before its first step. -/
def start (options : Options) : Session := ⟨options, .empty, .new, .new⟩

end Session

end TinyArm
