import TinyArm.Assembly.Generation
import TinyArm.Node.Reader
import TinyArm.Typing

/-!
# Compiling a source

`compile` reads the tokens of a source, makes a tree of them, checks it and generates its code; the first failure ends
it. `compilationLog` lists what each stage has done, as far as the compilation comes.
-/

namespace TinyArm

/-- What may be chosen about a compilation. -/
structure Options where
  /-- The suffix of the default output file. -/
  outputSuffix : String := ".s"
  /-- Whether the result holds the tokens. -/
  keepTokens : Bool := false
  deriving DecidableEq

/-- The result of a compilation. -/
structure Compiled where
  filename : String
  /-- The tokens, if they are kept. -/
  tokens : List Token
  /-- How many tokens there were, the end of input among them. -/
  tokenCount : Nat
  tree : Tree
  assembly : Assembly

/-- Compiles a source. -/
def compile (options : Options) (source file : String) : Except Failure Compiled := do
  let ts ← tokens source file
  let raw ← RawNode.ofTokens file (quotedLines source) ts
  (analyze raw.tree).2
  let assembly ← generate raw.tree
  return ⟨file, if options.keepTokens then ts else [], ts.length, raw.tree, assembly⟩

/-- The assembly of a source as text. -/
def compileText (source file : String) : Except Failure String := (compile {} source file).map (·.assembly.text)

/-! ## The log -/

/-- What a stage has done. -/
inductive LogEntry where
  /-- A file was split into so many tokens. -/
  | tokenized (file : String) (count : Nat)
  /-- A function with so many statements was read. -/
  | readFunction (name : Value) (type : DataType) (statements : Nat)
  /-- So many functions of a file were read. -/
  | read (file : String) (functions : Nat)
  | analyzed (functions : Nat)
  | generated (lines functions : Nat)
  | compiled (file : String) (functions : Nat)
  deriving DecidableEq

namespace LogEntry

/-- The stage that an entry comes from. -/
def stage : LogEntry → String
  | tokenized .. | compiled .. => "compiler"
  | readFunction .. | read .. => "parser"
  | analyzed _ => "analyzer"
  | generated .. => "codegen"

/-- The wording of an entry. -/
def message : LogEntry → String
  | tokenized file n => file ++ ": " ++ toString n ++ " tokens"
  | readFunction name type n =>
    "Parsed function '" ++ name.spelling ++ "' returning " ++ type.keyword ++ " with " ++ toString n ++ " statement(s)"
  | read file n => "Parsed " ++ toString n ++ " function(s) from " ++ file
  | analyzed n => "Analyzed " ++ toString n ++ " function(s)"
  | generated l n => "Generated " ++ toString l ++ " line(s) for " ++ toString n ++ " function(s)"
  | compiled file n => file ++ ": compiled " ++ toString n ++ " function(s)"

/-- An entry as a line of output. -/
def text (e : LogEntry) : String := "DEBUG: rcc.tinyc." ++ e.stage ++ ": " ++ e.message

/-- The entry for a function that was read. -/
def ofFunction : RawNode → List LogEntry
  | .function _ name type body => [.readFunction name type body.length]
  | _ => []

end LogEntry

/-- The log of the stages after reading. -/
def backLog (file : String) (tree : Tree) : List LogEntry :=
  let n := tree.functions.length
  match (analyze tree).2 with
  | .error _ => []
  | .ok () =>
    .analyzed n ::
      match generate tree with
      | .error _ => []
      | .ok a => [.generated a.lines.length n, .compiled file n]

/-- The log of compiling a source. -/
def compilationLog (source file : String) : List LogEntry :=
  match tokens source file with
  | .error _ => []
  | .ok ts =>
    .tokenized file ts.length ::
      match readTokens file ts with
      | .error h => h.functions.reverse.flatMap LogEntry.ofFunction
      | .ok raw =>
        raw.functions.flatMap LogEntry.ofFunction ++ .read file raw.functions.length :: backLog file raw.tree

end TinyArm
