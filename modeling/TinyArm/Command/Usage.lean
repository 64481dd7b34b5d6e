import TinyArm.Text.Control
import TinyArm.Text.Quoted

/-!
# The arguments of the command

`Arguments.parse` reads the options and the other arguments. Options may stand anywhere before `--`. A long option may
hold its value after `=`; short ones may be put together, and the last may be followed by its value at once. Of an
option given twice the last value counts.

* `UsageFault.text` words what is wrong with the arguments.
* `helpText` and `versionText` answer `--help` and `--version`, of which the first given counts.
-/

namespace TinyArm.Command

/-! ## Faults -/

/-- What is wrong with the arguments. -/
inductive UsageFault where
  /-- An option lacks its value. -/
  | needsValue (option : String)
  /-- A flag is given a value. -/
  | takesNoValue (option : String)
  | unknownOption (option : String)
  /-- There is no source file argument. -/
  | noSource
  | sourceMissing (path : String)
  | sourceIsDirectory (path : String)
  /-- The source file has another suffix than `.c`. -/
  | sourceSuffix
  | outputIsDirectory (path : String)
  /-- There are more arguments than the source file. -/
  | extraArguments (args : List String)
  deriving DecidableEq

namespace UsageFault

/-- The wording of a fault. -/
def message : UsageFault → String
  | needsValue o => "Option " ++ Text.quote o ++ " requires an argument."
  | takesNoValue o => "Option " ++ Text.quote o ++ " does not take a value."
  | unknownOption o => "No such option: " ++ o
  | noSource => "Missing argument 'FILE.c'."
  | sourceMissing p => "Invalid value for 'FILE.c': File " ++ Text.quote p ++ " does not exist."
  | sourceIsDirectory p => "Invalid value for 'FILE.c': File " ++ Text.quote p ++ " is a directory."
  | sourceSuffix => "Invalid value for 'FILE.c': input file must have a .c extension"
  | outputIsDirectory p => "Invalid value for '-o' / '--output': File " ++ Text.quote p ++ " is a directory."
  | extraArguments args =>
    let noun := if args.length = 1 then "argument" else "arguments"
    "Got unexpected extra " ++ noun ++ " (" ++ " ".intercalate args ++ ")"

/-- Whether a fault is about the value of a single option; such a fault is shown without the usage. -/
def isBrief : UsageFault → Bool
  | needsValue _ | takesNoValue _ => true
  | _ => false

/-- The usage of the command. -/
def usage : String := "Usage: rcc [OPTIONS] FILE.c\nTry 'rcc --help' for help.\n\n"

/-- What is shown for a fault, as plain text. -/
def text (f : UsageFault) : String :=
  Text.plain ((if f.isBrief then "" else usage) ++ "Error: " ++ f.message ++ "\n")

end UsageFault

/-! ## Answers to questions -/

/-- The answer to `--version`. -/
def versionText : String := "rcc, version 0.1.0\n"

/-- The answer to `--help`. -/
def helpText : String :=
  "Usage: rcc [OPTIONS] FILE.c\n" ++
  "\n" ++
  "  Compile a Tiny-C source file to AArch64 assembly.\n" ++
  "\n" ++
  "  FILE.c is the source file to compile.\n" ++
  "\n" ++
  "  Examples:\n" ++
  "      rcc hello.c                  # Outputs hello.s\n" ++
  "      rcc hello.c -o out.s         # Specify output file\n" ++
  "      rcc -p hello.c               # Print tokens, AST and assembly\n" ++
  "\n" ++
  "  Supported language:\n" ++
  "      - int and void functions without parameters\n" ++
  "      - return statements\n" ++
  "      - integer literals, zero-argument calls\n" ++
  "      - + - * / with parentheses\n" ++
  "\n" ++
  "Options:\n" ++
  "  -o, --output FILE   Output assembly file (default: input with .s suffix)\n" ++
  "  -p, --print-output  Print the output of each stage of the compiler\n" ++
  "  -v, --verbose       Verbose output\n" ++
  "  --version           Show the version and exit.\n" ++
  "  --help              Show this message and exit.\n"

/-- A question that the command answers instead of compiling. -/
inductive Question where
  | version
  | help
  deriving DecidableEq

/-- The answer to a question. -/
def Question.answer : Question → String
  | version => versionText
  | help => helpText

/-! ## Options -/

/-- An option. -/
inductive Flag where
  /-- Names the output file; the only option with a value. -/
  | output
  /-- Shows what each stage gives. -/
  | print
  | verbose
  | ask (q : Question)
  deriving DecidableEq

/-- The option of a long name. -/
def Flag.ofLong? (s : String) : Option Flag :=
  if s = "--output" then some output
  else if s = "--print-output" then some print
  else if s = "--verbose" then some verbose
  else if s = "--version" then some (ask .version)
  else if s = "--help" then some (ask .help)
  else none

/-- The option of a short name. -/
def Flag.ofShort? : Char → Option Flag
  | 'o' => some output
  | 'p' => some print
  | 'v' => some verbose
  | _ => none

/-- The arguments as they are given. -/
structure Arguments where
  /-- The value of the last output option. -/
  output : Option String := none
  print : Bool := false
  verbose : Bool := false
  /-- The first question asked. -/
  question : Option Question := none
  /-- The arguments that are no options. -/
  others : List String := []
  deriving DecidableEq

namespace Arguments

/-- One more option without a value. -/
def flag (a : Arguments) : Flag → Arguments
  | .output => a
  | .print => { a with print := true }
  | .verbose => { a with verbose := true }
  | .ask q => { a with question := a.question <|> some q }

/-- One more output option. -/
def setOutput (a : Arguments) (value : String) : Arguments := { a with output := some value }

/-- One more argument that is no option. -/
def other (a : Arguments) (s : String) : Arguments := { a with others := a.others ++ [s] }

/-- What an argument that holds options comes to: the arguments so far, and the name of an option at its end that still
needs its value. -/
abbrev Step := Except UsageFault (Arguments × Option String)

/-- Short options put together. -/
def shortFlags (a : Arguments) : List Char → Step
  | [] => .ok (a, none)
  | c :: cs =>
    match Flag.ofShort? c with
    | none => .error (.unknownOption (String.ofList ['-', c]))
    | some .output => if cs = [] then .ok (a, some "-o") else .ok (a.setOutput (String.ofList cs), none)
    | some f => shortFlags (a.flag f) cs

/-- An argument that starts with a dash: a long option, or else short ones. -/
def optionArgument (a : Arguments) (arg : String) : Step :=
  let cs := arg.toList
  let name := String.ofList (cs.takeWhile (· ≠ '='))
  let value : Option String :=
    match cs.dropWhile (· ≠ '=') with
    | [] => none
    | _ :: v => some (String.ofList v)
  match Flag.ofLong? name, value with
  | some .output, some v => .ok (a.setOutput v, none)
  | some .output, none => .ok (a, some name)
  | some _, some _ => .error (.takesNoValue name)
  | some f, none => .ok (a.flag f, none)
  | none, _ => if cs.take 2 = ['-', '-'] then .error (.unknownOption name) else shortFlags a cs.tail

/-- Whether an argument holds options: it starts with a dash and is longer. -/
def isOption (arg : String) : Bool :=
  match arg.toList with
  | '-' :: _ :: _ => true
  | _ => false

/-- Reads arguments from left to right; `waiting` is the option that takes the next one as its value. -/
def parseFrom (a : Arguments) (waiting : Option String) : List String → Except UsageFault Arguments
  | [] =>
    match waiting with
    | none => .ok a
    | some o => .error (.needsValue o)
  | arg :: rest =>
    match waiting with
    | some _ => parseFrom (a.setOutput arg) none rest
    | none =>
      if arg = "--" then .ok { a with others := a.others ++ rest }
      else if isOption arg then
        match optionArgument a arg with
        | .error f => .error f
        | .ok (a', w) => parseFrom a' w rest
      else parseFrom (a.other arg) none rest

/-- Reads the arguments of the command. -/
def parse (args : List String) : Except UsageFault Arguments := parseFrom {} none args

end Arguments

end TinyArm.Command
