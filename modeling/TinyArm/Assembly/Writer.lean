import TinyArm.Assembly.Generation
import TinyArm.Outcome

/-!
# Writing assembly line by line

A `CodeWriter` writes the code of a program as it goes through the tree, and keeps the lines that it has written. Where
it meets a node that no code exists for it stops, and the lines before stay with it until it starts on another program.
-/

namespace TinyArm

/-- A writer of assembly, with the lines that it has written. -/
structure CodeWriter where
  lines : List String
  deriving DecidableEq

namespace CodeWriter

/-- A writer that has written nothing. -/
def new : CodeWriter := ⟨[]⟩

/-- Writes a line. -/
def line (w : CodeWriter) (s : String) : CodeWriter := ⟨w.lines ++ [s]⟩

/-- Writes an instruction. -/
def instruction (w : CodeWriter) (i : Instruction) : CodeWriter := w.line ("    " ++ i.text)

/-- Writes instructions in order. -/
def instructions (w : CodeWriter) (code : List Instruction) : CodeWriter := code.foldl instruction w

/-- Writes the code of an expression. -/
def expression (w : CodeWriter) : Tree → Outcome CodeWriter
  | .number _ n => (w.instructions (loadCode n), .ok ())
  | .call _ name => (w.instructions (callCode name), .ok ())
  | .binary loc none _ _ => (w, .error (.report (.internal .operator) loc))
  | .binary _ (some op) left right =>
    (w.expression right).andThen fun w =>
      ((w.instruction .keep).expression left).andThen fun w => (w.instruction (.combine op), .ok ())
  | .absent => (w, .error (.lacks (Node.absent : Tree).kindName "location"))
  | n => (w, .error (.report (.internal (.code n.kindName)) n.location?))

/-- Writes the code of a statement. -/
def statement (w : CodeWriter) : Tree → Outcome CodeWriter
  | .ret _ .absent => (w.instruction .ret, .ok ())
  | .ret _ value => (w.expression value).andThen fun w => (w.instruction .ret, .ok ())
  | .absent => (w, .error (.lacks (Node.absent : Tree).kindName "location"))
  | n => (w, .error (.report (.internal (.code n.kindName)) n.location?))

/-- Writes the code of statements in order. -/
def statements (w : CodeWriter) : List Tree → Outcome CodeWriter
  | [] => (w, .ok ())
  | s :: rest => (w.statement s).andThen fun w => w.statements rest

/-- Writes the end of a function: a return, unless the last statement is one, and an empty line. -/
def close (w : CodeWriter) (body : List Tree) : CodeWriter :=
  (if (body.getLast?.map Node.isReturn).getD false then w else w.instruction .ret).line ""

/-- Writes a function. -/
def function (w : CodeWriter) : Tree → Outcome CodeWriter
  | .function _ name _ body =>
    (((w.line (".globl " ++ label name)).line (label name ++ ":")).statements body).andThen fun w =>
      (w.close body, .ok ())
  | n => (w, .error (.lacks n.kindName "name"))

/-- Writes functions in order. -/
def functions (w : CodeWriter) : List Tree → Outcome CodeWriter
  | [] => (w, .ok ())
  | f :: rest => (w.function f).andThen fun w => w.functions rest

/-- Drops the lines of an earlier program and writes a program; the text is that of its lines. -/
def write (w : CodeWriter) (n : Tree) : CodeWriter × Except Failure String :=
  let r : Outcome CodeWriter :=
    match n with
    | .program _ fs => { w with lines := [] }.functions fs
    | n => ({ w with lines := [] }, .error (.lacks n.kindName "functions"))
  (r.1, r.result.map fun w => Text.unlines w.lines)

end CodeWriter

end TinyArm
