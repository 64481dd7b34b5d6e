import TinyArm.Failure
import TinyArm.Text.Control
import TinyArm.Text.Lines

/-!
# Reports of a failed command

`Trouble` sorts failures by what the user can do about them; this decides the exit code and how the text is introduced.
-/

namespace TinyArm

/-- Why a command fails. -/
inductive Trouble where
  /-- A defect of the compiler. -/
  | internal (text : String)
  /-- The program is rejected. -/
  | program (text : String)
  /-- An argument or a file cannot be used. -/
  | argument (text : String)
  /-- Anything else. -/
  | unforeseen (text : String)
  deriving DecidableEq

namespace Trouble

/-- The exit code. -/
def exitCode : Trouble → Nat
  | program _ => 1
  | argument _ => 2
  | internal _ | unforeseen _ => 3

/-- The text on the error stream. -/
def message : Trouble → String
  | internal t | program t => t
  | argument t => "Error: " ++ t
  | unforeseen t => "Internal error: " ++ t

/-- The lines on the error stream. In verbose mode a trouble of the compiler itself is followed by the active trace,
and there is none. -/
def lines (verbose : Bool) (t : Trouble) : List String :=
  t.message :: if verbose && t.exitCode == 3 then ["NoneType: None"] else []

/-- What is shown on the error stream, as plain text. -/
def report (verbose : Bool) (t : Trouble) : String := Text.plain (Text.unlines (t.lines verbose))

end Trouble

/-- The trouble that a failure makes. -/
def Failure.trouble (f : Failure) : Trouble :=
  match f with
  | diagnostic d => if d.cause.isInternal then .internal f.message else .program f.message
  | source _ | file .missing _ => .argument f.message
  | _ => .unforeseen f.message

end TinyArm
