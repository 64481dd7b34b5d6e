import TinyArm.Operator
import TinyArm.Text.Lines

/-!
# Assembly for AArch64

The instructions that expressions and functions are made of, as data, with their text. Results are in register `w0`; a
right operand waits in `w1`; a call saves the frame pointer and the link register around it. An `Assembly` is a list of
blocks, one for each function.
-/

namespace TinyArm

/-- An instruction. -/
inductive Instruction where
  /-- Loads a number into `w0`. -/
  | load (n : Int)
  /-- Sets the high half of `w0`. -/
  | loadHigh (n : Int)
  /-- Copies `w0` to `w1`. -/
  | keep
  /-- Puts `w0 op w1` into `w0`. -/
  | combine (op : Operator)
  /-- Saves the frame pointer and the link register on the stack. -/
  | save
  /-- Calls a function. -/
  | call (name : String)
  /-- Takes the frame pointer and the link register from the stack. -/
  | restore
  /-- Returns to the caller. -/
  | ret
  deriving DecidableEq

/-- The mnemonic of an operator. -/
def Operator.mnemonic : Operator → String
  | add => "add"
  | subtract => "sub"
  | multiply => "mul"
  | divide => "sdiv"

/-- The label of a function. -/
def label (name : String) : String := "_" ++ name

/-- The text of an instruction. -/
def Instruction.text : Instruction → String
  | load n => "mov w0, " ++ toString n
  | loadHigh n => "movk w0, " ++ toString n ++ ", lsl 16"
  | keep => "mov w1, w0"
  | combine op => op.mnemonic ++ " w0, w0, w1"
  | save => "stp x29, x30, [sp, #-16]!"
  | call name => "bl " ++ label name
  | restore => "ldp x29, x30, [sp], #16"
  | ret => "ret"

/-- The code of a function. -/
structure Block where
  name : String
  code : List Instruction
  deriving DecidableEq

/-- The lines of a block: the directive that exports the label, the label, the code, and an empty line. -/
def Block.lines (b : Block) : List String :=
  [".globl " ++ label b.name, label b.name ++ ":"] ++ b.code.map (fun i => "    " ++ i.text) ++ [""]

/-- The code of a program, function by function. -/
abbrev Assembly := List Block

namespace Assembly

/-- The lines of an assembly. -/
def lines (a : Assembly) : List String := a.flatMap Block.lines

/-- The text of an assembly. -/
def text (a : Assembly) : String := Text.unlines (lines a)

theorem text_append (a b : Assembly) : text (a ++ b) = text a ++ text b := by
  simp [text, lines, Text.unlines_append]

end Assembly

end TinyArm
