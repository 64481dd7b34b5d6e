import TinyArm.Assembly
import TinyArm.Failure
import TinyArm.Node

/-!
# Code for trees

An expression leaves its value in `w0`. For an operator the right operand is computed first and kept in `w1` while the
left one is computed, so that the combining instruction finds the left operand in `w0` and the right one in `w1`. There
is no second place to keep an operand: a left operand that is itself an operation, or a call, overwrites `w1`.

Generation checks no types. It fails at the first node that no code exists for; at an operator that is the operator
itself, then something on the right, then something on the left.
-/

namespace TinyArm

/-- The greatest number that one instruction loads. -/
def maxImmediate : Int := 0xFFFF

/-- The code that loads a number: its low half first, then its high half if it needs one. -/
def loadCode (n : Int) : List Instruction :=
  if n ≤ maxImmediate then [.load n] else [.load (n % 0x10000), .loadHigh (n / 0x10000)]

/-- The code that calls a function. -/
def callCode (name : String) : List Instruction := [.save, .call name, .restore]

/-- The code of an expression. -/
def expressionCode : Tree → Except Failure (List Instruction)
  | .number _ n => .ok (loadCode n)
  | .call _ name => .ok (callCode name)
  | .binary loc none _ _ => .error (.report (.internal .operator) loc)
  | .binary _ (some op) left right =>
    match expressionCode right with
    | .error e => .error e
    | .ok r =>
      match expressionCode left with
      | .error e => .error e
      | .ok l => .ok (r ++ .keep :: (l ++ [.combine op]))
  | .absent => .error (.lacks (Node.absent : Tree).kindName "location")
  | n => .error (.report (.internal (.code n.kindName)) n.location?)

/-- The code of a statement. -/
def statementCode : Tree → Except Failure (List Instruction)
  | .ret _ .absent => .ok [.ret]
  | .ret _ value => (expressionCode value).map (· ++ [.ret])
  | .absent => .error (.lacks (Node.absent : Tree).kindName "location")
  | n => .error (.report (.internal (.code n.kindName)) n.location?)

/-- The code of statements in order. -/
def bodyCode : List Tree → Except Failure (List Instruction)
  | [] => .ok []
  | s :: rest =>
    match statementCode s with
    | .error e => .error e
    | .ok c => (bodyCode rest).map (c ++ ·)

/-- The block of a function. A body that does not end in a `return` gets one, so that no code runs on into the next
block. -/
def functionBlock : Tree → Except Failure Block
  | .function _ name _ body =>
    let close := if (body.getLast?.map Node.isReturn).getD false then [] else [.ret]
    (bodyCode body).map fun code => ⟨name, code ++ close⟩
  | n => .error (.lacks n.kindName "name")

/-- The blocks of functions in order. -/
def functionBlocks : List Tree → Except Failure Assembly
  | [] => .ok []
  | f :: rest =>
    match functionBlock f with
    | .error e => .error e
    | .ok b => (functionBlocks rest).map (b :: ·)

/-- The code of a program. -/
def generate : Tree → Except Failure Assembly
  | .program _ functions => functionBlocks functions
  | n => .error (.lacks n.kindName "functions")

end TinyArm
