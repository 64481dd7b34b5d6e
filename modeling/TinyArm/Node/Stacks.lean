import TinyArm.Failure
import TinyArm.Node

/-!
# Operands and operators of an expression under way

While an expression is read, its finished parts wait on one stack and its operators and open parentheses on another,
both with the latest first. An operator is applied to the two latest operands as soon as a later operator binds no
tighter, its parenthesis is closed, or the expression ends.

* `Stacks.operator`: a later operator first applies those that bind at least as tightly.
* `Stacks.close`: a closing parenthesis applies all operators after its opening one.
* `Stacks.finish`: at the end all operators are applied and at most one operand may be left.
-/

namespace TinyArm

/-- A tree with the values of tokens at its leaves. -/
abbrev RawNode := Node Value Value

/-! ## Refusals -/

/-- Why tokens are no tree. -/
inductive Refusal where
  /-- The program is rejected for this cause, at this place if it is known. -/
  | diagnosed (cause : Cause) (location : Option Location)
  /-- A type keyword has a value that names no type. -/
  | typeKeyword (value : Value)
  deriving DecidableEq

/-- Line number `n` of a list of lines, counted from one. -/
def sourceLine? (lines : List String) (n : Int) : Option String := if 0 < n then lines[(n - 1).toNat]? else none

/-- The failure that a refusal makes, with the line of the source that it is about if there is such a line. -/
def Refusal.failure (lines : List String) : Refusal → Failure
  | diagnosed cause location => .diagnostic ⟨cause, location, location.bind fun l => sourceLine? lines l.line⟩
  | typeKeyword v => .typeKeyword v

/-! ## Stacks -/

/-- An entry of the operator stack. -/
inductive Pending where
  /-- An open parenthesis. -/
  | group (loc : Location)
  /-- An operator that waits for its right operand. -/
  | operator (loc : Location) (op : Operator)
  deriving DecidableEq

/-- The parts of an expression under way. -/
structure Stacks where
  operands : List RawNode
  pending : List Pending

/-- The operator `op` applied to the two latest operands. -/
def applyOperator (loc : Location) (op : Operator) : List RawNode → Except Refusal (List RawNode)
  | right :: left :: rest => .ok (.binary loc (some op) left right :: rest)
  | _ => .error (.diagnosed (.operands "not enough operands") loc)

/-- Applies the latest operators as long as they bind at least as tightly as `p`. -/
def reduceOperators (p : Nat) : List RawNode → List Pending → Except Refusal Stacks
  | operands, .operator loc op :: pending =>
    if p ≤ op.precedence then
      match applyOperator loc op operands with
      | .ok operands => reduceOperators p operands pending
      | .error e => .error e
    else .ok ⟨operands, .operator loc op :: pending⟩
  | operands, pending => .ok ⟨operands, pending⟩

/-- Applies the operators after the latest open parenthesis and closes it; `loc` is the place of the closing one. -/
def closeGroup (loc : Location) : List RawNode → List Pending → Except Refusal Stacks
  | _, [] => .error (.diagnosed .parentheses loc)
  | operands, .group _ :: pending => .ok ⟨operands, pending⟩
  | operands, .operator l op :: pending =>
    match applyOperator l op operands with
    | .ok operands => closeGroup loc operands pending
    | .error e => .error e

/-- Applies all operators; no parenthesis may be open. -/
def applyAll : List RawNode → List Pending → Except Refusal (List RawNode)
  | operands, [] => .ok operands
  | _, .group l :: _ => .error (.diagnosed .parentheses l)
  | operands, .operator l op :: pending =>
    match applyOperator l op operands with
    | .ok operands => applyAll operands pending
    | .error e => .error e

namespace Stacks

/-- The stacks at the start of an expression. -/
def empty : Stacks := ⟨[], []⟩

/-- One more operand. -/
def operand (s : Stacks) (n : RawNode) : Stacks := ⟨n :: s.operands, s.pending⟩

/-- One more open parenthesis. -/
def group (s : Stacks) (loc : Location) : Stacks := ⟨s.operands, .group loc :: s.pending⟩

/-- One more operator. -/
def operator (s : Stacks) (loc : Location) (op : Operator) : Except Refusal Stacks :=
  match reduceOperators op.precedence s.operands s.pending with
  | .ok r => .ok ⟨r.operands, .operator loc op :: r.pending⟩
  | .error e => .error e

/-- A closing parenthesis. -/
def close (s : Stacks) (loc : Location) : Except Refusal Stacks := closeGroup loc s.operands s.pending

/-- The end of the expression: its tree, which is absent if there was no operand. A second operand that no operator
joins to the first is one too many. -/
def finish (s : Stacks) : Except Refusal RawNode :=
  match applyAll s.operands s.pending with
  | .error e => .error e
  | .ok operands =>
    match operands.reverse with
    | [] => .ok .absent
    | [value] => .ok value
    | _ :: extra :: _ => .error (.diagnosed (.operands "too many operands") extra.location?)

end Stacks

end TinyArm
