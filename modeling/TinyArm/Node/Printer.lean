import TinyArm.Failure
import TinyArm.Node.Walk

/-!
# Trees as text

`expressionText` writes an expression with parentheses around every operation, `outline` writes a program with one line
for each function and each `return`. A node of a kind that has no place in an expression is shown by the name of its
kind. `print` is the outline as one text; it fails only where an item of a list is absent.
-/

namespace TinyArm

namespace Node

variable {ν κ : Type} [ToString ν] [ToString κ]

/-- An operator in an expression; the operator may be missing. -/
def operatorText (op : Option Operator) : String := (op.map fun o => o.symbol.toString).getD "None"

/-- An expression with all its parentheses; nothing for an absent one. -/
def expressionText : Node ν κ → String
  | absent => ""
  | number _ value => toString value
  | call _ name => toString name ++ "()"
  | binary _ op left right =>
    "(" ++ expressionText left ++ " " ++ operatorText op ++ " " ++ expressionText right ++ ")"
  | n => "<" ++ n.kindName ++ ">"

/-- A line at depth `d`, two blanks for each level. -/
def indented (d : Nat) (s : String) : String := String.ofList (List.replicate (2 * d) ' ') ++ s

mutual

/-- The lines of a tree at depth `d`: programs, functions and `return`s have one each. -/
def outline (d : Nat) : Node ν κ → List String
  | program _ fs => indented d "Program" :: outlineAll (d + 1) fs
  | function _ name type body =>
    indented d ("Function: " ++ type.keyword ++ " " ++ toString name ++ "()") :: outlineAll (d + 1) body
  | ret _ absent => [indented d "Return"]
  | ret _ value => [indented d ("Return " ++ expressionText value)]
  | binary _ _ left right => outline d left ++ outline d right
  | _ => []

/-- The lines of the trees of a list. -/
def outlineAll (d : Nat) : List (Node ν κ) → List String
  | [] => []
  | n :: ns => outline d n ++ outlineAll d ns

end

/-- Whether a program or function outside of `return`s has an item that is absent. -/
def hasHole (n : Node ν κ) : Bool := n.isAbsent || (n.walk isReturn 0).any fun m => m.2.items.any isAbsent

/-- The outline of a tree as one text. -/
def print (n : Node ν κ) : Except Failure String :=
  if n.hasHole then .error (.lacks (absent : Node ν κ).kindName "__dict__") else .ok ("\n".intercalate (outline 0 n))

end Node

end TinyArm
