import TinyArm.Node.Printer
import TinyArm.Outcome

/-!
# Writing outlines line by line

An `OutlineWriter` writes the outline of a tree as it goes through it. It keeps the lines that it has written and the
depth that it is at; below a program or a function it is one deeper. Where an item is absent it stops, and the lines and
the depth stay with it until it starts on another tree.
-/

namespace TinyArm

/-- A writer of outlines, with the lines that it has written and the depth that it is at. -/
structure OutlineWriter where
  lines : List String
  depth : Nat
  deriving DecidableEq

namespace OutlineWriter

variable {ν κ : Type} [ToString ν] [ToString κ]

/-- A writer that has written nothing. -/
def new : OutlineWriter := ⟨[], 0⟩

/-- Writes a line at the depth of the writer. -/
def line (w : OutlineWriter) (s : String) : OutlineWriter := { w with lines := w.lines ++ [Node.indented w.depth s] }

/-- Goes one deeper. -/
def deeper (w : OutlineWriter) : OutlineWriter := { w with depth := w.depth + 1 }

/-- Comes back from one deeper. -/
def back (w : OutlineWriter) : OutlineWriter := { w with depth := w.depth - 1 }

mutual

/-- Writes the lines of a tree. -/
def visit (w : OutlineWriter) : Node ν κ → Outcome OutlineWriter
  | .absent => (w, .error (.lacks (Node.absent : Node ν κ).kindName "__dict__"))
  | .program _ fs => (visitAll (w.line "Program").deeper fs).andThen fun w => (w.back, .ok ())
  | .function _ name type body =>
    (visitAll (w.line ("Function: " ++ type.keyword ++ " " ++ toString name ++ "()")).deeper body).andThen fun w =>
      (w.back, .ok ())
  | .ret _ value =>
    (w.line (if value.isAbsent then "Return" else "Return " ++ value.expressionText), .ok ())
  | .binary _ _ left right =>
    (if left.isAbsent then (w, .ok ()) else visit w left : Outcome OutlineWriter).andThen fun w =>
      if right.isAbsent then (w, .ok ()) else visit w right
  | _ => (w, .ok ())

/-- Writes the lines of the trees of a list. -/
def visitAll (w : OutlineWriter) : List (Node ν κ) → Outcome OutlineWriter
  | [] => (w, .ok ())
  | n :: ns => (visit w n).andThen fun w => visitAll w ns

end

/-- Drops the lines of an earlier tree, goes back to its depth, and writes a tree; the text is that of its lines. -/
def write (w : OutlineWriter) (n : Node ν κ) : OutlineWriter × Except Failure String :=
  let r := visit { w with lines := [], depth := 0 } n
  (r.1, r.result.map fun w => "\n".intercalate w.lines)

end OutlineWriter

end TinyArm
