/-!
# Places in a source

A `Position` counts lines and columns from one while text is read: a line feed starts a new line, any other character
takes one column. A `Location` is a place in a named file; tokens and trees made by hand may put it anywhere, so its
line and column are integers.

* `Position.after` is the position after a text; it composes (`after_append`).
-/

namespace TinyArm

/-- A place in a named file. -/
structure Location where
  file : String
  line : Int
  column : Int
  deriving DecidableEq

/-- A location as messages show it. -/
def Location.text (l : Location) : String := l.file ++ ":" ++ toString l.line ++ ":" ++ toString l.column

/-- A place in a text, counted from one. -/
structure Position where
  line : Nat
  column : Nat
  deriving DecidableEq

namespace Position

/-- The start of a text. -/
def start : Position := ⟨1, 1⟩

/-- The position after one more character. -/
def step (p : Position) (c : Char) : Position := if c = '\n' then ⟨p.line + 1, 1⟩ else ⟨p.line, p.column + 1⟩

/-- The position after a text that starts at `p`. -/
def after (p : Position) (cs : List Char) : Position := cs.foldl step p

/-- The position as a location in a file. -/
def inFile (p : Position) (file : String) : Location := ⟨file, p.line, p.column⟩

@[simp] theorem after_nil (p : Position) : p.after [] = p := rfl

@[simp] theorem after_cons (p : Position) (c : Char) (cs : List Char) : p.after (c :: cs) = (p.step c).after cs := rfl

theorem after_append (p : Position) (cs ds : List Char) : p.after (cs ++ ds) = (p.after cs).after ds :=
  List.foldl_append

/-- Within a line only the column moves. -/
theorem after_of_not_mem {p : Position} {cs : List Char} (h : '\n' ∉ cs) :
    p.after cs = ⟨p.line, p.column + cs.length⟩ := by
  induction cs generalizing p with
  | nil => rfl
  | cons c cs ih =>
    have hc : c ≠ '\n' := fun e => h (e ▸ List.mem_cons_self)
    rw [after_cons, ih fun m => h (List.mem_cons_of_mem _ m)]
    simp only [step, if_neg hc, List.length_cons]
    congr 1; omega

end Position

end TinyArm
