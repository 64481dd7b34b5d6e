import TinyArm.DataType
import TinyArm.Location
import TinyArm.Text.Hex

/-!
# Diagnostics

What the compiler reports about a program: a `Cause`, the place it is about, and the text of the line there, as far as
they are known. `Cause.message` words the cause and `Cause.hint` the advice that goes with it; `Diagnostic.text` puts
them together, with a caret under the column when a line is shown (`caret_length`).
-/

namespace TinyArm

/-! ## Causes -/

/-- A broken promise between two parts of the compiler. -/
inductive Defect where
  /-- A statement of a kind that analysis does not know. -/
  | statement (node : String)
  /-- An expression of a kind that analysis does not know. -/
  | expression (node : String)
  /-- A node of a kind that no code exists for. -/
  | code (node : String)
  /-- A binary node without an operator. -/
  | operator
  /-- The global scope was to be left. -/
  | globalScope
  /-- Any other defect, in words. -/
  | other (message : String)
  deriving DecidableEq

/-- The wording of a defect. -/
def Defect.message : Defect → String
  | statement n => "unsupported statement " ++ n
  | expression n => "unsupported expression " ++ n
  | code n => "cannot generate code for " ++ n
  | operator => "unsupported operator None"
  | globalScope => "attempted to exit the global scope"
  | other m => m

/-- What a diagnostic is about. The general causes carry their own wording and advice. -/
inductive Cause where
  /-- Any trouble of the compiler. -/
  | general (message : String) (hint : Option String)
  /-- Any trouble with the form of a program. -/
  | form (message : String) (hint : Option String)
  /-- A comment that is not closed. -/
  | openComment
  /-- A literal, given by its digits, beyond 32 bits. -/
  | literalRange (digits : String)
  /-- A character that starts no token. -/
  | character (c : Char)
  /-- Any trouble with the order of tokens. -/
  | order (message : String) (hint : Option String)
  /-- A token where something else, if known, belongs. -/
  | token (found : String) (expected : Option String)
  /-- The end of input where something else belongs. -/
  | endOfInput (expected : String)
  /-- A parenthesis without its partner. -/
  | parentheses
  /-- Operands and operators that do not make one value. -/
  | operands (reason : String)
  /-- A construct that the language lacks. -/
  | unimplemented (construct : String)
  /-- Any trouble with the meaning of a program. -/
  | meaning (message : String) (hint : Option String)
  /-- A call of a function that is not defined before. -/
  | undefined (name : String)
  /-- A second definition of a function. -/
  | duplicate (name : String)
  /-- Any trouble with types: the required type and the one found, if known. -/
  | typing (message : String) (expected actual : Option DataType)
  /-- Operands of different types. -/
  | mismatch (left right : Option DataType)
  /-- A return value that is not of the declared type. -/
  | returnType (expected found : Option DataType)
  /-- Any trouble with code generation. -/
  | generation (message : String) (hint : Option String)
  /-- A defect of the compiler. -/
  | internal (defect : Defect)
  deriving DecidableEq

/-- The greatest integer literal. -/
def maxLiteral : Nat := 0xFFFFFFFF

/-- A type that may be unknown, as messages show it. -/
def typeText (t : Option DataType) : String := (t.map DataType.keyword).getD "None"

namespace Cause

/-- The wording of a cause. -/
def message : Cause → String
  | general m _ | form m _ | order m _ | meaning m _ | typing m _ _ | generation m _ => m
  | openComment => "unterminated multi-line comment"
  | literalRange ds => "integer literal '" ++ ds ++ "' out of range"
  | character c => "invalid character '" ++ c.toString ++ "' (0x" ++ Text.hexUpper 2 c.toNat ++ ")"
  | token found _ => "unexpected token '" ++ found ++ "'"
  | endOfInput expected => "unexpected end of input, expected " ++ expected
  | parentheses => "mismatched parentheses"
  | operands reason => "invalid expression: " ++ reason
  | unimplemented construct => "not implemented: " ++ construct
  | undefined name => "undefined symbol '" ++ name ++ "'"
  | duplicate name => "redefinition of '" ++ name ++ "'"
  | mismatch l r => "type mismatch: '" ++ typeText l ++ "' and '" ++ typeText r ++ "'"
  | returnType e _ => "return type mismatch: function returns '" ++ typeText e ++ "'"
  | internal d => "internal compiler error: " ++ d.message

/-- The advice on two types, when both are known. -/
def typeHint : Option DataType → Option DataType → Option String
  | some e, some a => some ("expected '" ++ e.keyword ++ "', got '" ++ a.keyword ++ "'")
  | _, _ => none

/-- The advice that goes with a cause. An empty expectation gives none. -/
def hint : Cause → Option String
  | general _ h | form _ h | order _ h | meaning _ h | generation _ h => h
  | openComment => some "add closing */ to terminate the comment"
  | literalRange _ => some ("literals must not exceed " ++ toString maxLiteral)
  | token _ (some expected) => if expected = "" then none else some ("expected " ++ expected)
  | unimplemented _ => some "only 'return' statements are supported"
  | undefined _ => some "functions must be defined before they are called"
  | typing _ e a | returnType e a => typeHint e a
  | _ => none

/-- Whether a cause is a defect of the compiler and not of the program. -/
def isInternal : Cause → Bool
  | internal _ => true
  | _ => false

end Cause

/-! ## Diagnostics -/

/-- A report about a program. -/
structure Diagnostic where
  cause : Cause
  location : Option Location
  sourceLine : Option String
  deriving DecidableEq

namespace Diagnostic

/-- The mark under column `column` of a line that is shown behind four blanks. -/
def caret (column : Int) : List String :=
  if 0 < column then [String.ofList (List.replicate (3 + column.toNat) ' ' ++ ['^'])] else []

/-- The lines of a report: the message, the source line with its mark, the advice unless it is empty. -/
def lines (d : Diagnostic) : List String :=
  let place := (d.location.map fun l => l.text ++ ": ").getD ""
  let context :=
    match d.sourceLine, d.location with
    | some line, some l => ("    " ++ line) :: caret l.column
    | _, _ => []
  let advice := (d.cause.hint.filter (· ≠ "")).toList.map ("hint: " ++ ·)
  (place ++ "error: " ++ d.cause.message) :: context ++ advice

/-- A report as text. -/
def text (d : Diagnostic) : String := "\n".intercalate d.lines

/-- The mark stands under the character of its column: both have the same number of characters before them. -/
theorem caret_length (column : Nat) :
    (caret (column + 1)).map String.length = ["    ".length + column + 1] := by
  have h : (0 : Int) < column + 1 := by omega
  have e : ((column : Int) + 1).toNat = column + 1 := by omega
  simp only [caret, h, if_true, e, List.map_cons, List.map_nil, String.length_ofList, List.length_append,
    List.length_replicate, List.length_cons, List.length_nil, show "    ".length = 4 by decide]
  congr 1; omega

end Diagnostic

end TinyArm
