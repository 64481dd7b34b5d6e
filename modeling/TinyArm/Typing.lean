import TinyArm.Node
import TinyArm.Symbol.Table

/-!
# Typing

`typeOf` finds the type of an expression: a literal is `int`, an absent value is `void`, a call has the type that its
name is declared with, and an operator has the common type of its operands. `analyze` checks a program: functions are
taken in order, each is declared before its body is checked, none twice, and every `return` has the declared type. It
gives the table of declared functions in either case; the first failure ends the analysis.
-/

namespace TinyArm

variable {κ : Type}

/-- The type of an expression. -/
def typeOf (table : SymbolTable) : Node String κ → Except Failure DataType
  | .absent => .ok .void
  | .number .. => .ok .int
  | .call loc name =>
    match table.lookup name with
    | some s => .ok s.type
    | none => .error (.report (.undefined name) loc)
  | .binary loc _ left right =>
    match typeOf table left with
    | .error e => .error e
    | .ok l =>
      match typeOf table right with
      | .error e => .error e
      | .ok r => if l = r then .ok l else .error (.report (.mismatch (some l) (some r)) loc)
  | n => .error (.report (.internal (.expression n.kindName)) n.location?)

/-- Checks a statement of a function that returns `type`. -/
def checkStatement (table : SymbolTable) (type : DataType) : Node String κ → Except Failure Unit
  | .ret loc value =>
    match typeOf table value with
    | .error e => .error e
    | .ok found => if found = type then .ok () else .error (.report (.returnType (some type) (some found)) loc)
  | .absent => .error (.lacks (Node.absent : Node String κ).kindName "location")
  | n => .error (.report (.internal (.statement n.kindName)) n.location?)

/-- Checks the statements of a function that returns `type`, in order. -/
def checkBody (table : SymbolTable) (type : DataType) : List (Node String κ) → Except Failure Unit
  | [] => .ok ()
  | s :: rest =>
    match checkStatement table type s with
    | .ok () => checkBody table type rest
    | .error e => .error e

/-- Declares a function and checks its body in a scope of its own. -/
def checkFunction (table : SymbolTable) : Node String κ → SymbolTable × Except Failure Unit
  | .function loc name type body =>
    if (table.lookupLocal name).isSome then (table, .error (.report (.duplicate name) loc))
    else (table.insert name ⟨.function, type⟩).withScope fun t => (t, checkBody t type body)
  | n => (table, .error (.lacks n.kindName "name"))

/-- Declares and checks functions in order. -/
def checkFunctions (table : SymbolTable) : List (Node String κ) → SymbolTable × Except Failure Unit
  | [] => (table, .ok ())
  | f :: rest =>
    match checkFunction table f with
    | (t, .ok ()) => checkFunctions t rest
    | (t, .error e) => (t, .error e)

/-- Checks a program, starting from an empty table. -/
def analyze : Node String κ → SymbolTable × Except Failure Unit
  | .program _ functions => checkFunctions .empty functions
  | n => (.empty, .error (.lacks n.kindName "functions"))

end TinyArm
