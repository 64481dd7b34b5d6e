import TinyArm.Bindings
import TinyArm.Failure

/-!
# Symbols in scopes

A `Scope` binds names to symbols, in the order in which the names were first bound. A `SymbolTable` is a stack of scopes
that is never empty; the outermost is the global one.

* `SymbolTable.exit_enter`: leaving the scope just entered gives the table back.
* `SymbolTable.withScope` runs a body in a scope of its own, which is left whatever the body comes to.
-/

namespace TinyArm

/-- What a name refers to. -/
inductive SymbolKind where
  | function
  | variable
  deriving DecidableEq

/-- What is known of a name. -/
structure Symbol where
  kind : SymbolKind
  type : DataType
  deriving DecidableEq

/-- The names of a scope with their symbols. -/
abbrev Scope := Bindings String Symbol

/-! ## The table -/

/-- A stack of scopes. -/
structure SymbolTable where
  /-- The innermost scope. -/
  top : Scope
  /-- The scopes around it, the nearest first. -/
  outer : List Scope
  deriving DecidableEq

namespace SymbolTable

/-- The table with an empty global scope. -/
def empty : SymbolTable := ⟨[], []⟩

/-- All scopes, the innermost first. -/
def scopes (t : SymbolTable) : List Scope := t.top :: t.outer

/-- How many scopes there are. -/
def depth (t : SymbolTable) : Nat := t.scopes.length

/-- Opens a new innermost scope. -/
def enter (t : SymbolTable) : SymbolTable := ⟨[], t.scopes⟩

/-- Leaves the innermost scope; the global scope cannot be left. -/
def exit (t : SymbolTable) : Except Failure SymbolTable :=
  match t.outer with
  | [] => .error (.report (.internal .globalScope) none)
  | s :: rest => .ok ⟨s, rest⟩

/-- Binds a name in the innermost scope. -/
def insert (t : SymbolTable) (name : String) (symbol : Symbol) : SymbolTable := { t with top := Bindings.put name symbol t.top }

/-- The symbol of a name in the nearest scope that binds it. -/
def lookup (t : SymbolTable) (name : String) : Option Symbol := t.scopes.findSome? (Bindings.find? name)

/-- The symbol of a name in the innermost scope. -/
def lookupLocal (t : SymbolTable) (name : String) : Option Symbol := Bindings.find? name t.top

/-- The names of the innermost scope. -/
def names (t : SymbolTable) : List String := Bindings.keys t.top

/-- Leaves the innermost scope after a run in it: the outcome of the run stands, unless the scope cannot be left. -/
def leave {α : Type} (t : SymbolTable) (outcome : Except Failure α) : SymbolTable × Except Failure α :=
  match t.exit with
  | .ok t' => (t', outcome)
  | .error e => (t, .error e)

/-- Runs `body` in a scope of its own, which is left however the body ends. -/
def withScope {α : Type} (t : SymbolTable) (body : SymbolTable → SymbolTable × Except Failure α) :
    SymbolTable × Except Failure α :=
  let r := body t.enter
  r.1.leave r.2

theorem depth_pos (t : SymbolTable) : 0 < t.depth := Nat.succ_pos _

@[simp] theorem exit_enter (t : SymbolTable) : t.enter.exit = .ok t := rfl

@[simp] theorem depth_enter (t : SymbolTable) : t.enter.depth = t.depth + 1 := rfl

@[simp] theorem depth_insert (t : SymbolTable) (name : String) (symbol : Symbol) :
    (t.insert name symbol).depth = t.depth := rfl

/-- A new scope hides nothing. -/
@[simp] theorem lookup_enter (t : SymbolTable) (name : String) : t.enter.lookup name = t.lookup name := rfl

end SymbolTable

end TinyArm
