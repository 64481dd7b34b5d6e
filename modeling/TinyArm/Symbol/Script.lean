import TinyArm.Symbol.Table

/-!
# Scripts over a symbol table

A script is a list of steps on one table. Running it keeps an entry for each step, with the depth of the table
afterwards. A step that raises leaves the nearest enclosing `within` step, which takes the failure as its result, or
else ends the script.
-/

namespace TinyArm

namespace SymbolTable

/-- A step of a script. -/
inductive Step where
  | enter
  | exit
  | insert (name : String) (symbol : Symbol)
  | lookup (name : String)
  | lookupLocal (name : String)
  | names
  /-- Runs steps in a scope of their own. -/
  | within (steps : List Step)
  /-- Fails with a text. -/
  | raise (text : String)

/-- What a step gives. -/
inductive StepResult where
  | nothing
  | failed (f : Failure)
  | symbol (s : Option Symbol)
  | names (ns : List String)
  deriving DecidableEq

/-- A step that was run: its word, its result, and the depth after it. -/
structure Entry where
  word : String
  result : StepResult
  depth : Nat
  deriving DecidableEq

/-- What a run of steps came to: the table, the entries, and the failure that it raised, if any. -/
structure Run where
  table : SymbolTable
  entries : List Entry
  raised : Option Failure
  deriving DecidableEq

/-- A run of one step that raises nothing. -/
def Run.single (t : SymbolTable) (word : String) (result : StepResult) : Run := ⟨t, [⟨word, result, t.depth⟩], none⟩

/-- The result of a step that gives nothing unless it fails. -/
def StepResult.ofOutcome : Except Failure Unit → StepResult
  | .ok () => nothing
  | .error f => failed f

mutual

/-- Runs a step. -/
def runStep (t : SymbolTable) : Step → Run
  | .enter => .single t.enter "enter" .nothing
  | .exit =>
    match t.exit with
    | .ok t' => .single t' "exit" .nothing
    | .error f => .single t "exit" (.failed f)
  | .insert name symbol => .single (t.insert name symbol) "insert" .nothing
  | .lookup name => .single t "lookup" (.symbol (t.lookup name))
  | .lookupLocal name => .single t "lookup_local" (.symbol (t.lookupLocal name))
  | .names => .single t "names" (.names t.names)
  | .within steps =>
    let inner := runSteps t.enter steps
    let outcome : Except Failure Unit :=
      match inner.raised with
      | none => .ok ()
      | some f => .error f
    let r := inner.table.leave outcome
    ⟨r.1, inner.entries ++ [⟨"with", .ofOutcome r.2, r.1.depth⟩], none⟩
  | .raise text => ⟨t, [], some (.raised text)⟩

/-- Runs steps in order, up to the first that raises. -/
def runSteps (t : SymbolTable) : List Step → Run
  | [] => ⟨t, [], none⟩
  | s :: rest =>
    let r := runStep t s
    match r.raised with
    | some f => ⟨r.table, r.entries, some f⟩
    | none =>
      let r' := runSteps r.table rest
      ⟨r'.table, r.entries ++ r'.entries, r'.raised⟩

end

/-- The entries of a script on a new table; a failure that no step takes makes a last entry. -/
def runScript (steps : List Step) : List Entry :=
  let r := runSteps .empty steps
  match r.raised with
  | none => r.entries
  | some f => r.entries ++ [⟨"raised", .failed f, r.table.depth⟩]

end SymbolTable

end TinyArm
