import TinyArm.Proofs.Histories
import TinyArm.Typing

/-!
# Scopes that are left again

A scope is left whatever its run comes to, and the table is then as it was before, with all its scopes and with the
bindings of each in their order. A `Body` is such a run, as a tree of questions: it binds and asks for names, opens
scopes of its own, and fails, with whatever it was told so far in hand. It cannot leave the scope that it runs in.

* `Body.outer_run`, `outer_runSteps`: a run changes nothing but the innermost scope.
* `withScope_eq_of_outer`: **what changes only its own scope leaves no trace**, and its outcome stands.
* `withScope_restores`: scopes are left again after any body, after the steps of a script, and after analysis.
-/

namespace TinyArm.SymbolTable

/-! ## Bodies -/

/-- A run on a table that opens and leaves scopes in pairs only. It goes on as it is told: with the symbol or the names
that it asked for, or with the outcome of a scope of its own, which it may pass on or not. -/
inductive Body where
  | done
  | raise (f : Failure)
  | insert (name : String) (symbol : Symbol) (next : Body)
  | lookup (name : String) (next : Option Symbol → Body)
  | lookupLocal (name : String) (next : Option Symbol → Body)
  | names (next : List String → Body)
  | within (inner : Body) (next : Except Failure Unit → Body)

/-- The table after a body, and what the body came to. -/
def Body.run : Body → SymbolTable → SymbolTable × Except Failure Unit
  | done, t => (t, .ok ())
  | raise f, t => (t, .error f)
  | insert name symbol next, t => next.run (t.insert name symbol)
  | lookup name next, t => (next (t.lookup name)).run t
  | lookupLocal name next, t => (next (t.lookupLocal name)).run t
  | names next, t => (next t.names).run t
  | within inner next, t =>
    let r := t.withScope inner.run
    (next r.2).run r.1

/-- The scopes around a scope are those that it was opened in. -/
theorem exit_of_outer {t u : SymbolTable} (h : u.outer = t.enter.outer) : u.exit = .ok t := by
  rw [exit, h]
  rfl

/-- **What changes only its own scope leaves no trace**: the table is as before, and the outcome stands. -/
theorem withScope_eq_of_outer {α : Type} {t : SymbolTable} {body : SymbolTable → SymbolTable × Except Failure α}
    (h : (body t.enter).1.outer = t.enter.outer) : t.withScope body = (t, (body t.enter).2) := by
  rw [withScope, leave, exit_of_outer h]

/-- A body changes nothing but the innermost scope. -/
theorem Body.outer_run (b : Body) (t : SymbolTable) : (b.run t).1.outer = t.outer := by
  induction b generalizing t with
  | done | raise => rfl
  | insert name symbol next ih => exact ih _
  | lookup name next ih | lookupLocal name next ih | names next ih => exact ih _ t
  | within inner next ihInner ihNext =>
    rw [run, withScope_eq_of_outer (ihInner t.enter)]
    exact ihNext _ t

/-! ## Scripts -/

mutual

/-- Whether a step opens and leaves scopes in pairs only. -/
def Step.isPaired : Step → Bool
  | .enter | .exit => false
  | .within steps => allPaired steps
  | _ => true

/-- Whether steps open and leave scopes in pairs only. -/
def allPaired : List Step → Bool
  | [] => true
  | s :: rest => s.isPaired && allPaired rest

end

/-- The failure that ends a list of steps: that of the first step that raises one. A failure in a scope of its own ends
only that scope. -/
def raisedBy : List Step → Option Failure
  | [] => none
  | .raise text :: _ => some (.raised text)
  | _ :: rest => raisedBy rest

theorem raised_runSteps_eq (t : SymbolTable) (steps : List Step) : (runSteps t steps).raised = raisedBy steps := by
  induction steps generalizing t with
  | nil => rfl
  | cons s rest ih =>
    cases s with
    | raise text => rfl
    | exit => simp [runSteps, raised_runStep (s := .exit) rfl, raisedBy, ih]
    | _ => exact ih _

/-- The step of a scope gives the table back, and its result is what its steps came to. -/
theorem runStep_within {t : SymbolTable} {steps : List Step}
    (h : (runSteps t.enter steps).table.outer = t.enter.outer) : runStep t (.within steps) =
      ⟨t, (runSteps t.enter steps).entries ++ [⟨"with", (raisedBy steps).elim .nothing .failed, t.depth⟩], none⟩ := by
  rw [← raised_runSteps_eq t.enter, runStep, leave, exit_of_outer h]
  cases (runSteps t.enter steps).raised <;> rfl

mutual

/-- A step changes nothing but the innermost scope. -/
theorem outer_runStep (t : SymbolTable) : ∀ {s : Step}, s.isPaired = true → (runStep t s).table.outer = t.outer
  | .insert .., _ | .lookup _, _ | .lookupLocal _, _ | .names, _ | .raise _, _ => rfl
  | .within steps, h => by rw [runStep_within (outer_runSteps t.enter h)]

/-- Steps change nothing but the innermost scope. -/
theorem outer_runSteps (t : SymbolTable) : ∀ {steps : List Step}, allPaired steps = true →
    (runSteps t steps).table.outer = t.outer
  | [], _ => rfl
  | s :: rest, h => by
    rw [allPaired, Bool.and_eq_true] at h
    have hs := outer_runStep t h.1
    rw [runSteps]
    split
    · exact hs
    · exact (outer_runSteps _ h.2).trans hs

end

/-! ## Analysis -/

/-- The check of a function declares its name and leaves no other trace. -/
theorem outer_checkFunction {κ : Type} (t : SymbolTable) (f : Node String κ) : (checkFunction t f).1.outer = t.outer := by
  cases f with
  | function loc name type body =>
    rw [checkFunction]
    split
    · rfl
    · rw [withScope_eq_of_outer rfl]
      rfl
  | _ => rfl

theorem outer_checkFunctions {κ : Type} (t : SymbolTable) (fs : List (Node String κ)) :
    (checkFunctions t fs).1.outer = t.outer := by
  induction fs generalizing t with
  | nil => rfl
  | cons f rest ih =>
    have hf := outer_checkFunction t f
    rw [checkFunctions]
    split
    · next t' h => rw [ih, ← hf, h]
    · next t' e h => rw [← hf, h]

theorem depth_analyze {κ : Type} (n : Node String κ) : (analyze n).1.depth = 1 := by
  cases n with
  | program loc fs =>
    have ho := outer_checkFunctions .empty fs
    rw [analyze, depth, scopes, ho]
    rfl
  | _ => rfl

/-! ## Scopes are left again -/

/-- **Scopes are left again.** After a scope the table is as it was before, with all its scopes and with the bindings of
each in their order, and what the body came to stands: for any body, and for the steps of a script that open and leave
scopes in pairs. After analysis the global scope is the only one, whether the program is accepted or not. -/
theorem withScope_restores {κ : Type} :
    (∀ (t : SymbolTable) (b : Body), t.withScope b.run = (t, (b.run t.enter).2)) ∧
    (∀ (t : SymbolTable) (steps : List Step), allPaired steps = true → runStep t (.within steps) =
      ⟨t, (runSteps t.enter steps).entries ++ [⟨"with", (raisedBy steps).elim .nothing .failed, t.depth⟩], none⟩) ∧
    ∀ n : Node String κ, (analyze n).1.depth = 1 :=
  ⟨fun t b => withScope_eq_of_outer (b.outer_run t.enter), fun t _ h => runStep_within (outer_runSteps t.enter h),
    depth_analyze⟩

/-- A table in whose inner scope the name of an outer one is hidden. -/
def hidingTable : SymbolTable :=
  ⟨[("f", ⟨.variable, .void⟩)], [[("g", ⟨.function, .int⟩), ("f", ⟨.function, .int⟩)]]⟩

/-- A body that binds a name anew, and fails in a scope of its own for what it finds there. -/
def failingInside : Body :=
  .insert "g" ⟨.variable, .void⟩ <| .within
    (.insert "f" ⟨.function, .void⟩ <| .lookup "g" fun s =>
      if s = some ⟨.variable, .void⟩ then .raise (.raised "inner") else .done)
    fun
    | .ok () => .done
    | .error f => .raise f

theorem withScope_restores_failingInside :
    hidingTable.withScope failingInside.run = (hidingTable, .error (.raised "inner")) ∧
    allPaired [.insert "f" ⟨.function, .void⟩, .within [.raise "inner"], .raise "outer", .names] = true ∧
    runStep hidingTable (.within [.insert "f" ⟨.function, .void⟩, .within [.raise "inner"], .raise "outer", .names]) =
      ⟨hidingTable, [⟨"insert", .nothing, 3⟩, ⟨"with", .failed (.raised "inner"), 3⟩,
        ⟨"with", .failed (.raised "outer"), 2⟩], none⟩ := by
  obtain ⟨hb, hs, -⟩ := withScope_restores (κ := Int)
  have hp : allPaired [.insert "f" ⟨.function, .void⟩, .within [.raise "inner"], .raise "outer", .names] = true := rfl
  refine ⟨(hb hidingTable failingInside).trans ?_, hp, (hs hidingTable _ hp).trans ?_⟩
  · rfl
  · rfl

end TinyArm.SymbolTable
