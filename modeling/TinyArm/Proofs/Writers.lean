import TinyArm.Assembly.Writer
import TinyArm.Node.Writer
import TinyArm.Proofs.Nodes
import TinyArm.Proofs.Printing

/-!
# What writers write

A writer adds the lines of a tree to those that it holds, and comes back to the depth that it was at; it fails where the
tree has no code, or no outline. Since a writer drops what it holds before it starts on a tree, the text is that of the
tree alone, whatever was written before and wherever that stopped.

* `CodeWriter.write_snd`: **a writer of assembly writes the text of the code** of the tree.
* `OutlineWriter.write_snd`: **a writer of outlines writes the outline** of the tree.
-/

namespace TinyArm

/-! ## Assembly -/

namespace CodeWriter

variable (w : CodeWriter)

theorem instructions_append (c d : List Instruction) :
    w.instructions (c ++ d) = (w.instructions c).instructions d :=
  List.foldl_append

theorem lines_instructions (c : List Instruction) :
    (w.instructions c).lines = w.lines ++ c.map fun i => "    " ++ i.text := by
  induction c generalizing w with
  | nil => simp [instructions]
  | cons i c ih =>
    rw [show w.instructions (i :: c) = (w.instruction i).instructions c from rfl, ih]
    simp [instruction, line]

/-- The right operand is written first, then what keeps it, then the left operand. -/
theorem result_expression (n : Tree) : (w.expression n).result = (expressionCode n).map w.instructions := by
  induction n using Node.induct generalizing w with
  | binary loc op left right ihl ihr =>
    cases op with
    | none => rfl
    | some op =>
      rw [expression, Outcome.result_andThen, ihr, expressionCode]
      cases expressionCode right with
      | error f => rfl
      | ok r =>
        simp only [Except.map, Except.bind, Outcome.result_andThen, ihl]
        cases expressionCode left with
        | error f => rfl
        | ok l =>
          simp only [Except.map, Outcome.result]
          rw [instructions_append, ← List.singleton_append, instructions_append, instructions_append]
          rfl
  | _ => rfl

theorem result_statement (n : Tree) : (w.statement n).result = (statementCode n).map w.instructions := by
  cases n with
  | ret loc value =>
    by_cases hv : value = .absent
    · subst hv; rfl
    · rw [statement.eq_2 _ _ _ hv, statementCode.eq_2 _ _ hv, Outcome.result_andThen, result_expression]
      cases expressionCode value with
      | error f => rfl
      | ok c => simp only [Except.map, Except.bind, Outcome.result, instructions_append]; rfl
  | _ => rfl

theorem result_statements (ns : List Tree) : (w.statements ns).result = (bodyCode ns).map w.instructions := by
  induction ns generalizing w with
  | nil => rfl
  | cons s rest ih =>
    rw [statements, Outcome.result_andThen, result_statement, bodyCode]
    cases statementCode s with
    | error f => rfl
    | ok c =>
      simp only [Except.map, Except.bind, ih]
      cases bodyCode rest with
      | error f => rfl
      | ok d => simp only [instructions_append]

/-- The lines of a function are those of its block. -/
theorem result_function (n : Tree) :
    (w.function n).result = (functionBlock n).map fun b => ⟨w.lines ++ b.lines⟩ := by
  cases n with
  | function loc name type body =>
    rw [function, Outcome.result_andThen, result_statements, functionBlock]
    cases bodyCode body with
    | error f => rfl
    | ok code =>
      simp only [Except.map, Except.bind, Outcome.result, close, line, Block.lines]
      split <;> simp [instruction, line, lines_instructions]
  | _ => rfl

theorem result_functions (fs : List Tree) :
    (w.functions fs).result = (functionBlocks fs).map fun a => ⟨w.lines ++ a.lines⟩ := by
  induction fs generalizing w with
  | nil => simp [functions, functionBlocks, Outcome.result, Except.map, Assembly.lines]
  | cons f rest ih =>
    rw [functions, Outcome.result_andThen, result_function, functionBlocks]
    cases functionBlock f with
    | error g => rfl
    | ok b =>
      simp only [Except.map, Except.bind, ih]
      cases functionBlocks rest with
      | error g => rfl
      | ok a => simp [Assembly.lines]

/-- **A writer of assembly writes the text of the code** of a tree, whatever it holds. -/
theorem write_snd (n : Tree) : (w.write n).2 = (generate n).map Assembly.text := by
  cases n with
  | program loc fs =>
    simp only [write, generate, result_functions]
    cases functionBlocks fs with
    | error f => rfl
    | ok a => simp [Except.map, Assembly.text]
  | _ => rfl

end CodeWriter

/-! ## Outlines -/

namespace Node

variable {ν κ : Type}

/-- Whether an item below a tree is missing, whatever depth the walk starts at. -/
theorem any_walk_isReturn (n : Node ν κ) (d : Nat) :
    ((n.walk isReturn d).any fun m => m.2.items.any isAbsent) =
      (n.walk isReturn 0).any fun m => m.2.items.any isAbsent := by
  have h := congrArg (List.any · fun m : Node ν κ => m.items.any isAbsent) (map_snd_walk isReturn n d)
  simpa only [List.any_map, Function.comp_def] using h

theorem any_walkAll_isReturn (ns : List (Node ν κ)) (d : Nat) :
    (ns.any isAbsent || (walkAll isReturn d ns).any fun m => m.2.items.any isAbsent) = ns.any hasHole := by
  induction ns with
  | nil => rfl
  | cons n ns ih =>
    rw [List.any_cons, walkAll, List.any_append, List.any_cons, ← ih, any_walk_isReturn, hasHole]
    ac_rfl

theorem hasHole_program (loc : Location) (fs : List (Node ν κ)) : (program loc fs).hasHole = fs.any hasHole := by
  rw [← any_walkAll_isReturn fs 1]
  rfl

theorem hasHole_function (loc : Location) (name : ν) (type : DataType) (body : List (Node ν κ)) :
    (function loc name type body).hasHole = body.any hasHole := by
  rw [← any_walkAll_isReturn body 1]
  rfl

/-- An operand that is missing is no hole. -/
theorem hasHole_binary (loc : Location) (op : Option Operator) (left right : Node ν κ) :
    (binary loc op left right).hasHole =
      ((!left.isAbsent && left.hasHole) || (!right.isAbsent && right.hasHole)) := by
  have below (n : Node ν κ) : ((n.walk isReturn 1).any fun m => m.2.items.any isAbsent) =
      (!n.isAbsent && n.hasHole) := by
    rw [any_walk_isReturn, hasHole]
    cases n <;> rfl
  rw [← below left, ← below right, ← List.any_append]
  rfl

end Node

namespace OutlineWriter

variable {ν κ : Type} [ToString ν] [ToString κ] (w : OutlineWriter)

/-- What a writer comes to where it adds lines, unless a hole stops it. -/
def added (hole : Bool) (ls : List String) : Except Failure OutlineWriter :=
  if hole then .error (.lacks (Node.absent : Tree).kindName "__dict__") else .ok ⟨w.lines ++ ls, w.depth⟩

theorem added_nil : w.added false [] = .ok w := by
  simp [added]

/-- Lines that are added behind lines that are added. -/
theorem added_bind {b c : Bool} {ls : List String} (ms : Nat → List String)
    {next : OutlineWriter → Except Failure OutlineWriter} (h : ∀ w : OutlineWriter, next w = w.added c (ms w.depth)) :
    (w.added b ls).bind next = w.added (b || c) (ls ++ ms w.depth) := by
  cases b with
  | true => rfl
  | false => simp [added, Except.bind, h]

/-- Lines one deeper than the line before them. -/
theorem added_deeper (s : String) (hole : Bool) (ls : List String) :
    (((w.line s).deeper.added hole ls).map back) = w.added hole (Node.indented w.depth s :: ls) := by
  cases hole with
  | true => rfl
  | false => simp [added, Except.map, line, deeper, back]

/-- Whether visiting a tree adds the lines of its outline. -/
def Visits (n : Node ν κ) : Prop := ∀ w, (visit w n).result = w.added n.hasHole (Node.outline w.depth n)

theorem result_visitAll {ns : List (Node ν κ)} (h : ∀ n ∈ ns, Visits n) :
    (visitAll w ns).result = w.added (ns.any Node.hasHole) (Node.outlineAll w.depth ns) := by
  induction ns generalizing w with
  | nil => exact w.added_nil.symm
  | cons n ns ih =>
    rw [visitAll, Outcome.result_andThen, h n List.mem_cons_self]
    exact w.added_bind (Node.outlineAll · ns) fun w => ih w fun m hm => h m (List.mem_cons_of_mem _ hm)

/-- Below a program or a function a writer goes one deeper, and comes back. -/
theorem result_below (s : String) {ns : List (Node ν κ)} (h : ∀ n ∈ ns, Visits n) :
    (((visitAll (w.line s).deeper ns).andThen fun w => (w.back, .ok ())) : Outcome OutlineWriter).result =
      w.added (ns.any Node.hasHole) (Node.indented w.depth s :: Node.outlineAll (w.depth + 1) ns) := by
  rw [Outcome.result_andThen, result_visitAll _ h, ← added_deeper]
  rfl

/-- An operand that is missing adds nothing. -/
theorem result_operand {n : Node ν κ} (h : Visits n) :
    (if n.isAbsent then (w, .ok ()) else visit w n : Outcome OutlineWriter).result =
      w.added (!n.isAbsent && n.hasHole) (Node.outline w.depth n) := by
  cases n with
  | absent => exact w.added_nil.symm
  | _ => exact h w

/-- Visiting any tree adds the lines of its outline. -/
theorem visits (n : Node ν κ) : Visits n := by
  intro w
  induction n using Node.induct generalizing w with
  | absent => rfl
  | program loc fs ih =>
    rw [visit, w.result_below _ ih, Node.hasHole_program]
    rfl
  | function loc name type body ih =>
    rw [visit, w.result_below _ ih, Node.hasHole_function]
    rfl
  | ret loc value _ =>
    by_cases hv : value = .absent
    · subst hv
      rfl
    · rw [visit, Node.isAbsent_eq_false_iff.2 hv, Node.outline.eq_4 _ _ _ hv]
      rfl
  | binary loc op left right ihl ihr =>
    rw [visit, Outcome.result_andThen, w.result_operand ihl, Node.hasHole_binary]
    exact w.added_bind (Node.outline · right) fun w => w.result_operand ihr
  | _ => exact w.added_nil.symm

/-- **A writer of outlines writes the outline** of a tree, whatever it holds and whatever depth it is at. -/
theorem write_snd (n : Node ν κ) : (w.write n).2 = n.print := by
  simp only [write, visits n _, Node.print, added]
  cases n.hasHole <;> rfl

end OutlineWriter

end TinyArm
