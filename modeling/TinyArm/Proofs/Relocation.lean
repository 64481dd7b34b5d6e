import Mathlib.Data.List.Basic
import TinyArm.Assembly.Generation
import TinyArm.Proofs.Spelling
import TinyArm.Node.Reader
import TinyArm.Typing

/-!
# Locations are handed on

Tokens and trees can be moved: `relocate g` puts whatever stands at `l` to `g l`. Reading, analysis and generation look
at no location, they only hand locations on; so what they make of something moved is what they make of it, moved.

* `Reader.run_relocate`, `Reader.finish_relocate`: reading moved tokens.
* `Reader.run_forget`: reading tokens that differ in nothing but their places.
* `Node.same_iff`: trees that agree in everything but their places are equal once the places are forgotten.
* `analyze_relocate`: analysing a moved tree; the table does not change.
* `generate_relocate`: the code of a moved tree is the code of the tree.
-/

namespace TinyArm

/-- What becomes of an outcome if the failure is read by `f` and the result by `h`. -/
def bimap {ε ε' α α' : Type} (f : ε → ε') (h : α → α') : Except ε α → Except ε' α'
  | .ok a => .ok (h a)
  | .error e => .error (f e)

section Definitions

variable {ν κ : Type} (g : Location → Location)

/-! ## Moving -/

/-- A token, moved. -/
def Token.relocate (t : Token) : Token := { t with location := g t.location }

mutual

/-- A tree, moved. -/
def Node.relocate : Node ν κ → Node ν κ
  | .absent => .absent
  | .program loc fs => .program (g loc) (relocateAll fs)
  | .function loc name type body => .function (g loc) name type (relocateAll body)
  | .ret loc value => .ret (g loc) (relocate value)
  | .number loc value => .number (g loc) value
  | .call loc name => .call (g loc) name
  | .binary loc op left right => .binary (g loc) op (relocate left) (relocate right)
  | .bare loc kind => .bare (g loc) kind

/-- The trees of a list, moved. -/
def Node.relocateAll : List (Node ν κ) → List (Node ν κ)
  | [] => []
  | n :: ns => relocate n :: relocateAll ns

end

/-- An entry of the operator stack, moved. -/
def Pending.relocate : Pending → Pending
  | group loc => group (g loc)
  | operator loc op => operator (g loc) op

/-- Stacks, moved. -/
def Stacks.relocate (s : Stacks) : Stacks := ⟨s.operands.map (Node.relocate g), s.pending.map (Pending.relocate g)⟩

/-- A refusal, moved. -/
def Refusal.relocate : Refusal → Refusal
  | diagnosed cause loc => diagnosed cause (loc.map g)
  | typeKeyword v => typeKeyword v

/-- A failure, moved. The line that it shows is kept. -/
def Failure.relocate : Failure → Failure
  | diagnostic d => diagnostic { d with location := d.location.map g }
  | f => f

/-- The front of a function, moved. -/
def Header.relocate (h : Header) : Header := { h with loc := g h.loc }

/-- A `return` under way, moved. -/
def Returning.relocate (r : Returning) : Returning :=
  ⟨r.header.relocate g, r.done.map (Node.relocate g), g r.loc, r.parts.relocate g⟩

namespace Reader

/-- A state, moved. -/
def State.relocate : State → State
  | outside => outside
  | typed loc type => typed (g loc) type
  | named h => named (h.relocate g)
  | opened h => opened (h.relocate g)
  | closed h => closed (h.relocate g)
  | body h done => body (h.relocate g) (done.map (Node.relocate g))
  | value r => value (r.relocate g)
  | callee r name => callee (r.relocate g) (name.relocate g)
  | calling r name => calling (r.relocate g) (name.relocate g)

/-- A refusal of a token, moved. -/
def Stop.relocate (s : Stop) : Stop := { s with refusal := s.refusal.relocate g }

/-- A reading that broke off, moved. -/
def Halt.relocate (h : Halt) : Halt :=
  ⟨h.refusal.relocate g, h.functions.map (Node.relocate g), h.rest.map (Token.relocate g)⟩

end Reader

/-- A reader, moved. -/
def Reader.relocate (m : Reader) : Reader := ⟨m.functions.map (Node.relocate g), m.state.relocate g⟩

end Definitions

/-! ## Trees -/

namespace Node

variable {ν κ ν' κ' : Type} (g : Location → Location)

theorem relocateAll_eq_map (ns : List (Node ν κ)) : relocateAll g ns = ns.map (relocate g) := by
  induction ns with
  | nil => rfl
  | cons n ns ih => rw [relocateAll, ih, List.map_cons]

@[simp] theorem location?_relocate (n : Node ν κ) : (n.relocate g).location? = n.location?.map g := by
  cases n <;> rfl

@[simp] theorem isReturn_relocate (n : Node ν κ) : (n.relocate g).isReturn = n.isReturn := by
  cases n <;> rfl

@[simp] theorem isAbsent_relocate (n : Node ν κ) : (n.relocate g).isAbsent = n.isAbsent := by
  cases n <;> rfl

theorem relocate_eq_absent_iff {n : Node ν κ} : n.relocate g = absent ↔ n = absent := by
  cases n <;> simp [relocate]

theorem items_relocate (n : Node ν κ) : (n.relocate g).items = n.items.map (relocate g) := by
  cases n with
  | program | function => exact relocateAll_eq_map g _
  | _ => rfl

/-- Moving a tree does not change its leaves. -/
theorem map_relocate (f : ν → ν') (h : κ → κ') (n : Node ν κ) :
    (n.relocate g).map f h = (n.map f h).relocate g := by
  induction n using induct with
  | program loc fs ih =>
    simp only [relocate, map, relocateAll_eq_map, mapAll_eq_map, List.map_map]
    congr 1
    exact List.map_congr_left ih
  | function loc name type body ih =>
    simp only [relocate, map, relocateAll_eq_map, mapAll_eq_map, List.map_map]
    congr 1
    exact List.map_congr_left ih
  | ret loc value ih => simp only [relocate, map, ih]
  | binary loc op left right ihl ihr => simp only [relocate, map, ihl, ihr]
  | _ => rfl

end Node

theorem RawNode.tree_relocate (g : Location → Location) (n : RawNode) :
    RawNode.tree (n.relocate g) = (RawNode.tree n).relocate g :=
  Node.map_relocate g _ _ n

/-! ## Stacks -/

section Stacks

variable (g : Location → Location)

theorem applyOperator_relocate {loc : Location} {op : Operator} {operands : List RawNode}
    {r : Except Refusal (List RawNode)} (h : applyOperator loc op operands = r) :
    applyOperator (g loc) op (operands.map (Node.relocate g)) =
      bimap (Refusal.relocate g) (List.map (Node.relocate g)) r := by
  subst h
  match operands with
  | [] => rfl
  | [_] => rfl
  | _ :: _ :: _ => rfl

theorem reduceOperators_relocate (p : Nat) (operands : List RawNode) (pending : List Pending) :
    reduceOperators p (operands.map (Node.relocate g)) (pending.map (Pending.relocate g)) =
      bimap (Refusal.relocate g) (Stacks.relocate g) (reduceOperators p operands pending) := by
  induction pending generalizing operands with
  | nil => rfl
  | cons e pending ih =>
    cases e with
    | group loc => rfl
    | operator loc op =>
      rw [List.map_cons, Pending.relocate, reduceOperators, reduceOperators]
      split
      · cases ha : applyOperator loc op operands with
        | ok operands' =>
          rw [applyOperator_relocate g ha]
          exact ih operands'
        | error e =>
          rw [applyOperator_relocate g ha]
          rfl
      · rfl

theorem closeGroup_relocate (loc : Location) (operands : List RawNode) (pending : List Pending) :
    closeGroup (g loc) (operands.map (Node.relocate g)) (pending.map (Pending.relocate g)) =
      bimap (Refusal.relocate g) (Stacks.relocate g) (closeGroup loc operands pending) := by
  fun_induction closeGroup loc operands pending with
  | case1 => rfl
  | case2 => rfl
  | case3 operands l op pending operands' ha ih =>
    simp only [List.map_cons, Pending.relocate, closeGroup, applyOperator_relocate g ha, bimap, ih]
  | case4 operands l op pending e ha =>
    simp only [List.map_cons, Pending.relocate, closeGroup, applyOperator_relocate g ha, bimap]

theorem applyAll_relocate (operands : List RawNode) (pending : List Pending) :
    applyAll (operands.map (Node.relocate g)) (pending.map (Pending.relocate g)) =
      bimap (Refusal.relocate g) (List.map (Node.relocate g)) (applyAll operands pending) := by
  fun_induction applyAll operands pending with
  | case1 => rfl
  | case2 => rfl
  | case3 operands l op pending operands' ha ih =>
    simp only [List.map_cons, Pending.relocate, applyAll, applyOperator_relocate g ha, bimap, ih]
  | case4 operands l op pending e ha =>
    simp only [List.map_cons, Pending.relocate, applyAll, applyOperator_relocate g ha, bimap]

namespace Stacks

theorem operator_relocate (s : Stacks) (loc : Location) (op : Operator) :
    (s.relocate g).operator (g loc) op = bimap (Refusal.relocate g) (relocate g) (s.operator loc op) := by
  simp only [operator, relocate, reduceOperators_relocate]
  cases reduceOperators op.precedence s.operands s.pending <;> rfl

theorem close_relocate (s : Stacks) (loc : Location) :
    (s.relocate g).close (g loc) = bimap (Refusal.relocate g) (relocate g) (s.close loc) :=
  closeGroup_relocate g loc s.operands s.pending

theorem finish_relocate (s : Stacks) :
    (s.relocate g).finish = bimap (Refusal.relocate g) (Node.relocate g) s.finish := by
  simp only [finish, relocate, applyAll_relocate]
  cases applyAll s.operands s.pending with
  | error e => rfl
  | ok operands =>
    simp only [bimap, ← List.map_reverse]
    match operands.reverse with
    | [] => rfl
    | [_] => rfl
    | _ :: extra :: _ => simp [Refusal.relocate]

end Stacks

end Stacks

/-! ## Readers -/

namespace Reader

variable (g : Location → Location)

theorem stepValue_relocate (r : Returning) (t : Token) :
    stepValue (r.relocate g) (t.relocate g) = bimap (Stop.relocate g) (State.relocate g) (stepValue r t) := by
  obtain ⟨type, value, loc⟩ := t
  cases type with
  | number | identifier | leftParen => rfl
  | rightParen =>
    simp only [stepValue, Token.relocate, Returning.relocate, Stacks.close_relocate]
    cases r.parts.close loc <;> rfl
  | operator op =>
    simp only [stepValue, Token.relocate, Returning.relocate, Stacks.operator_relocate]
    cases r.parts.operator loc op <;> rfl
  | _ =>
    simp only [stepValue, Token.relocate, Returning.relocate, Stacks.finish_relocate]
    cases r.parts.finish <;> rfl

theorem step_relocate (m : Reader) (t : Token) :
    (m.relocate g).step (t.relocate g) = bimap (Stop.relocate g) (relocate g) (m.step t) := by
  obtain ⟨fs, q⟩ := m
  obtain ⟨type, value, loc⟩ := t
  cases q with
  | outside =>
    cases type with
    | typeName =>
      simp only [step, relocate, State.relocate, Token.relocate, TokenType.isTypeName, if_true]
      cases typeOfValue? value <;> rfl
    | _ => rfl
  | body h done =>
    cases type with
    | rightBrace =>
      simp only [step, relocate, State.relocate, Token.relocate, bimap, List.map_cons, Node.relocate,
        Node.relocateAll_eq_map, List.map_reverse, Header.relocate]
    | _ => rfl
  | value r =>
    simp only [step, relocate, State.relocate, stepValue_relocate]
    cases stepValue r ⟨type, value, loc⟩ <;> rfl
  | _ => cases type <;> rfl

/-- **Reading moved tokens** is reading the tokens and moving what they are read to. -/
theorem run_relocate (m : Reader) (ts : List Token) :
    (m.relocate g).run (ts.map (Token.relocate g)) = bimap (Halt.relocate g) (relocate g) (m.run ts) := by
  induction ts generalizing m with
  | nil => rfl
  | cons t ts ih =>
    rw [List.map_cons, run, step_relocate, run]
    cases m.step t with
    | ok m' => exact ih m'
    | error s => cases h : s.taken <;> simp [bimap, Halt.relocate, Stop.relocate, h, relocate]

theorem finish_relocate (m : Reader) (eof : Token) :
    (m.relocate g).finish (eof.relocate g) =
      bimap (Refusal.relocate g) (List.map (Node.relocate g)) (m.finish eof) := by
  obtain ⟨fs, q⟩ := m
  cases q with
  | value r =>
    simp only [finish, relocate, State.relocate, Returning.relocate, Stacks.finish_relocate]
    cases r.parts.finish <;> rfl
  | _ => rfl

end Reader

/-! ## Tokens of one content -/

/-- One place for all. -/
def Location.forget (_ : Location) : Location := ⟨"", 1, 1⟩

/-- Tokens that stand at one place are told apart by their types and values. -/
theorem map_forget_eq_iff {ts us : List Token} :
    ts.map (Token.relocate .forget) = us.map (Token.relocate .forget) ↔
      ts.map Token.content = us.map Token.content := by
  have hc : Token.content ∘ Token.relocate .forget = Token.content := rfl
  have hr : (fun k => ⟨k.1, k.2, ⟨"", 1, 1⟩⟩) ∘ Token.content = Token.relocate .forget := rfl
  constructor
  · intro h
    rw [← hc, ← List.map_map, h, List.map_map]
  · intro h
    rw [← hr, ← List.map_map, h, List.map_map]

/-- **What tokens are read to does not depend on where they stand**, but for the places in it. -/
theorem Reader.run_forget {m m' : Reader} (hm : m.relocate .forget = m'.relocate .forget) {ts us : List Token}
    (h : ts.map Token.content = us.map Token.content) :
    bimap (Halt.relocate .forget) (relocate .forget) (m.run ts) =
      bimap (Halt.relocate .forget) (relocate .forget) (m'.run us) := by
  rw [← run_relocate, ← run_relocate, hm, map_forget_eq_iff.2 h]

/-! ## Trees without places -/

section Same

variable {ν κ : Type} [DecidableEq ν] [DecidableEq κ]

theorem Node.sameAll_iff {ns ms : List (Node ν κ)}
    (h : ∀ n ∈ ns, ∀ m, n.same m = true ↔ n.relocate .forget = m.relocate .forget) :
    sameAll ns ms = true ↔ ns.map (relocate .forget) = ms.map (relocate .forget) := by
  induction ns generalizing ms with
  | nil => cases ms <;> simp [sameAll]
  | cons n ns ih =>
    cases ms with
    | nil => simp [sameAll]
    | cons m ms =>
      rw [sameAll, Bool.and_eq_true, h n List.mem_cons_self, ih fun k hk => h k (List.mem_cons_of_mem _ hk)]
      simp

/-- **Trees agree in everything but their places** exactly if they are equal once these are forgotten. -/
theorem Node.same_iff (n m : Node ν κ) : n.same m = true ↔ n.relocate .forget = m.relocate .forget := by
  induction n using Node.induct generalizing m with
  | program loc fs ih =>
    cases m <;> simp [same, relocate, relocateAll_eq_map, sameAll_iff ih, Location.forget]
  | function loc name type body ih =>
    cases m <;> simp [same, relocate, relocateAll_eq_map, sameAll_iff ih, Location.forget, and_assoc]
  | ret loc value ih => cases m <;> simp [same, relocate, ih, Location.forget]
  | binary loc op left right ihl ihr => cases m <;> simp [same, relocate, ihl, ihr, Location.forget, and_assoc]
  | _ => cases m <;> simp [same, relocate, Location.forget]

end Same

/-! ## Analysis -/

section Analysis

variable {κ : Type} (g : Location → Location)

theorem typeOf_relocate (table : SymbolTable) (e : Node String κ) :
    typeOf table (e.relocate g) = (typeOf table e).mapError (Failure.relocate g) := by
  induction e using Node.induct with
  | call loc name =>
    simp only [Node.relocate, typeOf]
    cases table.lookup name <;> rfl
  | binary loc op left right ihl ihr =>
    simp only [Node.relocate, typeOf, ihl, ihr]
    cases typeOf table left with
    | error f => rfl
    | ok l =>
      cases typeOf table right with
      | error f => rfl
      | ok r => by_cases h : l = r <;> simp [Except.mapError, h, Failure.relocate, Failure.report]
  | bare loc kind => cases kind <;> rfl
  | _ => rfl

theorem checkStatement_relocate (table : SymbolTable) (type : DataType) (s : Node String κ) :
    checkStatement table type (s.relocate g) = (checkStatement table type s).mapError (Failure.relocate g) := by
  cases s with
  | ret loc value =>
    simp only [Node.relocate, checkStatement, typeOf_relocate]
    cases typeOf table value with
    | error f => rfl
    | ok found => by_cases h : found = type <;> simp [Except.mapError, h, Failure.relocate, Failure.report]
  | bare loc kind => cases kind <;> rfl
  | _ => rfl

theorem checkBody_relocate (table : SymbolTable) (type : DataType) (body : List (Node String κ)) :
    checkBody table type (body.map (Node.relocate g)) = (checkBody table type body).mapError (Failure.relocate g) := by
  induction body with
  | nil => rfl
  | cons s rest ih =>
    simp only [List.map_cons, checkBody, checkStatement_relocate]
    cases checkStatement table type s with
    | error f => rfl
    | ok => exact ih

theorem checkFunction_relocate (table : SymbolTable) (f : Node String κ) :
    checkFunction table (f.relocate g) =
      ((checkFunction table f).1, (checkFunction table f).2.mapError (Failure.relocate g)) := by
  cases f with
  | function loc name type body =>
    simp only [Node.relocate, Node.relocateAll_eq_map, checkFunction]
    split
    · rfl
    · simp only [SymbolTable.withScope, SymbolTable.leave, SymbolTable.exit_enter, checkBody_relocate]
  | bare loc kind => cases kind <;> rfl
  | _ => rfl

theorem checkFunctions_relocate (table : SymbolTable) (fs : List (Node String κ)) :
    checkFunctions table (fs.map (Node.relocate g)) =
      ((checkFunctions table fs).1, (checkFunctions table fs).2.mapError (Failure.relocate g)) := by
  induction fs generalizing table with
  | nil => rfl
  | cons f rest ih =>
    simp only [List.map_cons, checkFunctions, checkFunction_relocate]
    rcases checkFunction table f with ⟨t, e | -⟩
    · rfl
    · exact ih t

/-- **Analysing a moved tree** is analysing the tree and moving what it is rejected for. -/
theorem analyze_relocate (n : Node String κ) :
    analyze (n.relocate g) = ((analyze n).1, (analyze n).2.mapError (Failure.relocate g)) := by
  cases n with
  | program loc fs =>
    rw [Node.relocate, Node.relocateAll_eq_map]
    exact checkFunctions_relocate g .empty fs
  | bare loc kind => cases kind <;> rfl
  | _ => rfl

end Analysis

/-! ## Generation -/

section Generation

variable (g : Location → Location)

theorem expressionCode_relocate (e : Tree) :
    expressionCode (e.relocate g) = (expressionCode e).mapError (Failure.relocate g) := by
  induction e using Node.induct with
  | binary loc op left right ihl ihr =>
    cases op with
    | none => rfl
    | some op =>
      simp only [Node.relocate, expressionCode, ihl, ihr]
      cases expressionCode right with
      | error f => rfl
      | ok r => cases expressionCode left <;> rfl
  | bare loc kind => cases kind <;> rfl
  | _ => rfl

theorem statementCode_relocate (s : Tree) :
    statementCode (s.relocate g) = (statementCode s).mapError (Failure.relocate g) := by
  cases s with
  | ret loc value =>
    by_cases hn : value = .absent
    · subst hn; rfl
    · rw [Node.relocate, statementCode.eq_2 _ _ hn, statementCode.eq_2 _ _ (mt (Node.relocate_eq_absent_iff g).1 hn),
        expressionCode_relocate]
      cases expressionCode value <;> rfl
  | bare loc kind => cases kind <;> rfl
  | _ => rfl

theorem bodyCode_relocate (body : List Tree) :
    bodyCode (body.map (Node.relocate g)) = (bodyCode body).mapError (Failure.relocate g) := by
  induction body with
  | nil => rfl
  | cons s rest ih =>
    simp only [List.map_cons, bodyCode, statementCode_relocate]
    cases statementCode s with
    | error f => rfl
    | ok c =>
      simp only [Except.mapError, ih]
      cases bodyCode rest <;> rfl

theorem functionBlock_relocate (f : Tree) :
    functionBlock (f.relocate g) = (functionBlock f).mapError (Failure.relocate g) := by
  cases f with
  | function loc name type body =>
    have hl : (body.map (Node.relocate g)).getLast?.map Node.isReturn = body.getLast?.map Node.isReturn := by
      rw [List.getLast?_map, Option.map_map]
      congr 1
      funext s
      exact Node.isReturn_relocate g s
    simp only [Node.relocate, Node.relocateAll_eq_map, functionBlock, bodyCode_relocate, hl]
    cases bodyCode body <;> rfl
  | bare loc kind => cases kind <;> rfl
  | _ => rfl

theorem functionBlocks_relocate (fs : List Tree) :
    functionBlocks (fs.map (Node.relocate g)) = (functionBlocks fs).mapError (Failure.relocate g) := by
  induction fs with
  | nil => rfl
  | cons f rest ih =>
    simp only [List.map_cons, functionBlocks, functionBlock_relocate]
    cases functionBlock f with
    | error e => rfl
    | ok b =>
      simp only [Except.mapError, ih]
      cases functionBlocks rest <;> rfl

/-- **The code of a moved tree** is the code of the tree; a failure is moved. -/
theorem generate_relocate (n : Tree) : generate (n.relocate g) = (generate n).mapError (Failure.relocate g) := by
  cases n with
  | program loc fs =>
    rw [Node.relocate, Node.relocateAll_eq_map]
    exact functionBlocks_relocate g fs
  | bare loc kind => cases kind <;> rfl
  | _ => rfl

end Generation

end TinyArm
