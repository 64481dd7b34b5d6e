import Mathlib
import TinyArm.Proofs.Registers
import TinyArm.Proofs.Relocation

/-!
# Reading code back

The code of an expression is a postfix form of it, from right to left: the leaves are loaded and called, and each
operation comes after both of its sides. So the tree is found again by a stack (`Instruction.rebuild`), and the lines of
the code have the leaves and the operators of the tree in them, each once (`Comprises`).

* `Instruction.line_injective`: the line of an instruction tells the instruction.
* `Encodes.foldl_rebuild`: **code puts its expression on the stack.**
* `Encodes.comprises`: the lines of code comprise the leaves and the operators of the expression, from right to left.
* `expressionCode_faithful`: **the lines of an expression tell the expression.**
-/

namespace TinyArm

/-! ## Lines of instructions -/

theorem Operator.mnemonic_injective {o p : Operator} (h : o.mnemonic = p.mnemonic) : o = p := by
  revert h
  cases o <;> cases p <;> decide

namespace Instruction

/-- The line of an instruction in a block. -/
def line (i : Instruction) : String := "    " ++ i.text

theorem eq_combine_of_text {i : Instruction} {op : Operator} (h : i.text = (combine op).text) : i = combine op := by
  cases i with
  | combine op' =>
    have hm : op'.mnemonic = op.mnemonic := by simpa [text] using h
    rw [Operator.mnemonic_injective hm]
  | _ =>
    have h := congrArg String.toList h
    cases op <;> simp [text, Operator.mnemonic, label] at h

theorem text_injective : Function.Injective text := by
  intro i j h
  cases j with
  | combine op => exact eq_combine_of_text h
  | _ =>
    cases i with
    | combine op => exact (eq_combine_of_text h.symm).symm
    | _ =>
      have h := congrArg String.toList h
      revert h
      simp [text, label, String.toList_inj, Int.repr_inj]

/-- **The line of an instruction tells the instruction.** -/
theorem line_injective : Function.Injective line := by
  intro i j h
  exact text_injective ((String.append_right_inj _).1 h)

/-! ## Trees from code -/

/-- What an instruction does to a stack of the trees before it: a number, its high half and a call make a leaf, and an
operator makes an operation of the two uppermost trees, the left one above the right one. -/
def rebuild (stack : List Tree) : Instruction → List Tree
  | load n => .number ⟨"", 1, 1⟩ n :: stack
  | loadHigh n =>
    match stack with
    | .number loc low :: rest => .number loc (n * 0x10000 + low) :: rest
    | _ => stack
  | call name => .call ⟨"", 1, 1⟩ name :: stack
  | combine op =>
    match stack with
    | left :: right :: rest => .binary ⟨"", 1, 1⟩ (some op) left right :: rest
    | _ => stack
  | keep | save | restore | ret => stack

end Instruction

theorem foldl_rebuild_loadCode (n : Int) (stack : List Tree) :
    (loadCode n).foldl Instruction.rebuild stack = .number ⟨"", 1, 1⟩ n :: stack := by
  unfold loadCode
  split
  · rfl
  · have hn : n / 0x10000 * 0x10000 + n % 0x10000 = n := by omega
    simp only [List.foldl_cons, List.foldl_nil, Instruction.rebuild, hn]

/-- **Code puts its expression on the stack**, without its places and whatever the stack holds. -/
theorem Encodes.foldl_rebuild {e : Tree} {c : List Instruction} (h : Encodes e c) (stack : List Tree) :
    c.foldl Instruction.rebuild stack = e.relocate .forget :: stack := by
  induction h generalizing stack with
  | number loc n => exact foldl_rebuild_loadCode n stack
  | call => rfl
  | binary loc op _ _ ihl ihr =>
    rw [List.foldl_append, ihr, List.foldl_cons, List.foldl_append]
    show List.foldl _ (List.foldl _ (_ :: stack) _) _ = _
    rw [ihl]
    rfl

/-- Expressions have the same code exactly if they agree in everything but their places. -/
theorem Encodes.eq_iff_same {e₁ e₂ : Tree} {c₁ c₂ : List Instruction} (h₁ : Encodes e₁ c₁) (h₂ : Encodes e₂ c₂) :
    c₁ = c₂ ↔ e₁.same e₂ = true := by
  rw [Node.same_iff]
  constructor
  · rintro rfl
    have h := (h₁.foldl_rebuild []).symm.trans (h₂.foldl_rebuild [])
    exact (List.cons.inj h).1
  · intro h
    have hc := congrArg expressionCode h
    rw [expressionCode_relocate, expressionCode_relocate, expressionCode_eq_ok_iff.2 h₁,
      expressionCode_eq_ok_iff.2 h₂] at hc
    exact Except.ok.inj hc

/-! ## What lines comprise -/

/-- **The lines that load a number**: one if it has sixteen bits; otherwise one for its low half and one for its high
half, which is not zero. -/
inductive Loads : Int → List String → Prop where
  | whole {n : Nat} : n ≤ 65535 → Loads n ["    mov w0, " ++ toString n]
  | halves {n low high : Nat} : low ≤ 65535 → 1 ≤ high → high ≤ 65535 → high * 65536 + low = n →
      Loads n ["    mov w0, " ++ toString low, "    movk w0, " ++ toString high ++ ", lsl 16"]

/-- **The lines of a leaf**: those that load it if it is a literal, and those around a call of it. -/
inductive LeafLines : Tree → List String → Prop where
  | number (loc) {n : Int} {ls : List String} : Loads n ls → LeafLines (.number loc n) ls
  | call (loc) (name : String) : LeafLines (.call loc name)
      ["    stp x29, x30, [sp, #-16]!", "    bl _" ++ name, "    ldp x29, x30, [sp], #16"]

/-- **Lines that comprise** leaves and operators in their order and a number of returns: the lines of each leaf, one for
each operator and one for each return; and else nothing but moves to the second register. -/
inductive Comprises : List Tree → List (Option Operator) → Nat → List String → Prop where
  | nil : Comprises [] [] 0 []
  | leaf {n ns ops k ls ms} : LeafLines n ls → Comprises ns ops k ms → Comprises (n :: ns) ops k (ls ++ ms)
  | operator (op : Operator) {ns ops k ms} : Comprises ns ops k ms →
      Comprises ns (some op :: ops) k (("    " ++ op.mnemonic ++ " w0, w0, w1") :: ms)
  | ret {ns ops k ms} : Comprises ns ops k ms → Comprises ns ops (k + 1) ("    ret" :: ms)
  | move {ns ops k ms} : Comprises ns ops k ms → Comprises ns ops k ("    mov w1, w0" :: ms)

namespace Comprises

theorem append {ns ns' : List Tree} {ops ops' : List (Option Operator)} {k k' : Nat} {ls ls' : List String}
    (h : Comprises ns ops k ls) (h' : Comprises ns' ops' k' ls') :
    Comprises (ns ++ ns') (ops ++ ops') (k + k') (ls ++ ls') := by
  induction h with
  | nil => simpa using h'
  | leaf hn _ ih =>
    rw [List.cons_append, List.append_assoc]
    exact .leaf hn ih
  | operator op _ ih => exact .operator op ih
  | ret _ ih =>
    rw [Nat.add_right_comm]
    exact .ret ih
  | move _ ih => exact .move ih

end Comprises

/-! ## The lines of an expression -/

theorem line_load (n : Nat) : (Instruction.load n).line = "    mov w0, " ++ toString n := by
  rw [Instruction.line, Instruction.text, ← String.append_assoc]
  rfl

theorem line_loadHigh (n : Nat) : (Instruction.loadHigh n).line = "    movk w0, " ++ toString n ++ ", lsl 16" := by
  rw [Instruction.line, Instruction.text, ← String.append_assoc, ← String.append_assoc]
  rfl

theorem line_keep : Instruction.keep.line = "    mov w1, w0" := rfl

theorem line_call (name : String) : (Instruction.call name).line = "    bl _" ++ name := by
  rw [Instruction.line, Instruction.text, label, ← String.append_assoc, ← String.append_assoc]
  rfl

theorem line_combine (op : Operator) : (Instruction.combine op).line = "    " ++ op.mnemonic ++ " w0, w0, w1" := by
  rw [Instruction.line, Instruction.text, ← String.append_assoc]

theorem loads_loadCode {n : Int} (h0 : 0 ≤ n) (h1 : n < 0x100000000) : Loads n ((loadCode n).map Instruction.line) := by
  obtain ⟨m, rfl⟩ := Int.eq_ofNat_of_zero_le h0
  unfold loadCode maxImmediate
  split
  · rw [List.map_singleton, line_load]
    exact .whole (by omega)
  · have hlow : (m : Int) % 0x10000 = (m % 65536 : Nat) := by omega
    have hhigh : (m : Int) / 0x10000 = (m / 65536 : Nat) := by omega
    rw [List.map_cons, List.map_singleton, hlow, hhigh, line_load, line_loadHigh]
    exact .halves (by omega) (by omega) (by omega) (by omega)

/-- **The lines of an expression** comprise its leaves and its operators, from right to left. -/
theorem Encodes.comprises {e : Tree} {c : List Instruction} (h : Encodes e c) (hn : e.LiteralsFit) :
    Comprises e.leaves.reverse (e.operations.map Prod.snd).reverse 0 (c.map Instruction.line) := by
  induction h with
  | number loc n =>
    obtain ⟨h0, h1⟩ := hn loc n (by simp)
    have hl := Comprises.leaf (.number loc (loads_loadCode h0 h1)) .nil
    rwa [List.append_nil] at hl
  | call loc name =>
    have hl := Comprises.leaf (.call loc name) .nil
    rwa [← line_call] at hl
  | binary loc op _ _ ihl ihr =>
    obtain ⟨hl, hr⟩ := Node.literalsFit_binary_iff.1 hn
    have hop : Comprises [] [some op] 0 [(Instruction.combine op).line] := by
      rw [line_combine]
      exact .operator op .nil
    -- the right side, its place in the second register, the left side, the operation
    have h := (ihr hr).append (.move ((ihl hl).append hop))
    simpa [line_keep] using h

/-- **The lines of an expression tell the expression.** There are lines for every expression; they comprise its leaves
and its operators, from right to left; and whatever else has the same lines agrees with it in everything but its
places. -/
theorem expressionCode_faithful {e : Tree} (he : e.IsExpression) (hn : e.LiteralsFit) :
    ∃ c, expressionCode e = .ok c ∧
      Comprises e.leaves.reverse (e.operations.map Prod.snd).reverse 0 (c.map Instruction.line) ∧
      ∀ e' c', expressionCode e' = .ok c' →
        (c'.map Instruction.line = c.map Instruction.line ↔ e'.same e = true) := by
  obtain ⟨c, hc⟩ := exists_encodes he
  refine ⟨c, expressionCode_eq_ok_iff.2 hc, hc.comprises hn, fun e' c' hc' => ?_⟩
  rw [List.map_inj_right Instruction.line_injective]
  exact (expressionCode_eq_ok_iff.1 hc').eq_iff_same hc

/-- The expression `70000 - g() * 3`, at one place. -/
def wideDifference : Tree :=
  .binary ⟨"t.c", 1, 1⟩ (some .subtract) (.number ⟨"t.c", 1, 1⟩ 70000)
    (.binary ⟨"t.c", 1, 1⟩ (some .multiply) (.call ⟨"t.c", 1, 1⟩ "g") (.number ⟨"t.c", 1, 1⟩ 3))

theorem expressionCode_wideDifference : (wideDifference.IsExpression ∧ wideDifference.LiteralsFit) ∧
    ∃ c, expressionCode wideDifference = .ok c ∧
      c.map Instruction.line = ["    mov w0, 3", "    mov w1, w0", "    stp x29, x30, [sp, #-16]!", "    bl _g",
        "    ldp x29, x30, [sp], #16", "    mul w0, w0, w1", "    mov w1, w0", "    mov w0, 4464",
        "    movk w0, 1, lsl 16", "    sub w0, w0, w1"] ∧
      Comprises [.number ⟨"t.c", 1, 1⟩ 3, .call ⟨"t.c", 1, 1⟩ "g", .number ⟨"t.c", 1, 1⟩ 70000]
        [some .multiply, some .subtract] 0 (c.map Instruction.line) ∧
      ∀ e' c', expressionCode e' = .ok c' →
        (c'.map Instruction.line = c.map Instruction.line ↔ e'.same wideDifference = true) := by
  have he : wideDifference.IsExpression := .binary _ _ (.number _ _) (.binary _ _ (.call _ _) (.number _ _))
  have hn : wideDifference.LiteralsFit := by
    simp [wideDifference, Node.LiteralsFit]
    omega
  obtain ⟨c, hc, hl, hi⟩ := expressionCode_faithful he hn
  refine ⟨⟨he, hn⟩, c, hc, ?_, hl, hi⟩
  cases hc
  decide +kernel

end TinyArm
