import TinyArm.Proofs.Decoding
import TinyArm.Proofs.SourceTrees

/-!
# Blocks as text

The text of a generated program is one block after the other. A block has the directive and the label of its function,
lines of instructions that end in a return, and an empty line. That every number in it fits into its instruction comes
from the scanner, which reads no literal of more than 32 bits.

* `Comprises.isInstructionLine`, `Comprises.count_ret`: what lines look like that comprise leaves and operators.
* `isCodeOf_of_functionBlock`, `isBlockOf_of_functionBlock`: the lines of the code and of the block of a function.
* `newlineLines_text_of_blocks`: the text splits into the lines of the blocks.
* `blocks_of_ofSource`: **the text of the code of a source is made of blocks**, one for each function in order.
-/

namespace TinyArm

/-! ## Forms of lines -/

/-- **A line with an instruction.** -/
inductive IsInstructionLine : String → Prop where
  | load {n : Nat} : n ≤ 65535 → IsInstructionLine ("    mov w0, " ++ toString n)
  | loadHigh {n : Nat} : n ≤ 65535 → IsInstructionLine ("    movk w0, " ++ toString n ++ ", lsl 16")
  | move : IsInstructionLine "    mov w1, w0"
  | add : IsInstructionLine "    add w0, w0, w1"
  | subtract : IsInstructionLine "    sub w0, w0, w1"
  | multiply : IsInstructionLine "    mul w0, w0, w1"
  | divide : IsInstructionLine "    sdiv w0, w0, w1"
  | save : IsInstructionLine "    stp x29, x30, [sp, #-16]!"
  | call {name : String} : IsName name → IsInstructionLine ("    bl _" ++ name)
  | restore : IsInstructionLine "    ldp x29, x30, [sp], #16"
  | ret : IsInstructionLine "    ret"

theorem isInstructionLine_operator (op : Operator) : IsInstructionLine ("    " ++ op.mnemonic ++ " w0, w0, w1") := by
  cases op with
  | add => exact .add
  | subtract => exact .subtract
  | multiply => exact .multiply
  | divide => exact .divide

/-- **The lines of the code of a function** with the statements `body`. -/
structure IsCodeOf (body : List Tree) (lines : List String) : Prop where
  forms : ∀ l ∈ lines, IsInstructionLine l
  last : lines.getLast? = some "    ret"
  returns : lines.count "    ret" = max 1 (body.countP Node.isReturn)
  comprises : Comprises (body.flatMap fun s => s.leaves.reverse)
    (body.flatMap fun s => (s.operations.map Prod.snd).reverse) (max 1 (body.countP Node.isReturn)) lines

/-- **The lines of the block of a function**: the directive, the label, the code, and an empty line. -/
inductive IsBlockOf : Tree → List String → Prop where
  | intro (loc type) {name : String} {body : List Tree} {code : List String} : IsName name → IsCodeOf body code →
      IsBlockOf (.function loc name type body) ((".globl _" ++ name) :: ("_" ++ name ++ ":") :: (code ++ [""]))

/-! ## Lines that comprise leaves and operators -/

section Comprises

variable {ns : List Tree} {ops : List (Option Operator)} {k : Nat} {ls : List String}

theorem LeafLines.isInstructionLine {n : Tree} (h : LeafLines n ls) (hn : ∀ loc g, n = .call loc g → IsName g) :
    ∀ l ∈ ls, IsInstructionLine l := by
  cases h with
  | number loc h =>
    cases h with
    | whole hm => exact List.forall_mem_singleton.2 (.load hm)
    | halves hl _ hh _ => exact List.forall_mem_cons.2 ⟨.load hl, List.forall_mem_singleton.2 (.loadHigh hh)⟩
  | call loc g =>
    exact List.forall_mem_cons.2 ⟨.save, List.forall_mem_cons.2 ⟨.call (hn loc g rfl),
      List.forall_mem_singleton.2 .restore⟩⟩

theorem Comprises.isInstructionLine (h : Comprises ns ops k ls) (hn : ∀ loc g, .call loc g ∈ ns → IsName g) :
    ∀ l ∈ ls, IsInstructionLine l := by
  induction h with
  | nil => exact nofun
  | leaf hl _ ih =>
    refine List.forall_mem_append.2 ⟨hl.isInstructionLine fun loc g e => ?_, ih fun loc g hm => ?_⟩
    · exact hn loc g (e ▸ List.mem_cons_self)
    · exact hn loc g (List.mem_cons_of_mem _ hm)
  | operator op _ ih => exact List.forall_mem_cons.2 ⟨isInstructionLine_operator op, ih hn⟩
  | ret _ ih => exact List.forall_mem_cons.2 ⟨.ret, ih hn⟩
  | move _ ih => exact List.forall_mem_cons.2 ⟨.move, ih hn⟩

/-- No line of a leaf is a return. -/
theorem LeafLines.ret_not_mem {n : Tree} (h : LeafLines n ls) : "    ret" ∉ ls := by
  cases h with
  | number loc h => cases h <;> simp [← String.toList_inj]
  | call loc g => simp [← String.toList_inj]

theorem Comprises.count_ret (h : Comprises ns ops k ls) : ls.count "    ret" = k := by
  induction h with
  | nil => rfl
  | leaf hl _ ih => rw [List.count_append, ih, List.count_eq_zero_of_not_mem hl.ret_not_mem, Nat.zero_add]
  | operator op _ ih =>
    rw [List.count_cons_of_ne, ih]
    cases op <;> decide
  | ret _ ih => rw [List.count_cons_self, ih]
  | move _ ih => rw [List.count_cons_of_ne (by decide), ih]

end Comprises

/-! ## Code of functions -/

theorem Writable.literalsFit {e : Tree} (h : Writable e) : e.LiteralsFit := by
  induction h with
  | number loc h0 h1 =>
    intro l m hm
    cases List.mem_singleton.1 hm
    omega
  | call => exact fun l m hm => nomatch List.mem_singleton.1 hm
  | binary loc op _ _ ihl ihr => exact Node.literalsFit_binary_iff.2 ⟨ihl, ihr⟩

theorem Writable.isName_of_mem_leaves {e : Tree} (h : Writable e) {loc : Location} {g : String}
    (hg : .call loc g ∈ e.leaves) : IsName g := by
  induction h with
  | number => cases List.mem_singleton.1 hg
  | call l hn =>
    cases List.mem_singleton.1 hg
    exact hn
  | binary l op _ _ ihl ihr =>
    rw [Node.leaves_binary, List.mem_append] at hg
    exact hg.elim ihl ihr

theorem WritableReturn.isName_of_mem_leaves {s : Tree} (h : WritableReturn s) {loc : Location} {g : String}
    (hg : .call loc g ∈ s.leaves) : IsName g := by
  cases h with
  | nothing => exact nomatch Node.leaves_ret _ .absent ▸ hg
  | value _ he => exact he.isName_of_mem_leaves (Node.leaves_ret _ _ ▸ hg)

theorem WritableReturn.isReturn_eq {s : Tree} (h : WritableReturn s) : s.isReturn = true := by
  cases h <;> rfl

/-- The lines of a statement comprise its value and its return. -/
theorem comprises_statementCode {s : Tree} {c : List Instruction} (hs : WritableReturn s) (h : statementCode s = .ok c) :
    Comprises s.leaves.reverse (s.operations.map Prod.snd).reverse 1 (c.map Instruction.line) := by
  obtain ⟨loc, v, d, rfl, hv, rfl⟩ := statementCode_eq_ok_iff.1 h
  have hr : Comprises [] [] 1 [Instruction.ret.line] := .ret .nil
  rw [Node.leaves_ret, Node.operations_ret, List.map_append]
  cases hv with
  | absent => exact hr
  | expression hv =>
    cases hs with
    | nothing => exact absurd rfl hv.ne_absent
    | value _ he => simpa using (hv.comprises he.literalsFit).append hr

/-- The lines of a body comprise its values, statement by statement, and one return for each statement. -/
theorem comprises_bodyCode {body : List Tree} {c : List Instruction} (hs : ∀ s ∈ body, WritableReturn s)
    (h : bodyCode body = .ok c) :
    Comprises (body.flatMap fun s => s.leaves.reverse) (body.flatMap fun s => (s.operations.map Prod.snd).reverse)
      (body.countP Node.isReturn) (c.map Instruction.line) := by
  induction body generalizing c with
  | nil =>
    cases h
    exact .nil
  | cons s rest ih =>
    obtain ⟨d, e, hd, he, rfl⟩ := bodyCode_cons_eq_ok_iff.1 h
    obtain ⟨hw, hrest⟩ := List.forall_mem_cons.1 hs
    rw [List.flatMap_cons, List.flatMap_cons, List.countP_cons_of_pos hw.isReturn_eq, Nat.add_comm, List.map_append]
    exact (comprises_statementCode hw hd).append (ih hrest he)

/-- The code of statements ends in a return. -/
theorem exists_concat_of_bodyCode {s : Tree} {rest : List Tree} {c : List Instruction}
    (h : bodyCode (s :: rest) = .ok c) : ∃ d, c = d ++ [.ret] := by
  induction rest generalizing s c with
  | nil =>
    obtain ⟨d, e, hd, he, rfl⟩ := bodyCode_cons_eq_ok_iff.1 h
    obtain ⟨-, -, d, -, -, rfl⟩ := statementCode_eq_ok_iff.1 hd
    cases he
    exact ⟨d, List.append_nil _⟩
  | cons t rest ih =>
    obtain ⟨d, e, -, he, rfl⟩ := bodyCode_cons_eq_ok_iff.1 h
    obtain ⟨e, rfl⟩ := ih he
    exact ⟨d ++ e, (List.append_assoc _ _ _).symm⟩

/-- **The code of a function** is that of its statements, or a return if there are none. -/
theorem code_of_functionBlock {loc : Location} {type : DataType} {name : String} {body : List Tree} {b : Block}
    (hs : ∀ s ∈ body, WritableReturn s) (h : functionBlock (.function loc name type body) = .ok b) :
    b.name = name ∧ (body = [] ∧ b.code = [.ret] ∨ body ≠ [] ∧ bodyCode body = .ok b.code) := by
  obtain ⟨_, _, _, code, he, hc, hb⟩ := functionBlock_eq_ok_iff.1 h
  cases he
  refine ⟨rfl, ?_⟩
  cases hl : body.getLast? with
  | none =>
    obtain rfl := List.getLast?_eq_none_iff.1 hl
    cases hc
    exact .inl ⟨rfl, hb⟩
  | some s =>
    have hm := List.mem_of_getLast? hl
    have hcode : b.code = code := by simpa [hl, (hs s hm).isReturn_eq] using hb
    exact .inr ⟨List.ne_nil_of_mem hm, hcode ▸ hc⟩

/-- **The lines of the code of a function** with `return`s that can be written. -/
theorem isCodeOf_of_functionBlock {loc : Location} {type : DataType} {name : String} {body : List Tree} {b : Block}
    (hs : ∀ s ∈ body, WritableReturn s) (h : functionBlock (.function loc name type body) = .ok b) :
    IsCodeOf body (b.code.map Instruction.line) := by
  have hall : body.countP Node.isReturn = body.length :=
    List.countP_eq_length.2 fun s hm => (hs s hm).isReturn_eq
  obtain ⟨-, ⟨rfl, hb⟩ | ⟨hne, hc⟩⟩ := code_of_functionBlock hs h
  · -- no statement, so the one return is the closing one
    rw [hb]
    exact ⟨List.forall_mem_singleton.2 .ret, rfl, rfl, .ret .nil⟩
  · have hcomp := comprises_bodyCode hs hc
    have hmax : max 1 (body.countP Node.isReturn) = body.countP Node.isReturn := by
      have := List.length_pos_iff.2 hne
      omega
    refine ⟨hcomp.isInstructionLine fun l g hg => ?_, ?_, ?_, ?_⟩
    · obtain ⟨s, hm, hg⟩ := List.mem_flatMap.1 hg
      exact (hs s hm).isName_of_mem_leaves (List.mem_reverse.1 hg)
    · obtain ⟨s, rest, rfl⟩ := List.exists_cons_of_ne_nil hne
      obtain ⟨d, hd⟩ := exists_concat_of_bodyCode hc
      rw [hd, List.map_append, List.map_singleton, List.getLast?_concat]
      rfl
    · rw [hmax, hcomp.count_ret]
    · rwa [hmax]

/-- The lines of a block. -/
theorem isBlockOf_of_functionBlock {f : Tree} {b : Block} (hf : WritableFunction f) (h : functionBlock f = .ok b) :
    IsBlockOf f b.lines := by
  obtain @⟨loc, type, name, body, hn, hs⟩ := hf
  obtain ⟨rfl, -⟩ := code_of_functionBlock hs h
  have hb := IsBlockOf.intro loc type hn (isCodeOf_of_functionBlock hs h)
  have hglobl : ".globl " ++ label b.name = ".globl _" ++ b.name := by
    rw [label, ← String.append_assoc]
    rfl
  rw [Block.lines, hglobl]
  exact hb

/-! ## The text of a program -/

theorem IsInstructionLine.newline_not_mem {l : String} (h : IsInstructionLine l) : '\n' ∉ l.toList := by
  have hr : ∀ n : Nat, '\n' ∉ n.repr.toList := fun n => Text.newline_not_mem_repr n
  cases h with
  | @load n => simpa using hr n
  | @loadHigh n => simpa using hr n
  | call hg => simp [hg.newline_not_mem]
  | _ => decide

theorem IsBlockOf.newline_not_mem {f : Tree} {ls : List String} (h : IsBlockOf f ls) : ∀ l ∈ ls, '\n' ∉ l.toList := by
  obtain ⟨loc, type, hn, hc⟩ := h
  intro l hl
  simp only [List.mem_cons, List.mem_append, List.not_mem_nil, or_false] at hl
  rcases hl with rfl | rfl | hl | rfl
  · simp [hn.newline_not_mem]
  · simp [hn.newline_not_mem]
  · exact (hc.forms l hl).newline_not_mem
  · decide

/-- The lines of an assembly are those of the blocks of its functions. -/
theorem forall₂_isBlockOf {fs : List Tree} {a : Assembly} (hw : ∀ f ∈ fs, WritableFunction f)
    (h : List.Forall₂ (fun f b => functionBlock f = .ok b) fs a) : List.Forall₂ IsBlockOf fs (a.map Block.lines) := by
  rw [List.forall₂_map_right_iff]
  exact ((List.forall₂_and_left fs a).2 ⟨hw, h⟩).imp fun f b hfb => isBlockOf_of_functionBlock hfb.1 hfb.2

/-- The text of an assembly splits into the lines of its blocks. -/
theorem newlineLines_text_of_blocks {fs : List Tree} {a : Assembly} (hw : ∀ f ∈ fs, WritableFunction f)
    (h : List.Forall₂ (fun f b => functionBlock f = .ok b) fs a) :
    Text.newlineLines a.text.toList = a.lines.map String.toList ++ [[]] := by
  refine Text.newlineLines_unlines fun l hl => ?_
  obtain ⟨b, hb, hl⟩ := List.mem_flatMap.1 hl
  obtain ⟨f, -, hf⟩ := exists_mem_of_forall₂ (forall₂_isBlockOf hw h) (List.mem_map_of_mem hb)
  exact hf.newline_not_mem l hl

/-- **The text of the code of a source is made of blocks**, one for each of its functions in order, and its lines are
theirs. -/
theorem blocks_of_ofSource {source file : String} {n : Tree} (h : Tree.ofSource source file = .ok n) :
    ∃ loc fs a blocks, n = .program loc fs ∧ generate n = .ok a ∧ List.Forall₂ IsBlockOf fs blocks ∧
      a.text = String.join (blocks.map Text.unlines) ∧
      Text.newlineLines a.text.toList = blocks.flatten.map String.toList ++ [[]] := by
  obtain ⟨loc, fs, rfl, hw⟩ := writable_of_ofSource h
  obtain ⟨a, ha⟩ := exists_generate_iff.2 (isProgram_of_ofSource h)
  have hb : List.Forall₂ (fun f b => functionBlock f = .ok b) fs a := functionBlocks_eq_ok_iff.1 ha
  refine ⟨loc, fs, a, a.map Block.lines, rfl, ha, forall₂_isBlockOf hw hb, ?_, ?_⟩
  · rw [Assembly.text, Assembly.lines, List.flatMap_def, Text.unlines_flatten]
  · rw [newlineLines_text_of_blocks hw hb, Assembly.lines, List.flatMap_def]

/-- Three functions: one with a literal of more than sixteen bits, one with two `return`s, one without any. -/
def threeFunctions : String :=
  "int g() \x7b return 70000; \x7d\nint f() \x7b return g() - 3; return 65535; \x7d\nvoid h() \x7b \x7d\n"

/-- The code of them, line by line. -/
def threeBlocks : List String :=
  [".globl _g", "_g:", "    mov w0, 4464", "    movk w0, 1, lsl 16", "    ret", "",
    ".globl _f", "_f:", "    mov w0, 3", "    mov w1, w0", "    stp x29, x30, [sp, #-16]!", "    bl _g",
    "    ldp x29, x30, [sp], #16", "    sub w0, w0, w1", "    ret", "    mov w0, 65535", "    ret", "",
    ".globl _h", "_h:", "    ret", ""]

theorem blocks_threeFunctions : ∃ n, Tree.ofSource threeFunctions "t.c" = .ok n ∧
    (generate n).map Assembly.text = .ok (Text.unlines threeBlocks) ∧
    ∃ loc fs a blocks, n = .program loc fs ∧ generate n = .ok a ∧ List.Forall₂ IsBlockOf fs blocks ∧
      a.text = String.join (blocks.map Text.unlines) ∧
      Text.newlineLines a.text.toList = blocks.flatten.map String.toList ++ [[]] := by
  have h : (Tree.ofSource threeFunctions "t.c" >>= fun n => (generate n).map Assembly.text) =
      .ok (Text.unlines threeBlocks) := by
    decide +kernel
  obtain ⟨n, hn, ht⟩ := bind_eq_ok_iff.1 h
  exact ⟨n, hn, ht, blocks_of_ofSource hn⟩

end TinyArm
