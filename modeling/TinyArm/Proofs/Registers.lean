import TinyArm.Proofs.Encoding

/-!
# The value of the code of an expression

The instructions that compute work on two registers of 32 bits. The code of an expression keeps the right operand of an
operator in `w1` while it computes the left one, and a left operand that is itself an operation overwrites it. So the
code computes the value of an expression only if there is nothing but literals on the left; otherwise it computes
`slotValue`, where the operator of the outer operation meets the last right operand that its left side kept.

* `Runs`: runs of code, where a call leaves the value of its function in `w0` and anything in `w1`.
* `Encodes.leaves_of_runs`: what the code of an expression leaves in both registers.
* `runs_expressionCode`: **the code of an expression ends with its `slotValue` in `w0`**, which is its value if all
  left operands are literals.
-/

namespace TinyArm

/-! ## The registers -/

/-- The registers `w0` and `w1`. -/
structure Registers where
  primary : BitVec 32
  secondary : BitVec 32
  deriving DecidableEq

/-- The arithmetic of the machine: it wraps, and division truncates towards zero, with `x / 0 = 0`. -/
def Operator.apply : Operator → BitVec 32 → BitVec 32 → BitVec 32
  | add => (· + ·)
  | subtract => (· - ·)
  | multiply => (· * ·)
  | divide => BitVec.sdiv

namespace Instruction

/-- What an instruction computes, if it is one that computes. -/
def compute? : Instruction → Option (Registers → Registers)
  | load n => some fun s => { s with primary := BitVec.ofInt 32 n }
  | loadHigh n => some fun s => { s with primary := BitVec.ofInt 16 n ++ s.primary.extractLsb' 0 16 }
  | keep => some fun s => { s with secondary := s.primary }
  | combine op => some fun s => { s with primary := op.apply s.primary s.secondary }
  | save | call _ | restore | ret => none

/-- Whether the number that an instruction loads fits into its sixteen bits. -/
def IsEncodable : Instruction → Prop
  | load n | loadHigh n => 0 ≤ n ∧ n < 0x10000
  | _ => True

end Instruction

/-! ## Runs -/

/-- What an instruction of an expression does to the registers, where `value` gives the values of functions. -/
inductive Effect (value : String → BitVec 32) : Instruction → Registers → Registers → Prop where
  | compute {i f} (s) : i.IsEncodable → i.compute? = some f → Effect value i s (f s)
  | save (s) : Effect value .save s s
  | call (g s w) : Effect value (.call g) s ⟨value g, w⟩
  | restore (s) : Effect value .restore s s

/-- A run of instructions, one after another. -/
inductive Runs (value : String → BitVec 32) : List Instruction → Registers → Registers → Prop where
  | nil (s) : Runs value [] s s
  | cons {i c s t u} : Effect value i s t → Runs value c t u → Runs value (i :: c) s u

section Runs

variable {value : String → BitVec 32}

theorem runs_cons_iff {i : Instruction} {c : List Instruction} {s u : Registers} :
    Runs value (i :: c) s u ↔ ∃ t, Effect value i s t ∧ Runs value c t u := by
  constructor
  · intro h
    cases h with
    | cons hi hc => exact ⟨_, hi, hc⟩
  · rintro ⟨t, hi, hc⟩
    exact .cons hi hc

theorem runs_append_iff {c d : List Instruction} {s u : Registers} :
    Runs value (c ++ d) s u ↔ ∃ t, Runs value c s t ∧ Runs value d t u := by
  induction c generalizing s with
  | nil =>
    constructor
    · exact fun h => ⟨s, .nil s, h⟩
    · rintro ⟨t, hc, hd⟩
      cases hc
      exact hd
  | cons i c ih =>
    rw [List.cons_append, runs_cons_iff]
    constructor
    · rintro ⟨t, hi, h⟩
      obtain ⟨t', hc, hd⟩ := ih.1 h
      exact ⟨t', .cons hi hc, hd⟩
    · rintro ⟨t', hic, hd⟩
      obtain ⟨t, hi, hc⟩ := runs_cons_iff.1 hic
      exact ⟨t, hi, ih.2 ⟨t', hc, hd⟩⟩

theorem runs_singleton_iff {i : Instruction} {s t : Registers} : Runs value [i] s t ↔ Effect value i s t := by
  rw [runs_cons_iff]
  constructor
  · rintro ⟨u, hi, h⟩
    cases h
    exact hi
  · exact fun hi => ⟨t, hi, .nil t⟩

/-- An instruction that computes does what it computes. -/
theorem Effect.eq_of_compute? {i : Instruction} {f : Registers → Registers} (hf : i.compute? = some f) {s t : Registers}
    (h : Effect value i s t) : t = f s := by
  cases h with
  | compute _ _ hg =>
    rw [hf] at hg
    rw [Option.some.inj hg]
  | save => cases hf
  | call => cases hf
  | restore => cases hf

/-- An instruction that does not compute keeps the first register, if it is no call. -/
theorem Effect.primary_eq {i : Instruction} (hi : i.compute? = none) {s t : Registers} (h : Effect value i s t) :
    t.primary = match i with | .call g => value g | _ => s.primary := by
  cases h with
  | compute _ _ hf =>
    rw [hi] at hf
    cases hf
  | save => rfl
  | call => rfl
  | restore => rfl

/-- A call leaves the value of its function. -/
theorem primary_of_runs_callCode {g : String} {s t : Registers} (h : Runs value (callCode g) s t) :
    t.primary = value g := by
  obtain ⟨s₁, -, h⟩ := runs_cons_iff.1 h
  obtain ⟨s₂, hcall, h⟩ := runs_cons_iff.1 h
  rw [(runs_singleton_iff.1 h).primary_eq rfl, hcall.primary_eq rfl]

/-- Only a return has no effect. -/
theorem exists_effect {i : Instruction} (hi : i.IsEncodable) (h : i ≠ .ret) (s : Registers) :
    ∃ t, Effect value i s t := by
  cases i with
  | save => exact ⟨s, .save s⟩
  | call g => exact ⟨_, .call g s 0⟩
  | restore => exact ⟨s, .restore s⟩
  | ret => exact absurd rfl h
  | _ => exact ⟨_, .compute s hi rfl⟩

theorem exists_runs {c : List Instruction} (h : ∀ i ∈ c, i.IsEncodable ∧ i ≠ .ret) (s : Registers) :
    ∃ t, Runs value c s t := by
  induction c generalizing s with
  | nil => exact ⟨s, .nil s⟩
  | cons i c ih =>
    rw [List.forall_mem_cons] at h
    obtain ⟨t, hi⟩ := exists_effect h.1.1 h.1.2 s
    obtain ⟨u, hc⟩ := ih h.2 t
    exact ⟨u, .cons hi hc⟩

end Runs

/-! ## Literals -/

/-- The two halves of a number make up the number. -/
theorem ofInt_append_extractLsb' {n : Int} (h0 : 0 ≤ n) (h1 : n < 0x100000000) :
    BitVec.ofInt 16 (n / 0x10000) ++ (BitVec.ofInt 32 (n % 0x10000)).extractLsb' 0 16 = BitVec.ofInt 32 n := by
  apply BitVec.eq_of_toNat_eq
  have hlow : (n % 0x10000 % 2 ^ 32).toNat < 2 ^ 16 := by omega
  rw [BitVec.toNat_append, BitVec.extractLsb'_toNat, BitVec.toNat_ofInt, BitVec.toNat_ofInt, BitVec.toNat_ofInt,
    Nat.shiftRight_zero]
  rw [← Nat.shiftLeft_add_eq_or_of_lt (by omega), Nat.shiftLeft_eq]
  omega

theorem encodable_of_mem_loadCode {n : Int} (h0 : 0 ≤ n) (h1 : n < 0x100000000) :
    ∀ i ∈ loadCode n, i.IsEncodable ∧ i ≠ .ret := by
  unfold loadCode maxImmediate
  split
  · simp [Instruction.IsEncodable]
    omega
  · simp [Instruction.IsEncodable]
    omega

theorem eq_of_runs_loadCode {value : String → BitVec 32} {n : Int} (h0 : 0 ≤ n) (h1 : n < 0x100000000) {s t : Registers}
    (h : Runs value (loadCode n) s t) : t = { s with primary := BitVec.ofInt 32 n } := by
  unfold loadCode at h
  split at h
  · exact (runs_singleton_iff.1 h).eq_of_compute? rfl
  · obtain ⟨u, hu, h⟩ := runs_cons_iff.1 h
    rw [(runs_singleton_iff.1 h).eq_of_compute? rfl, hu.eq_of_compute? rfl]
    simp only [ofInt_append_extractLsb' h0 h1]

/-! ## Values -/

namespace Node

/-- Whether a tree is a literal. -/
def isLiteral : Tree → Bool
  | number .. => true
  | _ => false

/-- Whether a tree is a call. -/
def isCall : Tree → Bool
  | call .. => true
  | _ => false

/-- The right operand of the innermost operation on the left spine. -/
def innermostRight : Tree → Tree
  | binary _ _ (binary loc op left right) _ => innermostRight (binary loc op left right)
  | binary _ _ _ right => right
  | e => e

theorem sizeOf_innermostRight_le (e : Tree) : sizeOf e.innermostRight ≤ sizeOf e := by
  fun_induction innermostRight e with
  | case1 loc op l o left right r ih =>
    simp only [binary.sizeOf_spec] at ih ⊢
    omega
  | case2 =>
    simp only [binary.sizeOf_spec]
    omega
  | case3 => exact Nat.le_refl _

/-- The value that the code of an expression computes: after a left operand that is no literal, the second register
holds what the innermost operation on the left spine has kept there. -/
def slotValue (value : String → BitVec 32) : Tree → BitVec 32
  | number _ n => BitVec.ofInt 32 n
  | call _ g => value g
  | binary _ (some op) left right =>
    op.apply (slotValue value left)
      (if left.isLiteral then slotValue value right else slotValue value left.innermostRight)
  | _ => 0
termination_by e => sizeOf e
decreasing_by
  all_goals simp only [binary.sizeOf_spec]
  · omega
  · omega
  · have := sizeOf_innermostRight_le left
    omega

/-- The value of an expression. -/
def trueValue (value : String → BitVec 32) : Tree → BitVec 32
  | number _ n => BitVec.ofInt 32 n
  | call _ g => value g
  | binary _ (some op) left right => op.apply (trueValue value left) (trueValue value right)
  | _ => 0

/-- The literals of a tree fit into a register. -/
def LiteralsFit (e : Tree) : Prop := ∀ loc n, .number loc n ∈ e.nodes → 0 ≤ n ∧ n < 0x100000000

/-- All left operands in a tree pass a test. -/
def LeftOperands (p : Tree → Bool) (e : Tree) : Prop :=
  ∀ loc op left right, .binary loc op left right ∈ e.nodes → p left

theorem literalsFit_binary_iff {loc : Location} {op : Option Operator} {left right : Tree} :
    LiteralsFit (binary loc op left right) ↔ left.LiteralsFit ∧ right.LiteralsFit := by
  simp only [LiteralsFit, nodes_binary, List.mem_cons, reduceCtorEq, false_or, List.mem_append]
  grind

theorem leftOperands_binary_iff {p : Tree → Bool} {loc : Location} {op : Option Operator} {left right : Tree} :
    LeftOperands p (binary loc op left right) ↔ p left ∧ left.LeftOperands p ∧ right.LeftOperands p := by
  simp only [LeftOperands, nodes_binary, List.mem_cons, List.mem_append]
  constructor
  · intro h
    exact ⟨h loc op left right (.inl rfl), fun k o l r hm => h k o l r (.inr (.inl hm)),
      fun k o l r hm => h k o l r (.inr (.inr hm))⟩
  · rintro ⟨hp, hl, hr⟩ k o l r (e | hm | hm)
    · cases e
      exact hp
    · exact hl k o l r hm
    · exact hr k o l r hm

/-- With literals on the left, nothing is overwritten. -/
theorem slotValue_eq_trueValue {value : String → BitVec 32} {e : Tree} (h : e.IsExpression)
    (hl : e.LeftOperands isLiteral) : e.slotValue value = e.trueValue value := by
  induction h with
  | number => rw [slotValue, trueValue]
  | call => rw [slotValue, trueValue]
  | binary loc op _ _ ihl ihr =>
    obtain ⟨hlit, hl, hr⟩ := leftOperands_binary_iff.1 hl
    rw [slotValue, trueValue, if_pos hlit, ihl hl, ihr hr]

end Node

/-! ## What code leaves in the registers -/

/-- **What the code of an expression leaves in the registers.** A literal does not touch the second one, an operation
leaves there what its innermost operation has kept, and a call leaves anything. -/
structure Leaves (value : String → BitVec 32) (e : Tree) (s t : Registers) : Prop where
  primary : t.primary = e.slotValue value
  literal : e.isLiteral → t.secondary = s.secondary
  operation : ¬e.isLiteral → ¬e.isCall → t.secondary = e.innermostRight.slotValue value

theorem Node.innermostRight_binary {loc : Location} {op : Option Operator} {left right : Tree} (h : left.IsExpression)
    (hc : ¬left.isCall) : innermostRight (binary loc op left right) =
      if left.isLiteral then right else left.innermostRight := by
  cases h with
  | number => rfl
  | call => exact absurd rfl hc
  | binary => rfl

section Code

variable {value : String → BitVec 32} {e : Tree} {c : List Instruction}

theorem Encodes.encodable (h : Encodes e c) (hn : e.LiteralsFit) : ∀ i ∈ c, i.IsEncodable ∧ i ≠ .ret := by
  induction h with
  | number loc n =>
    obtain ⟨h0, h1⟩ := hn loc n (by simp)
    exact encodable_of_mem_loadCode h0 h1
  | call => simp [callCode, Instruction.IsEncodable]
  | binary loc op _ _ ihl ihr =>
    obtain ⟨hl, hr⟩ := Node.literalsFit_binary_iff.1 hn
    intro i hi
    simp only [List.mem_append, List.mem_cons, List.not_mem_nil, or_false] at hi
    rcases hi with hi | rfl | hi | rfl
    · exact ihr hr i hi
    · simp [Instruction.IsEncodable]
    · exact ihl hl i hi
    · simp [Instruction.IsEncodable]

/-- **The code of an expression**, run to its end. -/
theorem Encodes.leaves_of_runs (h : Encodes e c) (hn : e.LiteralsFit) (hl : e.LeftOperands fun l => !l.isCall)
    {s t : Registers} (hr : Runs value c s t) : Leaves value e s t := by
  induction h generalizing s t with
  | number loc n =>
    obtain ⟨h0, h1⟩ := hn loc n (by simp)
    rw [eq_of_runs_loadCode h0 h1 hr]
    exact ⟨by rw [Node.slotValue], fun _ => rfl, fun h => absurd rfl h⟩
  | call loc g =>
    exact ⟨by rw [Node.slotValue, primary_of_runs_callCode hr], fun h => (nomatch h), fun _ h => absurd rfl h⟩
  | @binary loc op left right l r hel her ihl ihr =>
    obtain ⟨hcall, hleft, hright⟩ := Node.leftOperands_binary_iff.1 hl
    obtain ⟨hnl, hnr⟩ := Node.literalsFit_binary_iff.1 hn
    obtain ⟨s₁, h₁, hr⟩ := runs_append_iff.1 hr
    obtain ⟨s₂, h₂, hr⟩ := runs_cons_iff.1 hr
    obtain ⟨s₃, h₃, h₄⟩ := runs_append_iff.1 hr
    have hop := (runs_singleton_iff.1 h₄).eq_of_compute? rfl
    have hkeep := h₂.eq_of_compute? rfl
    have hR := ihr hnr hright h₁
    have hL := ihl hnl hleft h₃
    have hnc : ¬left.isCall := by simpa using hcall
    -- the second register when the operands meet
    have hsecond : s₃.secondary = (if left.isLiteral then right else left.innermostRight).slotValue value := by
      by_cases hlit : left.isLiteral
      · rw [if_pos hlit, hL.literal hlit, hkeep, hR.primary]
      · rw [if_neg hlit, hL.operation hlit hnc]
    subst hop
    constructor
    · rw [Node.slotValue, hL.primary, hsecond, apply_ite (Node.slotValue value)]
    · intro h
      cases h
    · intro _ _
      rw [Node.innermostRight_binary hel.isExpression hnc]
      exact hsecond

end Code

/-- **The code of an expression computes its slot value**, for expressions with literals that fit into a register and
without a call as a left operand. It computes the value of the expression if all left operands are literals. -/
theorem runs_expressionCode (value : String → BitVec 32) {e : Tree} (he : e.IsExpression) (hn : e.LiteralsFit)
    (hl : e.LeftOperands fun l => !l.isCall) : ∃ c, expressionCode e = .ok c ∧ ∀ s, (∃ t, Runs value c s t) ∧
      ∀ t, Runs value c s t → t.primary = e.slotValue value ∧
        (e.LeftOperands Node.isLiteral → t.primary = e.trueValue value) := by
  obtain ⟨c, hc⟩ := exists_encodes he
  refine ⟨c, expressionCode_eq_ok_iff.2 hc, fun s => ⟨exists_runs (hc.encodable hn) s, fun t ht => ?_⟩⟩
  have hv := (hc.leaves_of_runs hn hl ht).primary
  refine ⟨hv, fun hlit => ?_⟩
  rw [hv, Node.slotValue_eq_trueValue he hlit]

/-- The expression `65536 - g() - 3`. -/
def chainedDifference : Tree :=
  .binary ⟨"t.c", 1, 1⟩ (some .subtract)
    (.binary ⟨"t.c", 1, 1⟩ (some .subtract) (.number ⟨"t.c", 1, 1⟩ 65536) (.call ⟨"t.c", 1, 1⟩ "g"))
    (.number ⟨"t.c", 1, 1⟩ 3)

/-- For `g() = 5` the code subtracts `5` twice. -/
theorem runs_chainedDifference : (chainedDifference.IsExpression ∧ chainedDifference.LiteralsFit ∧
      chainedDifference.LeftOperands fun l => !l.isCall) ∧
    ∃ c, expressionCode chainedDifference = .ok c ∧ ∀ s, (∃ t, Runs (fun _ => 5) c s t) ∧
      ∀ t, Runs (fun _ => 5) c s t → t.primary = 65526 := by
  have he : chainedDifference.IsExpression :=
    .binary _ _ (.binary _ _ (.number _ _) (.call _ _)) (.number _ _)
  have hn : chainedDifference.LiteralsFit := by
    simp [chainedDifference, Node.LiteralsFit]
    omega
  have hl : chainedDifference.LeftOperands fun l => !l.isCall := by
    simp only [chainedDifference, Node.leftOperands_binary_iff]
    simp [Node.LeftOperands, Node.isCall]
  have hv : chainedDifference.slotValue (fun _ => 5) = 65526 := by
    simp only [chainedDifference, Node.slotValue, Node.innermostRight]
    decide
  obtain ⟨c, hc, h⟩ := runs_expressionCode (fun _ => 5) he hn hl
  refine ⟨⟨he, hn, hl⟩, c, hc, fun s => ⟨(h s).1, fun t ht => ?_⟩⟩
  rw [((h s).2 t ht).1, hv]

end TinyArm
