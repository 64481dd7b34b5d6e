import TinyArm.Proofs.Conservation

/-!
# What is read beyond the grammar

The reader counts operands but does not ask where they stand: it takes `1 2 +` for `1 + 2`. It does see that
parentheses are balanced, so that alternation is all that is left unchecked.

* `derives_iff_alternates`: **the tokens of a value that was read are an expression exactly if operands and operators
  alternate**, and then the value is the tree of the expression.
* `postfixSum_not_derives`: a value that was read from tokens that are no expression.
-/

namespace TinyArm

open Grammar

/-- Tokens lead to one pair of stacks only. -/
theorem Stacks.Reads.unique {s s₁ s₂ : Stacks} {ts : List Token} (h₁ : Reads s ts s₁) (h₂ : Reads s ts s₂) :
    s₁ = s₂ := by
  let r : Returning := ⟨⟨⟨"", 1, 1⟩, .int, .absent⟩, [], ⟨"", 1, 1⟩, s⟩
  have e₁ : Reader.run ⟨[], .value r⟩ ts = _ := Reader.run_of_reads h₁
  have e₂ : Reader.run ⟨[], .value r⟩ ts = _ := Reader.run_of_reads h₂
  have e := e₁.symm.trans e₂
  simp only [Except.ok.injEq, Reader.mk.injEq, Reader.State.value.injEq, Returning.mk.injEq, true_and] at e
  exact e

theorem Stacks.IsValue.unique {ts : List Token} {v w : RawNode} (hv : Stacks.IsValue ts v) (hw : Stacks.IsValue ts w) :
    v = w := by
  obtain ⟨s₁, h₁, f₁⟩ := hv
  obtain ⟨s₂, h₂, f₂⟩ := hw
  obtain rfl := h₁.unique h₂
  exact Except.ok.inj (f₁.symm.trans f₂)

/-- **The tokens of a value that was read are an expression exactly if operands and operators alternate**; everything
else that the grammar asks for has been checked. -/
theorem derives_iff_alternates {file : String} {lines : List String} {ts : List Token} {n : RawNode}
    (h : RawNode.ofTokens file lines ts = .ok n) :
    List.Forall₂ (fun span m => ∃ v, m = .ret span.1.location v ∧
      (Derives .expression span.2 ↔ Alternates span.2) ∧ (Alternates span.2 → Denotes .sum span.2 v))
      (returnSpans (properTokens ts)) n.returns := by
  refine (returned_of_makes (ofTokens_eq_ok_iff.1 h)).imp fun span m hm => ?_
  obtain ⟨v, rfl, hv⟩ := hm
  have hi : Derives .expression span.2 ↔ Alternates span.2 := by
    rw [derives_iff]
    exact and_iff_left hv.conserves.balanced
  refine ⟨v, rfl, hi, fun ha => ?_⟩
  obtain ⟨w, hw⟩ := (hi.2 ha).exists_denotes
  rwa [hv.unique (isValue_of_grammar (.inr hw))]

/-- The tokens `1 2 +`. -/
def postfixSum : List Token :=
  [⟨.number, .number 1, ⟨"t.c", 2, 1⟩⟩, ⟨.number, .number 2, ⟨"t.c", 2, 3⟩⟩, ⟨.operator .add, .text "+", ⟨"t.c", 2, 5⟩⟩]

/-- The program that `returning postfixSum` is read to. -/
def postfixSumTree : RawNode :=
  .program ⟨"t.c", 1, 1⟩ [.function ⟨"t.c", 1, 1⟩ (.text "f") .int [.ret ⟨"t.c", 1, 11⟩
    (.binary ⟨"t.c", 2, 5⟩ (some .add) (.number ⟨"t.c", 2, 1⟩ (.number 1)) (.number ⟨"t.c", 2, 3⟩ (.number 2)))]]

theorem derives_iff_alternates_postfixSum : RawNode.ofTokens "t.c" [] (returning postfixSum) = .ok postfixSumTree ∧
    List.Forall₂ (fun span m => ∃ v, m = .ret span.1.location v ∧
      (Derives .expression span.2 ↔ Alternates span.2) ∧ (Alternates span.2 → Denotes .sum span.2 v))
      (returnSpans (properTokens (returning postfixSum))) postfixSumTree.returns :=
  have h : RawNode.ofTokens "t.c" [] (returning postfixSum) = .ok postfixSumTree := rfl
  ⟨h, derives_iff_alternates h⟩

/-- **A value that was read from tokens that are no expression.** -/
theorem postfixSum_not_derives : RawNode.ofTokens "t.c" [] (returning postfixSum) = .ok postfixSumTree ∧
    ¬List.Forall₂ (fun span m => ∃ v, m = .ret span.1.location v ∧ (v ≠ .absent → Derives .expression span.2))
      (returnSpans (properTokens (returning postfixSum))) postfixSumTree.returns := by
  refine ⟨rfl, fun h => ?_⟩
  have hn : ¬Derives .expression postfixSum := by
    rw [derives_iff]
    decide
  have he : returnSpans (properTokens (returning postfixSum)) =
      [(⟨.returnWord, .text "return", ⟨"t.c", 1, 11⟩⟩, postfixSum)] := by decide
  rw [he] at h
  obtain ⟨⟨v, hv, hd⟩, -⟩ := List.forall₂_cons.1 h
  cases hv
  exact hn (hd nofun)

end TinyArm
