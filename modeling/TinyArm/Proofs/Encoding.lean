import Mathlib.Data.List.Forall2
import TinyArm.Assembly.Generation
import TinyArm.Proofs.Nodes

/-!
# What code is generated for trees

`Encodes e c` says that `c` is the code of the expression `e`, one constructor for each form of expression; proofs about
generated code are inductions over it.

* `expressionCode_eq_ok_iff`: generation gives the code of exactly the expressions that have one.
* `functionBlocks_eq_ok_iff`: each function has a block, in order.
* `exists_generate_iff`: there is code for exactly the trees of programs.
* `eq_ret_or_of_mem_code`, `exists_code_of_functionBlock`: what a block consists of, and what it starts with.
-/

namespace TinyArm

/-! ## Expressions -/

/-- **The code of an expression**: the right operand, its place in `w1`, the left operand, the operation. -/
inductive Encodes : Tree → List Instruction → Prop where
  | number (loc n) : Encodes (.number loc n) (loadCode n)
  | call (loc name) : Encodes (.call loc name) (callCode name)
  | binary (loc op) {left right : Tree} {l r : List Instruction} : Encodes left l → Encodes right r →
      Encodes (.binary loc (some op) left right) (r ++ .keep :: (l ++ [.combine op]))

/-- **Generation gives the code of exactly the expressions that have one.** -/
theorem expressionCode_eq_ok_iff {e : Tree} {c : List Instruction} : expressionCode e = .ok c ↔ Encodes e c := by
  constructor
  · intro h
    fun_induction expressionCode e generalizing c with
    | case1 loc n => cases h; exact .number loc n
    | case2 loc name => cases h; exact .call loc name
    | case3 => cases h
    | case4 => cases h
    | case5 => cases h
    | case6 loc op left right r hr l hl ihr ihl =>
      cases h
      exact .binary loc op (ihl hl) (ihr hr)
    | case7 => cases h
    | case8 => cases h
  · intro h
    induction h with
    | number => rfl
    | call => rfl
    | binary loc op _ _ ihl ihr => simp only [expressionCode, ihr, ihl]

theorem Encodes.ne_absent {e : Tree} {c : List Instruction} (h : Encodes e c) : e ≠ .absent := by
  rintro rfl
  cases h

theorem Encodes.isExpression {e : Tree} {c : List Instruction} (h : Encodes e c) : e.IsExpression := by
  induction h with
  | number loc n => exact .number loc n
  | call loc name => exact .call loc name
  | binary loc op _ _ ihl ihr => exact .binary loc op ihl ihr

/-- An expression has code. -/
theorem exists_encodes {e : Tree} (h : e.IsExpression) : ∃ c, Encodes e c := by
  induction h with
  | number loc n => exact ⟨_, .number loc n⟩
  | call loc name => exact ⟨_, .call loc name⟩
  | binary loc op _ _ ihl ihr =>
    obtain ⟨l, hl⟩ := ihl
    obtain ⟨r, hr⟩ := ihr
    exact ⟨_, .binary loc op hl hr⟩

/-- What is called in the code is called in the expression. -/
theorem Encodes.exists_call_mem {e : Tree} {c : List Instruction} (h : Encodes e c) {g : String}
    (hg : .call g ∈ c) : ∃ loc, .call loc g ∈ e.leaves := by
  induction h with
  | number loc n =>
    unfold loadCode at hg
    split at hg <;> simp at hg
  | call loc name =>
    simp only [callCode, List.mem_cons, reduceCtorEq, Instruction.call.injEq, List.not_mem_nil, false_or,
      or_false] at hg
    exact ⟨loc, by rw [hg]; exact List.mem_singleton.2 rfl⟩
  | binary loc op _ _ ihl ihr =>
    rw [Node.leaves_binary]
    simp only [List.mem_append, List.mem_cons, List.not_mem_nil, reduceCtorEq, false_or, or_false] at hg
    rcases hg with hg | hg
    · obtain ⟨l, hl⟩ := ihr hg
      exact ⟨l, List.mem_append_right _ hl⟩
    · obtain ⟨l, hl⟩ := ihl hg
      exact ⟨l, List.mem_append_left _ hl⟩

/-! ## Statements -/

/-- The code of a value that may be absent. -/
inductive EncodesValue : Tree → List Instruction → Prop where
  | absent : EncodesValue .absent []
  | expression {e : Tree} {c : List Instruction} : Encodes e c → EncodesValue e c

/-- Only a `return` has code, which ends in a return instruction. -/
theorem statementCode_eq_ok_iff {s : Tree} {c : List Instruction} : statementCode s = .ok c ↔
    ∃ loc v d, s = .ret loc v ∧ EncodesValue v d ∧ c = d ++ [.ret] := by
  constructor
  · intro h
    unfold statementCode at h
    split at h
    · next loc => cases h; exact ⟨loc, .absent, [], rfl, .absent, rfl⟩
    · next loc v _ =>
      cases he : expressionCode v with
      | error f => rw [he] at h; cases h
      | ok d =>
        rw [he] at h
        cases h
        exact ⟨loc, v, d, rfl, .expression (expressionCode_eq_ok_iff.1 he), rfl⟩
    · cases h
    · cases h
  · rintro ⟨loc, v, d, rfl, hv, rfl⟩
    cases hv with
    | absent => rfl
    | expression hv =>
      rw [statementCode.eq_2 _ _ hv.ne_absent, expressionCode_eq_ok_iff.2 hv]
      rfl

theorem exists_statementCode_iff {s : Tree} : (∃ c, statementCode s = .ok c) ↔ s.IsReturn := by
  constructor
  · rintro ⟨c, h⟩
    obtain ⟨loc, v, d, rfl, hv, -⟩ := statementCode_eq_ok_iff.1 h
    cases hv with
    | absent => exact .nothing loc
    | expression hv => exact .value loc hv.isExpression
  · intro h
    cases h with
    | nothing loc => exact ⟨_, statementCode_eq_ok_iff.2 ⟨loc, _, _, rfl, .absent, rfl⟩⟩
    | value loc hv =>
      obtain ⟨d, hd⟩ := exists_encodes hv
      exact ⟨_, statementCode_eq_ok_iff.2 ⟨loc, _, _, rfl, .expression hd, rfl⟩⟩

theorem bodyCode_cons_eq_ok_iff {s : Tree} {rest : List Tree} {c : List Instruction} :
    bodyCode (s :: rest) = .ok c ↔
      ∃ d e, statementCode s = .ok d ∧ bodyCode rest = .ok e ∧ d ++ e = c := by
  rw [bodyCode]
  cases statementCode s with
  | error f => simp
  | ok d => cases bodyCode rest <;> simp [Except.map]

theorem exists_bodyCode_iff {body : List Tree} : (∃ c, bodyCode body = .ok c) ↔ ∀ s ∈ body, s.IsReturn := by
  induction body with
  | nil => simp [bodyCode]
  | cons s rest ih =>
    rw [List.forall_mem_cons, ← ih, ← exists_statementCode_iff]
    simp only [bodyCode_cons_eq_ok_iff]
    constructor
    · rintro ⟨c, d, e, hd, he, -⟩
      exact ⟨⟨d, hd⟩, e, he⟩
    · rintro ⟨⟨d, hd⟩, e, he⟩
      exact ⟨_, d, e, hd, he, rfl⟩

/-- The code of a body is that of its statements. -/
theorem exists_statement_of_mem {body : List Tree} {c : List Instruction} (h : bodyCode body = .ok c)
    {i : Instruction} (hi : i ∈ c) : ∃ s ∈ body, ∃ d, statementCode s = .ok d ∧ i ∈ d := by
  induction body generalizing c with
  | nil =>
    cases h
    cases hi
  | cons s rest ih =>
    obtain ⟨d, e, hd, he, rfl⟩ := bodyCode_cons_eq_ok_iff.1 h
    rcases List.mem_append.1 hi with hi | hi
    · exact ⟨s, List.mem_cons_self, d, hd, hi⟩
    · obtain ⟨t, ht, hm⟩ := ih he hi
      exact ⟨t, List.mem_cons_of_mem _ ht, hm⟩

/-- A body without code has a statement without code. -/
theorem exists_statement_of_bodyCode_eq_error {body : List Tree} {e : Failure} (h : bodyCode body = .error e) :
    ∃ s ∈ body, statementCode s = .error e := by
  induction body with
  | nil => cases h
  | cons s rest ih =>
    rw [bodyCode] at h
    split at h
    · next hs => cases h; exact ⟨s, List.mem_cons_self, hs⟩
    · cases hr : bodyCode rest with
      | error e' =>
        rw [hr] at h
        cases h
        obtain ⟨t, ht, he⟩ := ih hr
        exact ⟨t, List.mem_cons_of_mem _ ht, he⟩
      | ok c => rw [hr] at h; cases h

/-! ## Functions -/

/-- **Each function has a block, in order.** -/
theorem functionBlocks_eq_ok_iff {fs : List Tree} {a : Assembly} :
    functionBlocks fs = .ok a ↔ List.Forall₂ (fun f b => functionBlock f = .ok b) fs a := by
  induction fs generalizing a with
  | nil => simp [functionBlocks, eq_comm]
  | cons f rest ih =>
    rw [functionBlocks]
    constructor
    · intro h
      split at h
      · cases h
      · next b hb =>
        cases hr : functionBlocks rest with
        | error e => rw [hr] at h; cases h
        | ok bs =>
          rw [hr] at h
          cases h
          exact .cons hb (ih.1 hr)
    · intro h
      cases h with
      | cons hb hbs =>
        rw [hb, ih.2 hbs]
        rfl

/-- The block of a function bears its name and consists of the code of its statements, closed by a return instruction
if the last of them is no `return`. -/
theorem functionBlock_eq_ok_iff {f : Tree} {b : Block} : functionBlock f = .ok b ↔
    ∃ loc type body code, f = .function loc b.name type body ∧ bodyCode body = .ok code ∧
      b.code = code ++ if (body.getLast?.map Node.isReturn).getD false then [] else [.ret] := by
  constructor
  · intro h
    unfold functionBlock at h
    split at h
    · next loc name type body =>
      cases hc : bodyCode body with
      | error e => rw [hc] at h; cases h
      | ok code =>
        rw [hc] at h
        cases h
        exact ⟨loc, type, body, code, rfl, hc, rfl⟩
    · cases h
  · rintro ⟨loc, type, body, code, rfl, hc, hb⟩
    simp only [functionBlock, hc, Except.map, ← hb]

theorem exists_functionBlock_iff {f : Tree} : (∃ b, functionBlock f = .ok b) ↔ f.IsFunction := by
  constructor
  · rintro ⟨b, h⟩
    obtain ⟨loc, type, body, code, rfl, hc, -⟩ := functionBlock_eq_ok_iff.1 h
    exact .intro loc _ type (exists_bodyCode_iff.1 ⟨code, hc⟩)
  · rintro ⟨loc, name, type, hb⟩
    obtain ⟨code, hc⟩ := exists_bodyCode_iff.2 hb
    exact ⟨⟨name, _⟩, functionBlock_eq_ok_iff.2 ⟨loc, type, _, code, rfl, hc, rfl⟩⟩

theorem exists_functionBlocks_iff {fs : List Tree} : (∃ a, functionBlocks fs = .ok a) ↔ ∀ f ∈ fs, f.IsFunction := by
  induction fs with
  | nil => simp [functionBlocks]
  | cons f rest ih =>
    rw [List.forall_mem_cons, ← ih, ← exists_functionBlock_iff]
    simp only [functionBlocks_eq_ok_iff, List.forall₂_cons_left_iff]
    constructor
    · rintro ⟨-, b, bs, hb, hbs, rfl⟩
      exact ⟨⟨b, hb⟩, bs, hbs⟩
    · rintro ⟨⟨b, hb⟩, bs, hbs⟩
      exact ⟨_, b, bs, hb, hbs, rfl⟩

/-- Functions without code have one without a block. -/
theorem exists_function_of_functionBlocks_eq_error {fs : List Tree} {e : Failure} (h : functionBlocks fs = .error e) :
    ∃ f ∈ fs, functionBlock f = .error e := by
  induction fs with
  | nil => cases h
  | cons f rest ih =>
    rw [functionBlocks] at h
    split at h
    · next hf => cases h; exact ⟨f, List.mem_cons_self, hf⟩
    · cases hr : functionBlocks rest with
      | error e' =>
        rw [hr] at h
        cases h
        obtain ⟨g, hg, he⟩ := ih hr
        exact ⟨g, List.mem_cons_of_mem _ hg, he⟩
      | ok a => rw [hr] at h; cases h

/-- **There is code for exactly the trees of programs.** -/
theorem exists_generate_iff {n : Tree} : (∃ a, generate n = .ok a) ↔ n.IsProgram := by
  cases n with
  | program loc fs =>
    rw [generate, exists_functionBlocks_iff]
    constructor
    · exact .intro loc
    · rintro ⟨-, hf⟩
      exact hf
  | _ =>
    simp only [generate, reduceCtorEq, exists_false, false_iff]
    rintro ⟨⟩

/-- **An instruction of a block** returns or comes from the value of one of the statements. -/
theorem eq_ret_or_of_mem_code {f : Tree} {b : Block} (h : functionBlock f = .ok b) {i : Instruction}
    (hi : i ∈ b.code) : i = .ret ∨ ∃ loc v c, .ret loc v ∈ f.items ∧ Encodes v c ∧ i ∈ c := by
  obtain ⟨loc, type, body, code, rfl, hc, hb⟩ := functionBlock_eq_ok_iff.1 h
  rw [hb, List.mem_append] at hi
  rcases hi with hi | hi
  · obtain ⟨s, hs, d, hd, hi⟩ := exists_statement_of_mem hc hi
    obtain ⟨l, v, d, rfl, hv, rfl⟩ := statementCode_eq_ok_iff.1 hd
    rcases List.mem_append.1 hi with hi | hi
    · cases hv with
      | absent => cases hi
      | expression hv => exact .inr ⟨l, v, d, hs, hv, hi⟩
    · exact .inl (List.mem_singleton.1 hi)
  · split at hi
    · cases hi
    · exact .inl (List.mem_singleton.1 hi)

/-- **A block starts** with the code of the value that its function returns first, and returns after it. -/
theorem exists_code_of_functionBlock {f : Tree} {b : Block} (h : functionBlock f = .ok b) :
    ∃ c rest, b.code = c ++ .ret :: rest ∧
      (f.items = [] ∧ c = [] ∨ ∃ loc v, f.items.head? = some (.ret loc v) ∧ EncodesValue v c) := by
  obtain ⟨loc, type, body, code, rfl, hc, hb⟩ := functionBlock_eq_ok_iff.1 h
  cases body with
  | nil =>
    cases hc
    exact ⟨[], [], hb, .inl ⟨rfl, rfl⟩⟩
  | cons s rest =>
    obtain ⟨d, e, hd, he, rfl⟩ := bodyCode_cons_eq_ok_iff.1 hc
    obtain ⟨l, v, d, rfl, hv, rfl⟩ := statementCode_eq_ok_iff.1 hd
    rw [List.append_assoc, List.append_assoc] at hb
    exact ⟨d, _, hb, .inr ⟨l, v, rfl, hv⟩⟩

end TinyArm
