import Mathlib.Data.List.Perm.Basic
import TinyArm.Proofs.Nodes
import TinyArm.Proofs.Precedence

/-!
# Reading loses nothing

Whatever tokens are read, in the order of the grammar or not, the tree has exactly their parts. The stacks keep the
operands of an expression in order, each operator until it is applied, and one open parenthesis for each that is not
closed.

* `Stacks.Keeps`: applying operators keeps the leaves, read from the bottom of the stack to its top, and the operations.
* `Stacks.Reads.adds`: what an expression adds to the stacks.
* `Stacks.IsValue.conserves`: the value of a `return` has the parts of its tokens.
* `conserves_of_ofTokens`: **a tree and its tokens have the same parts.**
-/

namespace TinyArm

open Grammar

/-! ## Parts of tokens -/

/-- The leaf that a token of an expression makes. -/
def Token.leaf? (t : Token) : Option RawNode :=
  match t.type with
  | .number => some (.number t.location t.value)
  | .identifier => some (.call t.location t.value)
  | _ => none

/-- The operation that an operator makes. -/
def Token.operation? (t : Token) : Option (Location × Option Operator) :=
  match t.type with
  | .operator op => some (t.location, some op)
  | _ => none

/-- The place and the value of a type keyword. -/
def Token.head? (t : Token) : Option (Location × Value) :=
  if t.type.isTypeName then some (t.location, t.value) else none

/-! ## Parts of stacks -/

/-- The operation that an entry of the operator stack makes. -/
def Pending.operation? : Pending → Option (Location × Option Operator)
  | group _ => none
  | operator loc op => some (loc, some op)

/-- Whether an entry of the operator stack is an open parenthesis. -/
def Pending.isGroup : Pending → Bool
  | group _ => true
  | operator .. => false

namespace Stacks

/-- The leaves of the operands, from the bottom of the stack to its top. -/
def leaves (s : Stacks) : List RawNode := s.operands.reverse.flatMap Node.leaves

/-- The operations of the operands, and those that are pending. -/
def operations (s : Stacks) : List (Location × Option Operator) :=
  s.operands.flatMap Node.operations ++ s.pending.filterMap Pending.operation?

/-- The number of open parentheses. -/
def depth (s : Stacks) : Nat := s.pending.countP Pending.isGroup

/-- Stacks that hold the same parts. -/
structure Keeps (s s' : Stacks) : Prop where
  leaves : s'.leaves = s.leaves
  operations : s'.operations.Perm s.operations
  isExpression : (∀ n ∈ s.operands, n.IsExpression) → ∀ n ∈ s'.operands, n.IsExpression

theorem Keeps.refl (s : Stacks) : Keeps s s := ⟨rfl, .refl _, id⟩

theorem Keeps.trans {s₁ s₂ s₃ : Stacks} (h : Keeps s₁ s₂) (h' : Keeps s₂ s₃) : Keeps s₁ s₃ :=
  ⟨h'.leaves.trans h.leaves, h'.operations.trans h.operations, h'.isExpression ∘ h.isExpression⟩

/-- **Applying an operator keeps all parts.** -/
theorem keeps_of_applyOperator {loc : Location} {op : Operator} {operands operands' : List RawNode}
    (h : applyOperator loc op operands = .ok operands') (pending : List Pending) :
    Keeps ⟨operands, .operator loc op :: pending⟩ ⟨operands', pending⟩ := by
  match operands, h with
  | right :: left :: rest, h =>
    cases h
    refine ⟨?_, ?_, ?_⟩
    · simp [leaves]
    · rw [List.perm_iff_count]
      intro a
      simp only [operations, List.flatMap_cons, List.filterMap_cons, Pending.operation?, Node.operations_binary,
        List.count_append, List.count_cons]
      omega
    · intro hn
      simp only [List.mem_cons, forall_eq_or_imp] at hn ⊢
      exact ⟨.binary _ _ hn.2.1 hn.1, hn.2.2⟩

theorem keeps_of_reduceOperators {p : Nat} {operands : List RawNode} {pending : List Pending} {s : Stacks}
    (h : reduceOperators p operands pending = .ok s) :
    Keeps ⟨operands, pending⟩ s ∧ s.depth = pending.countP Pending.isGroup := by
  refine of_reduceOperators (P := fun operands pending => Keeps ⟨operands, pending⟩ s ∧
    s.depth = pending.countP Pending.isGroup) (fun operands loc op pending operands' _ ha ih => ?_) h ⟨.refl _, rfl⟩
  obtain ⟨hk, hd⟩ := ih
  exact ⟨(keeps_of_applyOperator ha pending).trans hk, by simpa [Pending.isGroup] using hd⟩

theorem keeps_of_closeGroup {loc : Location} {operands : List RawNode} {pending : List Pending} {s : Stacks}
    (h : closeGroup loc operands pending = .ok s) :
    Keeps ⟨operands, pending⟩ s ∧ s.depth + 1 = pending.countP Pending.isGroup := by
  fun_induction closeGroup loc operands pending with
  | case1 => cases h
  | case2 => cases h; exact ⟨⟨rfl, .refl _, id⟩, by simp [depth, List.countP_cons, Pending.isGroup]⟩
  | case3 operands l op pending operands' ha ih =>
    obtain ⟨hk, hd⟩ := ih h
    exact ⟨(keeps_of_applyOperator ha pending).trans hk, by simpa [Pending.isGroup] using hd⟩
  | case4 => cases h

theorem keeps_of_applyAll {operands operands' : List RawNode} {pending : List Pending}
    (h : applyAll operands pending = .ok operands') :
    Keeps ⟨operands, pending⟩ ⟨operands', []⟩ ∧ pending.countP Pending.isGroup = 0 := by
  fun_induction applyAll operands pending with
  | case1 => cases h; exact ⟨.refl _, rfl⟩
  | case2 => cases h
  | case3 operands l op pending operands₁ ha ih =>
    obtain ⟨hk, hd⟩ := ih h
    exact ⟨(keeps_of_applyOperator ha pending).trans hk, by simpa [Pending.isGroup] using hd⟩
  | case4 => cases h

/-! ## Parts of expressions -/

/-- Stacks that hold the parts of tokens besides what they held. -/
structure Adds (s : Stacks) (ts : List Token) (s' : Stacks) : Prop where
  leaves : s'.leaves = s.leaves ++ ts.filterMap Token.leaf?
  operations : s'.operations.Perm (s.operations ++ ts.filterMap Token.operation?)
  nest : ts.foldlM nest s.depth = some s'.depth
  isExpression : (∀ n ∈ s.operands, n.IsExpression) → ∀ n ∈ s'.operands, n.IsExpression

theorem Adds.nil (s : Stacks) : Adds s [] s := ⟨by simp, by simp, rfl, id⟩

theorem Adds.trans {s s₁ s₂ : Stacks} {ts us : List Token} (h : Adds s ts s₁) (h' : Adds s₁ us s₂) :
    Adds s (ts ++ us) s₂ where
  leaves := by simp [h'.leaves, h.leaves]
  operations := by
    rw [List.filterMap_append, ← List.append_assoc]
    exact h'.operations.trans (h.operations.append_right _)
  nest := by rw [List.foldlM_append, h.nest]; exact h'.nest
  isExpression := h'.isExpression ∘ h.isExpression

/-- A leaf on the stack. -/
theorem adds_operand (s : Stacks) {ts : List Token} {n : RawNode} (hn : n.IsExpression) (ho : n.operations = [])
    (hl : ts.filterMap Token.leaf? = n.leaves) (ht : ts.filterMap Token.operation? = [])
    (hd : ts.foldlM nest s.depth = some s.depth) : Adds s ts (s.operand n) where
  leaves := by simp [leaves, operand, hl]
  operations := by simp [operations, operand, ho, ht]
  nest := hd
  isExpression h := by simpa [operand, hn] using h

theorem adds_number (s : Stacks) {t : Token} (ht : t.type = .number) :
    Adds s [t] (s.operand (.number t.location t.value)) := by
  apply adds_operand s (.number _ _) <;> simp [Token.leaf?, Token.operation?, Grammar.nest, ht]

theorem adds_call (s : Stacks) {n l r : Token} (hn : n.type = .identifier) (hl : l.type = .leftParen)
    (hr : r.type = .rightParen) : Adds s [n, l, r] (s.operand (.call n.location n.value)) := by
  apply adds_operand s (.call _ _) <;> simp [Token.leaf?, Token.operation?, Grammar.nest, hn, hl, hr]

theorem adds_group (s : Stacks) {t : Token} (ht : t.type = .leftParen) : Adds s [t] (s.group t.location) where
  leaves := by simp [leaves, group, Token.leaf?, ht]
  operations := by simp [operations, group, Token.operation?, Pending.operation?, List.filterMap_cons, ht]
  nest := by simp [depth, group, Grammar.nest, Pending.isGroup, List.countP_cons, ht]
  isExpression := id

theorem adds_close {s s' : Stacks} {t : Token} (ht : t.type = .rightParen) (h : s.close t.location = .ok s') :
    Adds s [t] s' := by
  obtain ⟨hk, hd⟩ := keeps_of_closeGroup h
  have hs : s.depth = s'.depth + 1 := hd.symm
  refine ⟨?_, ?_, ?_, hk.isExpression⟩
  · simpa [Token.leaf?, ht] using hk.leaves
  · simpa [Token.operation?, ht] using hk.operations
  · simp [nest, ht, hs]

theorem adds_operator {s s' : Stacks} {t : Token} {op : Operator} (ht : t.type = .operator op)
    (h : s.operator t.location op = .ok s') : Adds s [t] s' := by
  simp only [operator] at h
  split at h
  · next r hr =>
    cases h
    obtain ⟨hk, hd⟩ := keeps_of_reduceOperators hr
    refine ⟨?_, ?_, ?_, hk.isExpression⟩
    · simpa [leaves, Token.leaf?, ht] using hk.leaves
    · rw [List.perm_iff_count]
      intro a
      have := hk.operations.count_eq a
      simp only [operations, List.count_append] at this
      simp [operations, Token.operation?, Pending.operation?, ht, List.count_cons]
      omega
    · simp only [depth] at hd
      simp [nest, ht, depth, Pending.isGroup, hd]
  · cases h

/-- **An expression adds the parts of its tokens to the stacks.** -/
theorem Reads.adds {s s' : Stacks} {ts : List Token} (h : Reads s ts s') : Adds s ts s' := by
  induction h with
  | nil s => exact .nil s
  | number ht _ ih => exact (adds_number _ ht).trans ih
  | call hn hl hr _ ih => exact (adds_call _ hn hl hr).trans ih
  | group ht _ ih => exact (adds_group _ ht).trans ih
  | close ht hc _ ih => exact (adds_close ht hc).trans ih
  | operator ht ho _ ih => exact (adds_operator ht ho).trans ih

end Stacks

/-! ## Parts of values -/

/-- A value that has the parts of the tokens between a `return` and its semicolon. -/
structure ValueConserves (ts : List Token) (v : RawNode) : Prop where
  leaves : v.leaves = ts.filterMap Token.leaf?
  operations : v.operations.Perm (ts.filterMap Token.operation?)
  balanced : Balanced ts
  count : v ≠ .absent ∧ (ts.filterMap Token.leaf?).length = (ts.filterMap Token.operation?).length + 1 ∨
    v = .absent ∧ ts.filterMap Token.leaf? = [] ∧ ts.filterMap Token.operation? = []

/-- At the end of an expression at most one operand is left. -/
theorem Stacks.exists_applyAll_of_finish {s : Stacks} {v : RawNode} (h : s.finish = .ok v) :
    ∃ operands, applyAll s.operands s.pending = .ok operands ∧ (operands = [] ∧ v = .absent ∨ operands = [v]) := by
  simp only [finish] at h
  split at h
  · cases h
  · next operands ha =>
    refine ⟨operands, ha, ?_⟩
    split at h
    · next he => cases h; exact .inl ⟨List.reverse_eq_nil_iff.1 he, rfl⟩
    · next he => cases h; exact .inr (by simpa using congrArg List.reverse he)
    · cases h

/-- A value is absent or an expression. -/
theorem Stacks.IsValue.isExpression {ts : List Token} {v : RawNode} (h : Stacks.IsValue ts v) :
    v = .absent ∨ v.IsExpression := by
  obtain ⟨s, hs, hf⟩ := h
  obtain ⟨operands, ha, ⟨-, rfl⟩ | rfl⟩ := exists_applyAll_of_finish hf
  · exact .inl rfl
  · refine .inr ((keeps_of_applyAll ha).1.isExpression ?_ v List.mem_cons_self)
    exact hs.adds.isExpression fun n hn => absurd hn List.not_mem_nil

/-- **The value of a `return` has the parts of its tokens.** -/
theorem Stacks.IsValue.conserves {ts : List Token} {v : RawNode} (h : Stacks.IsValue ts v) : ValueConserves ts v := by
  have hv := h.isExpression
  obtain ⟨s, hs, hf⟩ := h
  obtain ⟨operands, ha, ho⟩ := exists_applyAll_of_finish hf
  obtain ⟨hk, hd⟩ := keeps_of_applyAll ha
  have hb : Balanced ts := by
    have hn := hs.adds.nest
    rwa [show s.depth = 0 from hd] at hn
  have hl : Stacks.leaves ⟨operands, []⟩ = ts.filterMap Token.leaf? := hk.leaves.trans hs.adds.leaves
  have hp : (Stacks.operations ⟨operands, []⟩).Perm (ts.filterMap Token.operation?) :=
    hk.operations.trans hs.adds.operations
  rcases ho with ⟨rfl, rfl⟩ | rfl
  · exact ⟨hl, hp, hb, .inr ⟨rfl, hl.symm, hp.nil_eq.symm⟩⟩
  · simp only [Stacks.leaves, List.reverse_singleton, List.flatMap_singleton] at hl
    simp only [Stacks.operations, List.flatMap_singleton, List.filterMap_nil, List.append_nil] at hp
    refine ⟨hl, hp, hb, ?_⟩
    rcases hv with rfl | hv
    · exact .inr ⟨rfl, hl.symm, hp.nil_eq.symm⟩
    · refine .inl ⟨hv.ne_absent, ?_⟩
      rw [← hl, ← hp.length_eq]
      exact hv.length_leaves

/-! ## The tokens of `return`s -/

/-- Each `return` with the tokens strictly between it and the next semicolon. -/
def returnSpans : List Token → List (Token × List Token)
  | [] => []
  | t :: ts =>
    if t.type = .returnWord then (t, ts.takeWhile (·.type ≠ .semicolon)) :: returnSpans ts else returnSpans ts

theorem returnSpans_append_of_ne {ts : List Token} (h : ∀ t ∈ ts, t.type ≠ .returnWord) (us : List Token) :
    returnSpans (ts ++ us) = returnSpans us := by
  induction ts with
  | nil => rfl
  | cons t ts ih =>
    simp only [List.mem_cons, forall_eq_or_imp] at h
    simp only [List.cons_append, returnSpans, if_neg h.1, ih h.2]

/-- The spans of tokens are at their `return`s. -/
theorem map_fst_returnSpans (ts : List Token) : (returnSpans ts).map Prod.fst = ts.filter (·.type = .returnWord) := by
  induction ts with
  | nil => rfl
  | cons t ts ih =>
    by_cases h : t.type = .returnWord <;> simp [returnSpans, h, ih]

/-- A `return` at its place with the value of its tokens. -/
def Returned (span : Token × List Token) (n : RawNode) : Prop :=
  ∃ v, n = .ret span.1.location v ∧ Stacks.IsValue span.2 v

/-! ## Parts of statements and functions -/

/-- Trees, taken together, that have the parts of tokens. The spans of the tokens are closed: what follows the tokens
has spans of its own. -/
structure Tallies (ts : List Token) (ns : List RawNode) : Prop where
  heads : (ns.flatMap Node.heads).map (fun h => (h.1, Value.text h.2.keyword)) = ts.filterMap Token.head?
  operations : (ns.flatMap Node.operations).Perm (ts.filterMap Token.operation?)
  leaves : ns.flatMap Node.leaves = (ns.flatMap Node.returns).flatMap Node.leaves
  returns : ∃ spans, (∀ us, returnSpans (ts ++ us) = spans ++ returnSpans us) ∧
    List.Forall₂ Returned spans (ns.flatMap Node.returns)

theorem Tallies.nil : Tallies [] [] := ⟨rfl, .refl _, rfl, [], fun _ => rfl, .nil⟩

theorem Tallies.append {ts us : List Token} {ns ms : List RawNode} (h : Tallies ts ns) (h' : Tallies us ms) :
    Tallies (ts ++ us) (ns ++ ms) := by
  obtain ⟨spans, hs, hn⟩ := h.returns
  obtain ⟨spans', hs', hm⟩ := h'.returns
  refine ⟨?_, ?_, ?_, spans ++ spans', fun rest => ?_, ?_⟩
  · rw [List.flatMap_append, List.map_append, h.heads, h'.heads, List.filterMap_append]
  · rw [List.flatMap_append, List.filterMap_append]
    exact h.operations.append h'.operations
  · rw [List.flatMap_append, List.flatMap_append, List.flatMap_append, h.leaves, h'.leaves]
  · rw [List.append_assoc, hs, hs', List.append_assoc]
  · rw [List.flatMap_append]
    exact List.rel_append hn hm

/-- Layouts of the members of a list are a layout of the list. -/
theorem tallies_flatten {R : List Token → RawNode → Prop} (hR : ∀ ts n, R ts n → Tallies ts [n])
    {tss : List (List Token)} {ns : List RawNode} (h : List.Forall₂ R tss ns) : Tallies tss.flatten ns := by
  induction h with
  | nil => exact .nil
  | cons hn _ ih => exact (hR _ _ hn).append ih

/-- The span of a statement is what stands between its `return` and its semicolon. -/
theorem returnSpans_statement {r e : Token} {ts : List Token} (hr : r.type = .returnWord)
    (ht : ∀ t ∈ ts, t.type ≠ .returnWord ∧ t.type ≠ .semicolon) (he : e.type = .semicolon) (us : List Token) :
    returnSpans (r :: (ts ++ [e]) ++ us) = (r, ts) :: returnSpans us := by
  have h₁ : (ts ++ e :: us).takeWhile (·.type ≠ .semicolon) = ts := by
    rw [List.takeWhile_append_of_pos fun t h => by simpa using (ht t h).2]
    simp [he]
  have h₂ : returnSpans (ts ++ e :: us) = returnSpans us := by
    rw [returnSpans_append_of_ne fun t h => (ht t h).1]
    simp [returnSpans, he]
  simp only [List.cons_append, List.append_assoc, List.nil_append, returnSpans, hr, if_true, h₁, h₂]

theorem tallies_statement {ts : List Token} {n : RawNode} (h : MakesStatement Stacks.IsValue ts n) :
    Tallies ts [n] := by
  obtain @⟨r, e, us, v, hr, hv, he⟩ := h
  have hc := hv.conserves
  have hu : ∀ t ∈ us, t.type ≠ .returnWord ∧ t.type ≠ .semicolon ∧ t.type.isTypeName = false := by
    obtain ⟨s, hs, -⟩ := hv
    intro t ht
    rcases hs.type t ht with h | h | h | h | ⟨op, h⟩ <;> simp [h, TokenType.isTypeName]
  have hn : v.returns = [] ∧ v.heads = [] := by
    rcases hv.isExpression with rfl | hx
    · exact ⟨rfl, rfl⟩
    · exact ⟨hx.returns, hx.heads⟩
  have hh : us.filterMap Token.head? = [] :=
    List.filterMap_eq_nil_iff.2 fun t ht => by simp [Token.head?, (hu t ht).2.2]
  refine ⟨?_, ?_, ?_, [(r, us)], fun rest => ?_, ?_⟩
  · simp [hn.2, hh, Token.head?, hr, he, TokenType.isTypeName]
  · simpa [Token.operation?, hr, he, List.filterMap_cons] using hc.operations
  · simp [hn.1]
  · exact returnSpans_statement hr (fun t ht => ⟨(hu t ht).1, (hu t ht).2.1⟩) he rest
  · simp only [List.flatMap_singleton, Node.returns_ret, hn.1]
    exact .cons ⟨v, rfl, hv⟩ .nil

theorem tallies_function {ts : List Token} {n : RawNode} (h : MakesFunction Stacks.IsValue ts n) :
    Tallies ts [n] := by
  obtain @⟨_, _, tss, body, e, @⟨t, n, l, r, b, type, ht, hv, hn, hl, hr, hb⟩, hs, he⟩ := h
  -- of the tokens around the statements only the type keyword counts
  obtain ⟨hh, ho, hlv, spans, hsp, hrt⟩ := tallies_flatten (fun _ _ => tallies_statement) hs
  generalize tss.flatten = us at hh ho hsp ⊢
  obtain ⟨ht₁, ht₂⟩ : t.type ≠ .returnWord ∧ t.operation? = none := by
    cases h : t.type <;> simp_all [TokenType.isTypeName, Token.operation?]
  have hth : t.head? = some (t.location, .text type.keyword) := by simp [Token.head?, ht, hv]
  have hhd : n.head? = none ∧ l.head? = none ∧ r.head? = none ∧ b.head? = none ∧ e.head? = none := by
    simp [Token.head?, TokenType.isTypeName, hn, hl, hr, hb, he]
  have hop : n.operation? = none ∧ l.operation? = none ∧ r.operation? = none ∧ b.operation? = none ∧
      e.operation? = none := by simp [Token.operation?, hn, hl, hr, hb, he]
  refine ⟨?_, ?_, ?_, spans, fun rest => ?_, ?_⟩
  · simp [hth, hhd, hh]
  · simpa [List.filterMap_cons, ht₂, hop] using ho
  · simpa using hlv
  · simpa [returnSpans, ht₁, hn, hl, hr, hb, he] using hsp (e :: rest)
  · simpa using hrt

/-! ## Whole programs -/

/-- Related lists agree in whatever related items agree in. -/
theorem map_eq_map_of_forall₂ {α β γ : Type} {R : α → β → Prop} {f : α → γ} {g : β → γ}
    (hR : ∀ a b, R a b → g b = f a) {as : List α} {bs : List β} (h : List.Forall₂ R as bs) : bs.map g = as.map f := by
  induction h with
  | nil => rfl
  | cons hab _ ih => rw [List.map_cons, List.map_cons, hR _ _ hab, ih]

/-- The `return`s of a program are those of its tokens, each with the value that the stacks make of its span. -/
theorem returned_of_makes {file : String} {ts : List Token} {n : RawNode} (h : Makes Stacks.IsValue file ts n) :
    List.Forall₂ Returned (returnSpans ts) n.returns := by
  obtain ⟨hf⟩ := h
  obtain ⟨spans, hs, hr⟩ := (tallies_flatten (fun _ _ => tallies_function) hf).returns
  have := hs []
  simp only [List.append_nil, returnSpans] at this
  rw [this, Node.returns_program]
  exact hr

/-- A tree that has exactly the parts of tokens, in their order: a function for every type keyword, a `return` for
every `return`, a leaf for every literal and every name of a call, an operation for every operator. -/
structure Conserves (ts : List Token) (n : RawNode) : Prop where
  heads : n.heads.map (fun h => (h.1, Value.text h.2.keyword)) = ts.filterMap Token.head?
  returns : n.returns.map Node.location? = (ts.filter (·.type = .returnWord)).map fun t => some t.location
  leaves : n.leaves = (returnSpans ts).flatMap fun span => span.2.filterMap Token.leaf?
  operations : n.operations.Perm (ts.filterMap Token.operation?)
  values : List.Forall₂ (fun span m => ∃ v, m = .ret span.1.location v ∧ ValueConserves span.2 v) (returnSpans ts)
    n.returns

/-- **A tree and its tokens have the same parts**, whether the tokens keep to the grammar or not. -/
theorem conserves_of_ofTokens {file : String} {lines : List String} {ts : List Token} {n : RawNode}
    (h : RawNode.ofTokens file lines ts = .ok n) : Conserves (properTokens ts) n := by
  have hm := ofTokens_eq_ok_iff.1 h
  have hr := returned_of_makes hm
  generalize properTokens ts = us at hm hr ⊢
  obtain ⟨hf⟩ := hm
  obtain ⟨hh, ho, hl, -⟩ := tallies_flatten (fun _ _ => tallies_function) hf
  refine ⟨by simpa using hh, ?_, ?_, by simpa using ho, hr.imp fun span m hm => ?_⟩
  · rw [← map_fst_returnSpans, List.map_map]
    refine map_eq_map_of_forall₂ (fun span m hm => ?_) hr
    obtain ⟨v, rfl, -⟩ := hm
    rfl
  · rw [Node.leaves_program, hl, ← Node.returns_program ⟨file, 1, 1⟩, List.flatMap_def, List.flatMap_def]
    refine congrArg List.flatten (map_eq_map_of_forall₂ (fun span m hm => ?_) hr)
    obtain ⟨v, rfl, hv⟩ := hm
    rw [Node.leaves_ret]
    exact hv.conserves.leaves
  · obtain ⟨v, rfl, hv⟩ := hm
    exact ⟨v, rfl, hv.conserves⟩

/-- The tokens `1 (2 +)`, which are no expression. -/
def groupedSum : List Token :=
  [⟨.number, .number 1, ⟨"t.c", 2, 1⟩⟩, ⟨.leftParen, .text "(", ⟨"t.c", 2, 3⟩⟩, ⟨.number, .number 2, ⟨"t.c", 2, 4⟩⟩,
    ⟨.operator .add, .text "+", ⟨"t.c", 2, 6⟩⟩, ⟨.rightParen, .text ")", ⟨"t.c", 2, 7⟩⟩]

/-- The operator in parentheses takes an operand from outside of them. -/
theorem conserves_groupedSum : ∃ n, RawNode.ofTokens "t.c" [] (returning groupedSum) = .ok n ∧
    Conserves (properTokens (returning groupedSum)) n :=
  have h : RawNode.ofTokens "t.c" [] (returning groupedSum) =
      .ok (.program ⟨"t.c", 1, 1⟩ [.function ⟨"t.c", 1, 1⟩ (.text "f") .int [.ret ⟨"t.c", 1, 11⟩
        (.binary ⟨"t.c", 2, 6⟩ (some .add) (.number ⟨"t.c", 2, 1⟩ (.number 1))
          (.number ⟨"t.c", 2, 4⟩ (.number 2)))]]) := rfl
  ⟨_, h, conserves_of_ofTokens h⟩

end TinyArm
