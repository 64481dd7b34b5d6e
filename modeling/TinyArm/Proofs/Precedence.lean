import TinyArm.Proofs.Alternation
import TinyArm.Proofs.Reading

/-!
# The reader follows the grammar

Tokens that denote a tree in the grammar of sums, products and factors are read to that tree. The stacks keep some
operators of a phrase pending at its end; what is invariant is that applying those that bind at least as tightly as the
phrase leaves just one more operand, the tree of the phrase (`Denotes.exists_reads`). Whatever comes next applies them
first (`reduceOperators_of_reduce`, `closeGroup_of_reduce`, `applyAll_of_reduce`).

* `isValue_of_grammar`: the value of a `return` by the grammar is its value by the stacks.
* `ofTokens_of_isProgramText`: **every program text is read, to the one tree that it denotes.**
-/

namespace TinyArm

open Grammar

/-! ## Applying the latest operators -/

/-- Whether no operator before the latest open parenthesis binds at least as tightly as `p`. -/
def Loose (p : Nat) : List Pending → Prop
  | .operator _ op :: _ => op.precedence < p
  | _ => True

theorem Loose.mono {p q : Nat} (hpq : p ≤ q) {pending : List Pending} (h : Loose p pending) : Loose q pending := by
  match pending, h with
  | [], _ => trivial
  | .group _ :: _, _ => trivial
  | .operator _ op :: _, h => exact Nat.lt_of_lt_of_le h hpq

theorem reduceOperators_of_loose {p : Nat} {pending : List Pending} (h : Loose p pending) (operands : List RawNode) :
    reduceOperators p operands pending = .ok ⟨operands, pending⟩ := by
  match pending, h with
  | [], _ => simp [reduceOperators]
  | .group _ :: _, _ => simp [reduceOperators]
  | .operator _ op :: _, h =>
    have hn : ¬p ≤ op.precedence := Nat.not_le.2 h
    simp [reduceOperators, hn]

theorem reduceOperators_operator {p : Nat} {op : Operator} (h : p ≤ op.precedence) (loc : Location)
    (left right : RawNode) (operands : List RawNode) (pending : List Pending) :
    reduceOperators p (right :: left :: operands) (.operator loc op :: pending) =
      reduceOperators p (.binary loc (some op) left right :: operands) pending := by
  simp [reduceOperators, h, applyOperator]

/-- **Induction over applied operators**: what holds once they are applied, and held before each of them if it holds
after it, held at the start. -/
theorem of_reduceOperators {P : List RawNode → List Pending → Prop} {p : Nat}
    (hP : ∀ operands loc op pending operands', p ≤ op.precedence → applyOperator loc op operands = .ok operands' →
      P operands' pending → P operands (.operator loc op :: pending))
    {operands : List RawNode} {pending : List Pending} {s : Stacks}
    (h : reduceOperators p operands pending = .ok s) (hs : P s.operands s.pending) : P operands pending := by
  fun_induction reduceOperators p operands pending with
  | case1 operands loc op pending hp operands' ha ih => exact hP _ _ _ _ _ hp ha (ih h)
  | case2 => cases h
  | case3 => cases h; exact hs
  | case4 => cases h; exact hs

/-- Whatever starts by applying the latest operators comes to the same if some of them are applied beforehand. -/
theorem eq_of_reduceOperators {α : Type} {f : List RawNode → List Pending → α} {p : Nat}
    (hf : ∀ operands loc op pending operands', p ≤ op.precedence → applyOperator loc op operands = .ok operands' →
      f operands (.operator loc op :: pending) = f operands' pending)
    {operands : List RawNode} {pending : List Pending} {s : Stacks}
    (h : reduceOperators p operands pending = .ok s) : f operands pending = f s.operands s.pending :=
  of_reduceOperators (P := fun o q => f o q = f s.operands s.pending)
    (fun _ _ _ _ _ hp ha e => (hf _ _ _ _ _ hp ha).trans e) h rfl

/-- Operators that bind tighter may be applied first. -/
theorem reduceOperators_of_reduce {p q : Nat} (hpq : p ≤ q) {operands : List RawNode} {pending : List Pending}
    {s : Stacks} (h : reduceOperators q operands pending = .ok s) :
    reduceOperators p operands pending = reduceOperators p s.operands s.pending :=
  eq_of_reduceOperators (fun _ _ _ _ _ hq ha => by simp [reduceOperators, Nat.le_trans hpq hq, ha]) h

theorem closeGroup_of_reduce {p : Nat} {operands : List RawNode} {pending : List Pending} {s : Stacks}
    (h : reduceOperators p operands pending = .ok s) (loc : Location) :
    closeGroup loc operands pending = closeGroup loc s.operands s.pending :=
  eq_of_reduceOperators (fun _ _ _ _ _ _ ha => by simp [closeGroup, ha]) h

theorem applyAll_of_reduce {p : Nat} {operands : List RawNode} {pending : List Pending} {s : Stacks}
    (h : reduceOperators p operands pending = .ok s) : applyAll operands pending = applyAll s.operands s.pending :=
  eq_of_reduceOperators (fun _ _ _ _ _ _ ha => by simp [applyAll, ha]) h

/-! ## Phrases on the stacks -/

/-- How tightly the operators of a tier bind at least. -/
def Grammar.Tier.precedence : Tier → Nat
  | .sum => 1
  | .product => 2
  | .factor => 3

theorem loose_factor (pending : List Pending) : Loose Tier.factor.precedence pending := by
  match pending with
  | [] => trivial
  | .group _ :: _ => trivial
  | .operator _ op :: _ =>
    show op.precedence < 3
    cases op <;> decide

/-- An operator between two phrases on the stacks: `p` is how tightly it binds, `k` the tier of the phrase after it. -/
theorem exists_reads_binary {p : Nat} {k : Tier} (hk : k.precedence = p + 1) {o : Token} {op : Operator}
    (ho : o.type = .operator op) (hp : op.precedence = p) {ts us : List Token} {v w : RawNode} {s : Stacks}
    (hs : Loose p s.pending)
    (hv : ∃ s₁, s.Reads ts s₁ ∧ reduceOperators p s₁.operands s₁.pending = .ok (s.operand v))
    (hw : ∀ s' : Stacks, Loose k.precedence s'.pending →
      ∃ s₁, s'.Reads us s₁ ∧ reduceOperators k.precedence s₁.operands s₁.pending = .ok (s'.operand w)) :
    ∃ s₁, s.Reads (ts ++ o :: us) s₁ ∧
      reduceOperators p s₁.operands s₁.pending = .ok (s.operand (.binary o.location (some op) v w)) := by
  obtain ⟨s₁, h₁, e₁⟩ := hv
  -- the operator applies what binds at least as tightly before it is pushed: that leaves just `v` on top of `s`
  let s₂ : Stacks := ⟨v :: s.operands, .operator o.location op :: s.pending⟩
  have hop : s₁.operator o.location op = .ok s₂ := by simp [Stacks.operator, hp, e₁, Stacks.operand, s₂]
  have hl : Loose k.precedence s₂.pending := by simp only [s₂, Loose]; omega
  obtain ⟨s₃, h₃, e₃⟩ := hw s₂ hl
  refine ⟨s₃, h₁.trans (.operator ho hop h₃), ?_⟩
  -- after the right operand, the operator itself is the last that binds as tightly as `p`
  rw [reduceOperators_of_reduce (by omega) e₃]
  simp only [Stacks.operand, s₂]
  rw [reduceOperators_operator (by omega), reduceOperators_of_loose hs]

/-- **Central invariant**: a phrase is read to stacks on which, once the operators that bind at least as tightly as its
tier are applied, its tree is one more operand. -/
theorem Grammar.Denotes.exists_reads {k : Tier} {ts : List Token} {v : RawNode} (h : Denotes k ts v) :
    ∀ s : Stacks, Loose k.precedence s.pending →
      ∃ s₁, s.Reads ts s₁ ∧ reduceOperators k.precedence s₁.operands s₁.pending = .ok (s.operand v) := by
  induction h with
  | number ht => exact fun s hs => ⟨_, .number ht (.nil _), reduceOperators_of_loose hs _⟩
  | call hn hl hr => exact fun s hs => ⟨_, .call hn hl hr (.nil _), reduceOperators_of_loose hs _⟩
  | @group l r ts v hl _ hr ih =>
    intro s hs
    obtain ⟨s₁, h₁, e₁⟩ := ih (s.group l.location) trivial
    -- the open parenthesis hides whatever is pending before it, so `s` may be anything
    have hc : s₁.close r.location = .ok (s.operand v) := by
      rw [Stacks.close, closeGroup_of_reduce e₁]
      rfl
    exact ⟨s.operand v, .group hl (h₁.trans (.close hr hc (.nil _))), reduceOperators_of_loose hs _⟩
  | product _ ih =>
    intro s hs
    obtain ⟨s₁, h₁, e₁⟩ := ih s (loose_factor _)
    exact ⟨s₁, h₁, by rw [reduceOperators_of_reduce (by decide) e₁]; exact reduceOperators_of_loose hs _⟩
  | sum _ ih =>
    intro s hs
    obtain ⟨s₁, h₁, e₁⟩ := ih s (hs.mono (by decide))
    exact ⟨s₁, h₁, by rw [reduceOperators_of_reduce (by decide) e₁]; exact reduceOperators_of_loose hs _⟩
  | multiplicative _ ho hop _ ihv ihw =>
    intro s hs
    exact exists_reads_binary rfl ho (by rcases hop with rfl | rfl <;> rfl) hs (ihv s hs) ihw
  | additive _ ho hop _ ihv ihw =>
    intro s hs
    exact exists_reads_binary rfl ho (by rcases hop with rfl | rfl <;> rfl) hs (ihv s hs) ihw

/-! ## Whole programs -/

/-- **The value by the grammar is the value by the stacks.** -/
theorem isValue_of_grammar {ts : List Token} {v : RawNode} (h : Grammar.IsValue ts v) : Stacks.IsValue ts v := by
  rcases h with ⟨rfl, rfl⟩ | h
  · exact ⟨.empty, .nil _, rfl⟩
  · obtain ⟨s, hs, e⟩ := h.exists_reads .empty trivial
    refine ⟨s, hs, ?_⟩
    rw [Stacks.finish, applyAll_of_reduce e]
    rfl

/-- A layout by the grammar is what the reader finds. -/
theorem ofTokens_of_makes {file : String} {ts : List Token} {n : RawNode}
    (h : Makes Grammar.IsValue file (properTokens ts) n) (lines : List String) :
    RawNode.ofTokens file lines ts = .ok n :=
  ofTokens_eq_ok_iff.2 (h.mono fun _ _ => isValue_of_grammar)

/-- **Every program text is read, to the one tree that it denotes.** -/
theorem ofTokens_of_isProgramText {ts : List Token} (h : IsProgramText (properTokens ts)) (file : String)
    (lines : List String) : ∃ n, Makes Grammar.IsValue file (properTokens ts) n ∧
      (∀ m, Makes Grammar.IsValue file (properTokens ts) m → m = n) ∧ RawNode.ofTokens file lines ts = .ok n := by
  obtain ⟨n, hn⟩ := h.exists_makes file
  have hr := ofTokens_of_makes hn lines
  refine ⟨n, hn, fun m hm => ?_, hr⟩
  have := (ofTokens_of_makes hm lines).symm.trans hr
  exact Except.ok.inj this

/-- The tokens `1 - g() * (2 - 3)`. -/
def differenceOfProduct : List Token :=
  [⟨.number, .number 1, ⟨"t.c", 2, 1⟩⟩, ⟨.operator .subtract, .text "-", ⟨"t.c", 2, 3⟩⟩,
    ⟨.identifier, .text "g", ⟨"t.c", 2, 5⟩⟩, ⟨.leftParen, .text "(", ⟨"t.c", 2, 6⟩⟩,
    ⟨.rightParen, .text ")", ⟨"t.c", 2, 7⟩⟩, ⟨.operator .multiply, .text "*", ⟨"t.c", 2, 9⟩⟩,
    ⟨.leftParen, .text "(", ⟨"t.c", 2, 11⟩⟩, ⟨.number, .number 2, ⟨"t.c", 2, 12⟩⟩,
    ⟨.operator .subtract, .text "-", ⟨"t.c", 2, 14⟩⟩, ⟨.number, .number 3, ⟨"t.c", 2, 16⟩⟩,
    ⟨.rightParen, .text ")", ⟨"t.c", 2, 17⟩⟩]

theorem ofTokens_differenceOfProduct : IsProgramText (properTokens (returning differenceOfProduct)) ∧
    ∃ n, Makes Grammar.IsValue "t.c" (properTokens (returning differenceOfProduct)) n ∧
      (∀ m, Makes Grammar.IsValue "t.c" (properTokens (returning differenceOfProduct)) m → m = n) ∧
      RawNode.ofTokens "t.c" [] (returning differenceOfProduct) = .ok n := by
  have hd : Derives .expression differenceOfProduct := by
    rw [derives_iff]
    decide
  have hp : properTokens (returning differenceOfProduct) = returning differenceOfProduct := by decide
  have h : IsProgramText (properTokens (returning differenceOfProduct)) := hp ▸ isProgramText_returning hd
  exact ⟨h, ofTokens_of_isProgramText h "t.c" []⟩

end TinyArm
