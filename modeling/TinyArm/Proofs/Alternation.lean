import TinyArm.Proofs.Grammar

/-!
# Alternation and balance

Two checks make up the flat grammar of expressions: a machine of four states sees that operands and operators take
turns (`Alternates`), and a counter sees that parentheses are balanced (`Balanced`). The machine takes the parentheses
of groups as they come, the counter looks at nothing else.

* `Derives.foldlM`: phrases pass both checks.
* `remains_of_foldlM`: what passes both falls into an expression and, for each open parenthesis, what may follow it.
* `derives_iff`: **the flat grammar is alternation and balance.**
-/

namespace TinyArm.Grammar

/-! ## Balance -/

/-- How many parentheses are open after a token, of `d` before it; none may be closed that was not opened. -/
def nest (d : Nat) (t : Token) : Option Nat :=
  match t.type with
  | .leftParen => some (d + 1)
  | .rightParen => if d = 0 then none else some (d - 1)
  | _ => some d

/-- Whether the parentheses among tokens are balanced. -/
def Balanced (ts : List Token) : Prop := ts.foldlM nest 0 = some 0

instance (ts : List Token) : Decidable (Balanced ts) := inferInstanceAs (Decidable (_ = _))

theorem eq_of_nest {d d' : Nat} {t : Token} (hl : t.type ≠ .leftParen) (hr : t.type ≠ .rightParen)
    (hd : nest d t = some d') : d = d' := by
  unfold nest at hd
  split at hd
  · contradiction
  · contradiction
  · cases hd; rfl

theorem eq_of_nest_leftParen {d d' : Nat} {t : Token} (ht : t.type = .leftParen) (hd : nest d t = some d') :
    d' = d + 1 := by
  simp only [nest, ht, Option.some.injEq] at hd
  exact hd.symm

theorem eq_of_nest_rightParen {d d' : Nat} {t : Token} (ht : t.type = .rightParen) (hd : nest d t = some d') :
    d = d' + 1 := by
  simp only [nest, ht] at hd
  split at hd
  · cases hd
  · cases hd; omega

/-! ## Alternation -/

/-- What may come next in an expression. -/
inductive Turn where
  | operand
  | operator
  /-- The opening parenthesis of a call. -/
  | opening
  /-- The closing parenthesis of a call. -/
  | closing
  deriving DecidableEq

/-- Whose turn it is after a token. Parentheses of groups are taken as they come. -/
def Turn.next : Turn → Token → Option Turn
  | operand, t =>
    match t.type with
    | .number => some operator
    | .identifier => some opening
    | .leftParen => some operand
    | _ => none
  | operator, t =>
    match t.type with
    | .operator _ => some operand
    | .rightParen => some operator
    | _ => none
  | opening, t => if t.type = .leftParen then some closing else none
  | closing, t => if t.type = .rightParen then some operator else none

/-- Whether operands and operators alternate, from an operand to an operand. -/
def Alternates (ts : List Token) : Prop := ts.foldlM Turn.next .operand = some .operator

instance (ts : List Token) : Decidable (Alternates ts) := inferInstanceAs (Decidable (_ = _))

/-- Phrases alternate and leave as many parentheses open as they find. -/
theorem Derives.foldlM {k : Phrase} {ts : List Token} (h : Derives k ts) :
    ts.foldlM Turn.next .operand = some .operator ∧ ∀ d, ts.foldlM nest d = some d := by
  induction h with
  | number ht => simp [Turn.next, nest, ht]
  | call hn hl hr => simp [Turn.next, nest, hn, hl, hr]
  | group hl _ hr ih => simp [Turn.next, nest, hl, hr, List.foldlM_append, ih]
  | single _ ih => exact ih
  | chain _ ho _ iht ihu => simp [Turn.next, nest, ho, List.foldlM_append, iht, ihu]

/-! ## Closing the open parentheses -/

/-- What may follow an operand: nothing, or an operator with an expression. -/
def IsTail (ts : List Token) : Prop :=
  ts = [] ∨ ∃ o op us, ts = o :: us ∧ o.type = .operator op ∧ Derives .expression us

/-- Tokens that close `d` parentheses, with a tail after each. -/
inductive Closes : Nat → List Token → Prop where
  | nil : Closes 0 []
  | cons {d : Nat} {r : Token} {ts us : List Token} : r.type = .rightParen → IsTail ts → Closes d us →
      Closes (d + 1) (r :: (ts ++ us))

theorem derives_append_of_isTail {ts us : List Token} (h : Derives .operand ts) (ht : IsTail us) :
    Derives .expression (ts ++ us) := by
  rcases ht with rfl | ⟨o, op, vs, rfl, ho, hv⟩
  · simpa using h.single
  · exact .chain h ho hv

/-- What remains at each turn when `d` parentheses are open. -/
def Remains (d : Nat) : Turn → List Token → Prop
  | .operand, ts => ∃ us vs, ts = us ++ vs ∧ Derives .expression us ∧ Closes d vs
  | .operator, ts => ∃ us vs, ts = us ++ vs ∧ IsTail us ∧ Closes d vs
  | .opening, ts => ∃ l r us vs, ts = l :: r :: (us ++ vs) ∧ l.type = .leftParen ∧ r.type = .rightParen ∧ IsTail us ∧
      Closes d vs
  | .closing, ts => ∃ r us vs, ts = r :: (us ++ vs) ∧ r.type = .rightParen ∧ IsTail us ∧ Closes (d - 1) vs

/-- All that one token can do to the turn and to the number of open parentheses. -/
inductive Advances : Nat → Turn → Token → Nat → Turn → Prop where
  | number {d : Nat} {t : Token} : t.type = .number → Advances d .operand t d .operator
  | name {d : Nat} {t : Token} : t.type = .identifier → Advances d .operand t d .opening
  | group {d : Nat} {t : Token} : t.type = .leftParen → Advances d .operand t (d + 1) .operand
  | operator {d : Nat} {t : Token} {op : Operator} : t.type = .operator op → Advances d .operator t d .operand
  | close {d : Nat} {t : Token} : t.type = .rightParen → Advances (d + 1) .operator t d .operator
  | opening {d : Nat} {t : Token} : t.type = .leftParen → Advances d .opening t (d + 1) .closing
  | closing {d : Nat} {t : Token} : t.type = .rightParen → Advances (d + 1) .closing t d .operator

theorem advances_of_next {d d' : Nat} {q q' : Turn} {t : Token} (hq : q.next t = some q') (hd : nest d t = some d') :
    Advances d q t d' q' := by
  cases q with
  | operand =>
    simp only [Turn.next] at hq
    split at hq
    · next ht => cases hq; obtain rfl := eq_of_nest (by simp [ht]) (by simp [ht]) hd; exact .number ht
    · next ht => cases hq; obtain rfl := eq_of_nest (by simp [ht]) (by simp [ht]) hd; exact .name ht
    · next ht => cases hq; obtain rfl := eq_of_nest_leftParen ht hd; exact .group ht
    · cases hq
  | operator =>
    simp only [Turn.next] at hq
    split at hq
    · next ht => cases hq; obtain rfl := eq_of_nest (by simp [ht]) (by simp [ht]) hd; exact .operator ht
    · next ht => cases hq; obtain rfl := eq_of_nest_rightParen ht hd; exact .close ht
    · cases hq
  | opening =>
    simp only [Turn.next] at hq
    split at hq
    · next ht => cases hq; obtain rfl := eq_of_nest_leftParen ht hd; exact .opening ht
    · cases hq
  | closing =>
    simp only [Turn.next] at hq
    split at hq
    · next ht => cases hq; obtain rfl := eq_of_nest_rightParen ht hd; exact .closing ht
    · cases hq

/-- **Central invariant**, from right to left: tokens that alternate to the end and close all open parentheses make up
what remains. -/
theorem remains_of_foldlM {ts : List Token} : ∀ {d : Nat} {q : Turn}, ts.foldlM Turn.next q = some .operator →
    ts.foldlM nest d = some 0 → Remains d q ts := by
  induction ts with
  | nil =>
    intro d q hq hd
    simp only [List.foldlM_nil, Option.pure_def, Option.some.injEq] at hq hd
    subst hq hd
    exact ⟨[], [], rfl, .inl rfl, .nil⟩
  | cons t ts ih =>
    intro d q hq hd
    simp only [List.foldlM_cons, Option.bind_eq_bind, Option.bind_eq_some_iff] at hq hd
    obtain ⟨q', hq', hq⟩ := hq
    obtain ⟨d', hd', hd⟩ := hd
    have h := ih hq hd
    -- the token goes in front of what remains after it; a closing one starts a new stretch
    cases advances_of_next hq' hd' with
    | number ht =>
      obtain ⟨us, vs, rfl, hu, hv⟩ := h
      exact ⟨t :: us, vs, rfl, derives_append_of_isTail (.number ht) hu, hv⟩
    | name ht =>
      obtain ⟨l, r, us, vs, rfl, hl, hr, hu, hv⟩ := h
      exact ⟨t :: l :: r :: us, vs, rfl, derives_append_of_isTail (.call ht hl hr) hu, hv⟩
    | group ht =>
      obtain ⟨us, vs, rfl, hu, hv⟩ := h
      cases hv with
      | @cons _ r vs ws hr hv hw =>
        exact ⟨t :: (us ++ [r]) ++ vs, ws, by simp, derives_append_of_isTail (.group ht hu hr) hv, hw⟩
    | operator ht =>
      obtain ⟨us, vs, rfl, hu, hv⟩ := h
      exact ⟨t :: us, vs, rfl, .inr ⟨t, _, us, rfl, ht, hu⟩, hv⟩
    | close ht =>
      obtain ⟨us, vs, rfl, hu, hv⟩ := h
      exact ⟨[], t :: (us ++ vs), rfl, .inl rfl, .cons ht hu hv⟩
    | opening ht =>
      obtain ⟨r, us, vs, rfl, hr, hu, hv⟩ := h
      exact ⟨t, r, us, vs, rfl, ht, hr, hu, hv⟩
    | closing ht =>
      obtain ⟨us, vs, rfl, hu, hv⟩ := h
      exact ⟨t, us, vs, rfl, ht, hu, hv⟩

/-- **The flat grammar is alternation and balance.** -/
theorem derives_iff {ts : List Token} : Derives .expression ts ↔ Alternates ts ∧ Balanced ts := by
  constructor
  · exact fun h => ⟨h.foldlM.1, h.foldlM.2 0⟩
  · rintro ⟨ha, hb⟩
    obtain ⟨us, vs, rfl, hu, hv⟩ := remains_of_foldlM ha hb
    cases hv
    simpa using hu

end TinyArm.Grammar
