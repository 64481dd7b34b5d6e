import Mathlib.Data.List.Basic
import TinyArm.Node.Descent
import TinyArm.Proofs.Reading

/-!
# The descent and the reader

Reading by descent and reading one token at a time come to the same. A list of tokens is taken up to its first
end-of-input token (`EndsAt`). `Reader.onward` says where a reader comes to from a place on, and `Descent.Follows` that a
descent goes there with it: when the descent has a result, the reader stands at the same place, in a state that fits the
result; when the tokens are refused, the reader refuses them there too. Nothing else happens to a descent: it looks at
no place behind the end of input, and on every turn of its loops it takes a token.

* `Follows.bind`, `follows_loop`: descents after each other, and loops.
* `follows_term`, `follows_statement`, `follows_function`: one lemma for each form.
* `program_eq_onward`: **a descent comes to what the reader comes to**, with its cursor at the same place.
-/

namespace TinyArm

/-! ## Lists with an end -/

/-- A list of tokens with its first end-of-input token, and those before it. -/
structure EndsAt (ts us : List Token) (eof : Token) : Prop where
  split : ∃ rest, ts = us ++ eof :: rest
  proper : ∀ t ∈ us, t.type ≠ .eof
  type : eof.type = .eof

namespace EndsAt

variable {ts us : List Token} {eof : Token} {p : Nat}

theorem length_lt (h : EndsAt ts us eof) : us.length < ts.length := by
  obtain ⟨rest, rfl⟩ := h.split
  simp

/-- A token before the end stands at its place in the list. -/
theorem getElem?_eq (h : EndsAt ts us eof) {t : Token} (ht : us[p]? = some t) : ts[p]? = some t := by
  obtain ⟨rest, rfl⟩ := h.split
  rw [List.getElem?_append_left (List.getElem?_eq_some_iff.1 ht).1, ht]

theorem type_ne (h : EndsAt ts us eof) {t : Token} (ht : us[p]? = some t) : t.type ≠ .eof :=
  h.proper t (List.mem_of_getElem? ht)

/-- At a place up to the end there is a token: one that can be taken, or the end of input. -/
theorem token_cases (h : EndsAt ts us eof) (hp : p ≤ us.length) :
    (∃ t, us[p]? = some t) ∨ p = us.length ∧ ts[p]? = some eof := by
  rcases Nat.lt_or_eq_of_le hp with hl | rfl
  · exact .inl ⟨us[p], List.getElem?_eq_getElem hl⟩
  · obtain ⟨rest, rfl⟩ := h.split
    exact .inr ⟨rfl, by simp⟩

end EndsAt

/-! ## The reader from a place on -/

namespace Reader

/-- Where a reader comes to that has read the tokens before the `p`-th: what comes of the program, and how many tokens
are taken then. -/
def onward (us : List Token) (eof : Token) (m : Reader) (p : Nat) : Except Refusal (List RawNode) × Nat :=
  match m.run (us.drop p) with
  | .error h => (.error h.refusal, us.length - h.rest.length)
  | .ok m' => (m'.finish eof, us.length)

variable {us : List Token} {eof t : Token} {m m' : Reader} {p : Nat}

theorem onward_length : m.onward us eof us.length = (m.finish eof, us.length) := by
  simp [onward, run]

theorem onward_of_step (ht : us[p]? = some t) (h : m.step t = .ok m') : m.onward us eof p = m'.onward us eof (p + 1) := by
  obtain ⟨hp, rfl⟩ := List.getElem?_eq_some_iff.1 ht
  rw [onward, onward, List.drop_eq_getElem_cons hp, run_cons h]

theorem onward_of_stop {s : Stop} (ht : us[p]? = some t) (h : m.step t = .error s) :
    m.onward us eof p = (.error s.refusal, if s.taken then p + 1 else p) := by
  obtain ⟨hp, rfl⟩ := List.getElem?_eq_some_iff.1 ht
  rw [onward, List.drop_eq_getElem_cons hp]
  simp only [run, h]
  cases s.taken <;> simp <;> omega

/-- No token behind the end of input is taken. -/
theorem onward_snd_le : (m.onward us eof p).2 ≤ us.length := by
  rw [onward]
  split
  · exact Nat.sub_le ..
  · exact Nat.le_refl _

/-! ### Waiting for one token -/

theorem step_wait_error {fs : List RawNode} {q : State} {k : TokenType} {f : Token → State}
    (hq : q.wait? = some (k, f)) (ht : t.type ≠ k) :
    step ⟨fs, q⟩ t = .error (unexpected t q.expected) := by
  cases q <;> simp only [State.wait?, Option.some.injEq, Prod.mk.injEq, reduceCtorEq] at hq
  all_goals
    obtain ⟨rfl, -⟩ := hq
    simp only [step]
    rw [if_neg ht]

theorem finish_wait {fs : List RawNode} {q : State} {k : TokenType} {f : Token → State} (hq : q.wait? = some (k, f)) :
    finish ⟨fs, q⟩ eof = .error (.diagnosed (.endOfInput q.expected) eof.location) := by
  cases q <;> first | rfl | cases hq

theorem ne_eof_of_wait {q : State} {k : TokenType} {f : Token → State} (hq : q.wait? = some (k, f)) : k ≠ .eof := by
  cases q <;> cases hq <;> decide

end Reader

namespace Descent

variable {α β σ ρ : Type} {ts us : List Token} {eof t : Token} {m : Reader} {p : Nat}

/-! ## Following -/

/-- A descent from the place `p` on goes where the reader `m` goes: with a result the reader stands where the cursor is,
and `Q` holds of the result, that reader and the cursor; with a refusal the reader has come to the same. -/
def Follows (us : List Token) (eof : Token) (m : Reader) (p : Nat) (Q : α → Reader → Nat → Prop) :
    EStateM.Result Stop Nat α → Prop
  | .ok a p' => p ≤ p' ∧ p' ≤ us.length ∧ ∃ m', m.onward us eof p = m'.onward us eof p' ∧ Q a m' p'
  | .error (.refused r) p' => m.onward us eof p = (.error r, p')
  | .error .outside _ | .error .idle _ => False

variable {Q : α → Reader → Nat → Prop} {R : β → Reader → Nat → Prop}

theorem follows_ok {a : α} (hp : p ≤ us.length) (h : Q a m p) : Follows us eof m p Q (.ok a p) :=
  ⟨Nat.le_refl p, hp, m, rfl, h⟩

/-- A token that the reader takes. -/
theorem follows_taken {m' : Reader} {a : α} (hu : us[p]? = some t) (hs : m.step t = .ok m') (h : Q a m' (p + 1)) :
    Follows us eof m p Q (.ok a (p + 1)) :=
  ⟨Nat.le_succ p, (List.getElem?_eq_some_iff.1 hu).1, m', Reader.onward_of_step hu hs, h⟩

/-- The reader has come from `m` to `m'` meanwhile. -/
theorem Follows.of_onward {m' : Reader} {p' : Nat} {r : EStateM.Result Stop Nat α} (h : Follows us eof m' p' Q r)
    (hm : m.onward us eof p = m'.onward us eof p') (hp : p ≤ p') : Follows us eof m p Q r := by
  match r, h with
  | .ok a q, ⟨hq, hl, m₁, ho, h⟩ => exact ⟨Nat.le_trans hp hq, hl, m₁, hm.trans ho, h⟩
  | .error (.refused e) q, h => exact hm.trans h

/-- A descent after a descent. -/
theorem Follows.bind {x : Descent α} {f : α → Descent β} (hx : Follows us eof m p Q (x p))
    (hf : ∀ a m' p', p ≤ p' → p' ≤ us.length → Q a m' p' → Follows us eof m' p' R (f a p')) :
    Follows us eof m p R ((x >>= f) p) := by
  show Follows us eof m p R (EStateM.bind x f p)
  rw [EStateM.bind]
  generalize x p = r at hx
  match r, hx with
  | .ok a q, ⟨hp, hl, m₁, ho, h⟩ => exact (hf a m₁ q hp hl h).of_onward ho hp
  | .error (.refused e) q, h => exact h

/-! ## Tokens -/

theorem bind_of_ok {x : Descent α} {a : α} {p' : Nat} (h : x p = .ok a p') (f : α → Descent β) :
    (x >>= f) p = f a p' := by
  show EStateM.bind x f p = _
  rw [EStateM.bind, h]

theorem peek_bind (ht : ts[p]? = some t) (f : Token → Descent α) : (peek ts >>= f) p = f t p :=
  bind_of_ok (by rw [peek, ht]) f

theorem advance_eq (ht : ts[p]? = some t) (hn : t.type ≠ .eof) : advance ts p = .ok t (p + 1) := by
  rw [advance, peek_bind ht, if_pos hn]
  rfl

theorem advance_bind (ht : ts[p]? = some t) (hn : t.type ≠ .eof) (f : Token → Descent α) :
    (advance ts >>= f) p = f t (p + 1) :=
  bind_of_ok (advance_eq ht hn) f

/-- A token that is refused where something else is expected. -/
theorem unexpected_eq (ht : ts[p]? = some t) (hn : t.type ≠ .eof) (expected : String) :
    (unexpected ts expected p : EStateM.Result Stop Nat α) =
      .error (.refused (Reader.unexpected t expected).refusal) p := by
  rw [unexpected, peek_bind ht, if_neg hn]
  rfl

/-- An end of input that is refused where something else is expected. -/
theorem unexpected_eof (ht : ts[p]? = some t) (hn : t.type = .eof) (expected : String) :
    (unexpected ts expected p : EStateM.Result Stop Nat α) =
      .error (.refused (.diagnosed (.endOfInput expected) t.location)) p := by
  rw [unexpected, peek_bind ht, if_pos hn]
  rfl

theorem expect_of_eq {type : TokenType} (ht : ts[p]? = some t) (hn : t.type ≠ .eof) (h : t.type = type)
    (expected : String) : expect ts type expected p = .ok t (p + 1) := by
  rw [expect, peek_bind ht, if_pos h, advance_eq ht hn]

theorem expect_bind {type : TokenType} (ht : ts[p]? = some t) (hn : t.type ≠ .eof) (h : t.type = type)
    (expected : String) (f : Token → Descent α) : (expect ts type expected >>= f) p = f t (p + 1) :=
  bind_of_ok (expect_of_eq ht hn h expected) f

theorem expect_of_ne {type : TokenType} (ht : ts[p]? = some t) (h : t.type ≠ type) (expected : String) :
    expect ts type expected p = unexpected ts expected p := by
  rw [expect, peek_bind ht, if_neg h]

/-- A result, or a refusal of the token that has just been taken or is still at hand. -/
theorem follows_ofExcept {e : Except Refusal α} (hp : p ≤ us.length) (ho : ∀ a, e = .ok a → Q a m p)
    (he : ∀ r, e = .error r → m.onward us eof p = (.error r, p)) : Follows us eof m p Q (ofExcept e p) := by
  cases e with
  | ok a => exact follows_ok hp (ho a rfl)
  | error r => exact he r rfl

/-! ## Waiting for one token -/

open Reader (State)

/-- A token that a state waits for is taken, and any other refused. -/
theorem follows_expect (he : EndsAt ts us eof) (hp : p ≤ us.length) {fs : List RawNode} {q : State} {k : TokenType}
    {f : Token → State} (hq : q.wait? = some (k, f)) :
    Follows us eof ⟨fs, q⟩ p (fun t m' p' => m' = ⟨fs, f t⟩ ∧ p < p') (expect ts k q.expected p) := by
  rcases he.token_cases hp with ⟨t, hu⟩ | ⟨rfl, ht⟩
  · have ht := he.getElem?_eq hu
    by_cases hk : t.type = k
    · rw [expect_of_eq ht (he.type_ne hu) hk]
      exact follows_taken hu ((Reader.step_wait_iff hq).2 ⟨hk, rfl⟩) ⟨rfl, Nat.lt_succ_self p⟩
    · rw [expect_of_ne ht hk, unexpected_eq ht (he.type_ne hu)]
      exact Reader.onward_of_stop hu (Reader.step_wait_error hq hk)
  · rw [expect_of_ne ht (he.type ▸ (Reader.ne_eof_of_wait hq).symm), unexpected_eof ht he.type]
    exact Reader.onward_length.trans (congrArg (·, _) (Reader.finish_wait hq))

/-! ## Loops -/

/-- What a turn of a loop comes to that starts at the place `p`: it has taken a token and the reader is the one that the
next turn starts with, or the loop is over and `Q` holds. -/
def Turned (I : σ → Reader) (p : Nat) (Q : ρ → Reader → Nat → Prop) : σ ⊕ ρ → Reader → Nat → Prop
  | .inl s, m', p' => m' = I s ∧ p < p'
  | .inr r, m', p' => Q r m' p'

/-- A loop follows the reader from turn to turn. -/
theorem follows_loop (he : EndsAt ts us eof) {turn : σ → Descent (σ ⊕ ρ)} {I : σ → Reader} {Q : ρ → Reader → Nat → Prop}
    (ht : ∀ s p, p ≤ us.length → Follows us eof (I s) p (Turned I p Q) (turn s p)) (s : σ) (hp : p ≤ us.length) :
    Follows us eof (I s) p Q (loop ts turn s p) := by
  -- every turn leaves fewer tokens before the end of input
  induction hn : us.length - p using Nat.strongRecOn generalizing s p with
  | _ n ih =>
    have h := ht s p hp
    rw [loop]
    generalize turn s p = r at h
    match r, h with
    | .ok (.inr a) q, h => exact h
    | .error (.refused e) q, h => exact h
    | .ok (.inl s') q, ⟨hq, hl, _, ho, hm, hlt⟩ =>
      subst hm
      simp only [if_pos (And.intro hlt (Nat.le_trans hl (Nat.le_of_lt he.length_lt)))]
      exact (ih _ (by omega) s' hl rfl).of_onward ho hq

/-! ## Expressions -/

/-- Whether a token can be part of an expression. -/
def isPart : TokenType → Bool
  | .number | .identifier | .leftParen | .rightParen | .operator _ => true
  | _ => false

/-- The reader in an expression. -/
def inValue (fs : List RawNode) (r : Returning) (s : Stacks) : Reader := ⟨fs, .value { r with parts := s }⟩

variable {fs : List RawNode} {r : Returning}

theorem stepValue_of_not_isPart (ht : isPart t.type = false) :
    Reader.stepValue r t = match r.parts.finish with
      | .error e => .error ⟨e, false⟩
      | .ok value =>
        if t.type = .semicolon then .ok (.body r.header (.ret r.loc value :: r.done))
        else .error (Reader.unexpected t (State.value r).expected) := by
  rw [Reader.stepValue]
  cases h : t.type with
  | number | identifier | leftParen | rightParen | operator => rw [h] at ht; cases ht
  | _ => rfl

/-- A call in an expression. -/
theorem follows_call (he : EndsAt ts us eof) (s : Stacks) (hu : us[p]? = some t) (hi : t.type = .identifier) :
    Follows us eof (inValue fs r s) p (fun n m' p' => m' = inValue fs r (s.operand n) ∧ p < p') (call ts p) := by
  have hs : Reader.step (inValue fs r s) t = .ok ⟨fs, .callee { r with parts := s } t⟩ := by
    simp [Reader.step, Reader.stepValue, inValue, hi, Except.map]
  rw [call, advance_bind (he.getElem?_eq hu) (he.type_ne hu)]
  refine Follows.of_onward ?_ (Reader.onward_of_step hu hs) (Nat.le_succ p)
  refine (follows_expect he (List.getElem?_eq_some_iff.1 hu).1 rfl).bind ?_
  rintro _ _ p₁ h₁ hl₁ ⟨rfl, -⟩
  refine (follows_expect he hl₁ rfl).bind ?_
  rintro _ _ p₂ h₂ hl₂ ⟨rfl, -⟩
  exact follows_ok hl₂ ⟨rfl, by omega⟩

/-- What an expression has come to where its tokens end. -/
def Ended (ts : List Token) (fs : List RawNode) (r : Returning) (s : Stacks) (m : Reader) (p : Nat) : Prop :=
  m = inValue fs r s ∧ ∃ t, ts[p]? = some t ∧ isPart t.type = false

/-- A part of an expression that is one token, which the stacks may refuse when it has been taken. -/
theorem follows_part (he : EndsAt ts us eof) (hu : us[p]? = some t) {s : Stacks} {e : Except Refusal Stacks}
    (hs : Reader.step (inValue fs r s) t = match e with
      | .ok s => .ok (inValue fs r s)
      | .error e => .error ⟨e, true⟩) :
    Follows us eof (inValue fs r s) p (Turned (inValue fs r) p (Ended ts fs r))
      ((advance ts >>= fun _ => ofExcept e >>= fun s => pure (.inl s) : Descent (Stacks ⊕ Stacks)) p) := by
  rw [advance_bind (he.getElem?_eq hu) (he.type_ne hu)]
  cases e with
  | ok s' => exact follows_taken hu hs ⟨rfl, Nat.lt_succ_self p⟩
  | error e => exact Reader.onward_of_stop hu hs

/-- A turn of an expression takes one part of it, or stands at a token that is none. -/
theorem follows_term (he : EndsAt ts us eof) (s : Stacks) (hp : p ≤ us.length) :
    Follows us eof (inValue fs r s) p (Turned (inValue fs r) p (Ended ts fs r)) (term ts s p) := by
  rcases he.token_cases hp with ⟨t, hu⟩ | ⟨rfl, ht⟩
  · have ht := he.getElem?_eq hu
    rw [term, peek_bind ht]
    cases hk : t.type with
    | number =>
      refine follows_part (e := .ok _) he hu ?_
      simp only [Reader.step, Reader.stepValue, inValue, hk, Except.map]
    | leftParen =>
      refine follows_part (e := .ok _) he hu ?_
      simp only [Reader.step, Reader.stepValue, inValue, hk, Except.map]
    | rightParen =>
      refine follows_part (e := s.close t.location) he hu ?_
      simp only [Reader.step, Reader.stepValue, inValue, hk, Except.map]
      cases s.close t.location <;> rfl
    | operator op =>
      refine follows_part (e := s.operator t.location op) he hu ?_
      simp only [Reader.step, Reader.stepValue, inValue, hk, Except.map]
      cases s.operator t.location op <;> rfl
    | identifier =>
      refine (follows_call he s hu hk).bind ?_
      rintro n _ p' h hl' ⟨rfl, hlt⟩
      exact follows_ok hl' ⟨rfl, hlt⟩
    | _ => exact follows_ok hp ⟨rfl, t, ht, by rw [hk]; rfl⟩
  · rw [term, peek_bind ht, he.type]
    exact follows_ok (Nat.le_refl _) ⟨rfl, eof, ht, by rw [he.type]; rfl⟩

/-- An expression ends where its tokens do; what the stacks refuse then is refused at the token that is no part of it. -/
theorem follows_expression (he : EndsAt ts us eof) (hp : p ≤ us.length) :
    Follows us eof (inValue fs r .empty) p (fun v m' p' => ∃ s, Ended ts fs r s m' p' ∧ s.finish = .ok v)
      (expression ts p) := by
  refine (follows_loop he (fun s p hp => follows_term he s hp) .empty hp).bind ?_
  rintro s _ p' - hl ⟨rfl, t, ht, hk⟩
  refine follows_ofExcept hl (fun v hv => ⟨s, ⟨rfl, t, ht, hk⟩, hv⟩) fun e hf => ?_
  rcases he.token_cases hl with ⟨t', hu⟩ | ⟨rfl, -⟩
  · cases ht.symm.trans (he.getElem?_eq hu)
    refine Reader.onward_of_stop (s := ⟨e, false⟩) hu ?_
    simp only [Reader.step, inValue, stepValue_of_not_isPart hk, hf, Except.map]
  · rw [Reader.onward_length]
    simp only [Reader.finish, inValue, hf]

/-! ## Statements -/

/-- The reader between the statements of a function. -/
def inBody (fs : List RawNode) (hd : Header) (done : List RawNode) : Reader := ⟨fs, .body hd done⟩

variable {hd : Header}

/-- The semicolon of a `return`. -/
theorem follows_semicolon (he : EndsAt ts us eof) (hp : p ≤ us.length) {s : Stacks} {v : RawNode}
    (h : Ended ts fs r s m p) (hv : s.finish = .ok v) :
    Follows us eof m p (fun _ m' p' => m' = inBody fs r.header (.ret r.loc v :: r.done) ∧ p < p')
      (expect ts .semicolon "';'" p) := by
  obtain ⟨rfl, t, ht, hk⟩ := h
  rcases he.token_cases hp with ⟨t', hu⟩ | ⟨rfl, ht'⟩
  · cases ht.symm.trans (he.getElem?_eq hu)
    have hs : Reader.step (inValue fs r s) t =
        if t.type = .semicolon then .ok (inBody fs r.header (.ret r.loc v :: r.done))
        else .error (Reader.unexpected t "';'") := by
      simp only [Reader.step, inValue, stepValue_of_not_isPart hk, hv]
      split <;> rfl
    by_cases hc : t.type = .semicolon
    · rw [expect_of_eq ht (he.type_ne hu) hc]
      exact follows_taken hu (hs.trans (if_pos hc)) ⟨rfl, Nat.lt_succ_self p⟩
    · rw [expect_of_ne ht hc, unexpected_eq ht (he.type_ne hu)]
      exact Reader.onward_of_stop hu (hs.trans (if_neg hc))
  · rw [expect_of_ne ht' (by rw [he.type]; decide), unexpected_eof ht' he.type]
    refine Reader.onward_length.trans ?_
    simp only [Reader.finish, inValue, hv]
    rfl

theorem follows_returnStatement (he : EndsAt ts us eof) (done : List RawNode) (hu : us[p]? = some t)
    (hr : t.type = .returnWord) :
    Follows us eof (inBody fs hd done) p (fun n m' p' => m' = inBody fs hd (n :: done) ∧ p < p')
      (returnStatement ts p) := by
  have hp : p + 1 ≤ us.length := (List.getElem?_eq_some_iff.1 hu).1
  have hs : Reader.step (inBody fs hd done) t = .ok (inValue fs ⟨hd, done, t.location, .empty⟩ .empty) := by
    simp only [Reader.step, inBody, inValue, hr]
  rw [returnStatement, expect_bind (he.getElem?_eq hu) (he.type_ne hu) hr]
  refine Follows.of_onward ?_ (Reader.onward_of_step hu hs) (Nat.le_succ p)
  obtain ⟨t₁, ht₁⟩ : ∃ t₁, ts[p + 1]? = some t₁ :=
    ⟨_, List.getElem?_eq_getElem (Nat.lt_of_le_of_lt hp he.length_lt)⟩
  rw [peek_bind ht₁]
  by_cases hc : t₁.type = .semicolon
  · -- an expression of no tokens ends at the semicolon too
    have hx : Ended ts fs ⟨hd, done, t.location, .empty⟩ .empty
        (inValue fs ⟨hd, done, t.location, .empty⟩ .empty) (p + 1) := ⟨rfl, t₁, ht₁, by rw [hc]; rfl⟩
    have hf := follows_semicolon (v := .absent) he hp hx rfl
    rw [expect, peek_bind ht₁, if_pos hc] at hf
    rw [if_pos hc]
    refine hf.bind ?_
    rintro _ _ p' h hl ⟨rfl, hlt⟩
    exact follows_ok hl ⟨rfl, by omega⟩
  · rw [if_neg hc]
    refine (follows_expression he hp).bind ?_
    rintro v _ p₂ h₂ hl₂ ⟨s, hx, hv⟩
    refine (follows_semicolon he hl₂ hx hv).bind ?_
    rintro _ _ p₃ h₃ hl₃ ⟨rfl, hlt⟩
    exact follows_ok hl₃ ⟨rfl, by omega⟩

theorem follows_statement (he : EndsAt ts us eof) (done : List RawNode) (hp : p ≤ us.length)
    (hb : ∀ t, us[p]? = some t → t.type ≠ .rightBrace) :
    Follows us eof (inBody fs hd done) p (fun n m' p' => m' = inBody fs hd (n :: done) ∧ p < p')
      (statement ts p) := by
  rcases he.token_cases hp with ⟨t, hu⟩ | ⟨rfl, ht⟩
  · rw [statement, peek_bind (he.getElem?_eq hu)]
    cases hk : t.type with
    | returnWord => exact follows_returnStatement he done hu hk
    | eof => exact absurd hk (he.type_ne hu)
    | rightBrace => exact absurd hk (hb t hu)
    | _ =>
      refine Reader.onward_of_stop (s := ⟨_, false⟩) hu ?_
      simp only [Reader.step, inBody, hk]
  · rw [statement, peek_bind ht, he.type]
    show Follows us eof _ _ _ (unexpected ts _ _)
    rw [unexpected_eof ht he.type]
    exact Reader.onward_length

/-- A turn of a body takes a statement, or stands at the closing brace. -/
theorem follows_bodyTurn (he : EndsAt ts us eof) (done : List RawNode) (hp : p ≤ us.length) :
    Follows us eof (inBody fs hd done) p
      (Turned (inBody fs hd) p fun done m' p' => m' = inBody fs hd done ∧ ∃ t, us[p']? = some t ∧ t.type = .rightBrace)
      (bodyTurn ts done p) := by
  obtain ⟨t, ht⟩ : ∃ t, ts[p]? = some t :=
    ⟨_, List.getElem?_eq_getElem (Nat.lt_of_le_of_lt hp he.length_lt)⟩
  rw [bodyTurn, peek_bind ht]
  by_cases hb : t.type = .rightBrace
  · rw [if_pos hb]
    rcases he.token_cases hp with ⟨t', hu⟩ | ⟨rfl, ht'⟩
    · cases ht.symm.trans (he.getElem?_eq hu)
      exact follows_ok hp ⟨rfl, t, hu, hb⟩
    · cases ht.symm.trans ht'
      cases hb.symm.trans he.type
  · rw [if_neg hb]
    refine (follows_statement he done hp fun t' hu => ?_).bind ?_
    · cases ht.symm.trans (he.getElem?_eq hu)
      exact hb
    · rintro n _ p' h hl' ⟨rfl, hlt⟩
      exact follows_ok hl' ⟨rfl, hlt⟩

/-! ## Functions -/

theorem follows_typeName (he : EndsAt ts us eof) (hu : us[p]? = some t) :
    Follows us eof ⟨fs, .outside⟩ p (fun x m' p' => m' = ⟨fs, .typed x.1.location x.2⟩ ∧ p < p') (typeName ts p) := by
  have ht := he.getElem?_eq hu
  rw [typeName, peek_bind ht]
  by_cases hk : t.type.isTypeName = true
  · rw [if_pos hk, advance_bind ht (he.type_ne hu)]
    cases hv : Reader.typeOfValue? t.value with
    | some type =>
      refine follows_taken hu ?_ ⟨rfl, Nat.lt_succ_self p⟩
      simp only [Reader.step, hk, hv, if_true]
    | none =>
      refine Reader.onward_of_stop (s := ⟨_, true⟩) hu ?_
      simp only [Reader.step, hk, hv, if_true]
  · rw [if_neg hk, unexpected_eq ht (he.type_ne hu)]
    refine Reader.onward_of_stop hu ?_
    simp only [Reader.step, hk]
    rfl

/-- A function is read after those before it. -/
theorem follows_function (he : EndsAt ts us eof) (hu : us[p]? = some t) :
    Follows us eof ⟨fs, .outside⟩ p (fun n m' p' => m' = ⟨n :: fs, .outside⟩ ∧ p < p') (function ts p) := by
  rw [function]
  refine (follows_typeName he hu).bind ?_
  rintro ⟨t, type⟩ _ p₁ - hl₁ ⟨rfl, h₁⟩
  refine (follows_expect he hl₁ rfl).bind ?_
  rintro name _ p₂ - hl₂ ⟨rfl, h₂⟩
  refine (follows_expect he hl₂ rfl).bind ?_
  rintro _ _ p₃ - hl₃ ⟨rfl, h₃⟩
  refine (follows_expect he hl₃ rfl).bind ?_
  rintro _ _ p₄ - hl₄ ⟨rfl, h₄⟩
  refine (follows_expect he hl₄ rfl).bind ?_
  rintro _ _ p₅ - hl₅ ⟨rfl, h₅⟩
  refine (follows_loop he (fun done p hp => follows_bodyTurn he done hp) [] hl₅).bind ?_
  rintro done _ p₆ h₆ - ⟨rfl, b, hu, hb⟩
  have hs : Reader.step (inBody fs ⟨t.location, type, name.value⟩ done) b =
      .ok ⟨.function t.location name.value type done.reverse :: fs, .outside⟩ := by
    simp only [Reader.step, inBody, hb]
  rw [expect_bind (he.getElem?_eq hu) (he.type_ne hu) hb]
  exact follows_taken hu hs ⟨rfl, by omega⟩

/-! ## Programs -/

/-- A turn of a program takes a function, or stands at the end of input. -/
theorem follows_programTurn (he : EndsAt ts us eof) (fs : List RawNode) (hp : p ≤ us.length) :
    Follows us eof ⟨fs, .outside⟩ p
      (Turned (fun fs => ⟨fs, .outside⟩) p fun fs m' p' => m' = ⟨fs, .outside⟩ ∧ p' = us.length)
      (programTurn ts fs p) := by
  rcases he.token_cases hp with ⟨t, hu⟩ | ⟨rfl, ht⟩
  · rw [programTurn, peek_bind (he.getElem?_eq hu), if_neg (he.type_ne hu)]
    refine (follows_function he hu).bind ?_
    rintro n _ p' h hl' ⟨rfl, hlt⟩
    exact follows_ok hl' ⟨rfl, hlt⟩
  · rw [programTurn, peek_bind ht, if_pos he.type]
    exact follows_ok (Nat.le_refl _) ⟨rfl, rfl⟩

/-- What a descent comes to where the reader comes to `x`. -/
def resultOf (file : String) : Except Refusal (List RawNode) × Nat → EStateM.Result Stop Nat RawNode
  | (.ok functions, k) => .ok (.program ⟨file, 1, 1⟩ functions.reverse) k
  | (.error r, k) => .error (.refused r) k

/-- **A descent comes to what the reader comes to**, with its cursor behind the tokens that the reader takes. -/
theorem program_eq_onward (he : EndsAt ts us eof) (file : String) :
    program ts file 0 = resultOf file (Reader.start.onward us eof 0) := by
  have h : Follows us eof .start 0 (fun n m' p' => p' = us.length ∧ ∃ fs, m' = ⟨fs, .outside⟩ ∧
      n = .program ⟨file, 1, 1⟩ fs.reverse) (program ts file 0) := by
    rw [program]
    refine (follows_loop he (fun fs p hp => follows_programTurn he fs hp) [] (Nat.zero_le _)).bind ?_
    rintro fs _ _ - hl ⟨rfl, rfl⟩
    exact follows_ok hl ⟨rfl, fs, rfl, rfl⟩
  generalize program ts file 0 = r at h ⊢
  match r, h with
  | .error (.refused e) k, h => rw [show Reader.start.onward us eof 0 = _ from h]; rfl
  | .ok n k, h =>
    obtain ⟨-, -, _, ho, rfl, fs, rfl, rfl⟩ := h
    rw [ho, Reader.onward_length]
    rfl

/-- A list without an end of input is not safe: the descent looks outside of it. -/
example : program [] "t.c" 0 = .error .outside 0 := by with_unfolding_all rfl

end Descent

end TinyArm
