import TinyArm.Proofs.Grammar

/-!
# What the reader accepts

The reader takes one token at a time. `Stacks.Reads` says what it does over the tokens of an expression: which stacks
it comes to. A reading that succeeds has the layout of a program, and the value of each `return` is what the stacks
make of the tokens before its semicolon (`Stacks.IsValue`).

* `Reader.run_of_reads`, `Reader.exists_reads_of_run`: expressions inside of a run.
* `Reader.run_of_makesFunctions`, `Reader.exists_functions_of_run`: whole functions inside of a run.
* `readTokens_eq_ok_iff`: **a token list is read exactly if it is laid out as a program.**
-/

namespace TinyArm

open Grammar

/-! ## Expressions -/

/-- The stacks that reading the tokens of an expression leads to. -/
inductive Stacks.Reads : Stacks → List Token → Stacks → Prop where
  | nil (s : Stacks) : Reads s [] s
  | number {s s' : Stacks} {t : Token} {ts : List Token} : t.type = .number →
      Reads (s.operand (.number t.location t.value)) ts s' → Reads s (t :: ts) s'
  | call {s s' : Stacks} {n l r : Token} {ts : List Token} : n.type = .identifier → l.type = .leftParen →
      r.type = .rightParen → Reads (s.operand (.call n.location n.value)) ts s' → Reads s (n :: l :: r :: ts) s'
  | group {s s' : Stacks} {t : Token} {ts : List Token} : t.type = .leftParen → Reads (s.group t.location) ts s' →
      Reads s (t :: ts) s'
  | close {s s₁ s' : Stacks} {t : Token} {ts : List Token} : t.type = .rightParen → s.close t.location = .ok s₁ →
      Reads s₁ ts s' → Reads s (t :: ts) s'
  | operator {s s₁ s' : Stacks} {t : Token} {op : Operator} {ts : List Token} : t.type = .operator op →
      s.operator t.location op = .ok s₁ → Reads s₁ ts s' → Reads s (t :: ts) s'

namespace Stacks

/-- Readings compose. -/
theorem Reads.trans {s s₁ s₂ : Stacks} {ts us : List Token} (h : Reads s ts s₁) (h' : Reads s₁ us s₂) :
    Reads s (ts ++ us) s₂ := by
  induction h with
  | nil => exact h'
  | number ht _ ih => exact .number ht (ih h')
  | call hn hl hr _ ih => exact .call hn hl hr (ih h')
  | group ht _ ih => exact .group ht (ih h')
  | close ht hc _ ih => exact .close ht hc (ih h')
  | operator ht ho _ ih => exact .operator ht ho (ih h')

/-- The tokens of an expression are literals, names, parentheses and operators. -/
theorem Reads.type {s s' : Stacks} {ts : List Token} (h : Reads s ts s') : ∀ t ∈ ts, t.type = .number ∨
    t.type = .identifier ∨ t.type = .leftParen ∨ t.type = .rightParen ∨ ∃ op, t.type = .operator op := by
  induction h with
  | nil => simp
  | call hn hl hr _ ih => simp_all
  | number ht _ ih | group ht _ ih | close ht _ _ ih | operator ht _ _ ih => simp_all

/-- What the stacks make of the tokens between a `return` and its semicolon. -/
def IsValue (ts : List Token) (v : RawNode) : Prop := ∃ s, Reads .empty ts s ∧ s.finish = .ok v

end Stacks

namespace Reader

/-! ## Expressions inside of a run -/

theorem run_cons {m m' : Reader} {t : Token} {ts : List Token} (h : m.step t = .ok m') :
    m.run (t :: ts) = m'.run ts := by
  simp only [run, h]

/-- A run that succeeds takes its first token. -/
theorem exists_step_of_run {m m' : Reader} {t : Token} {ts : List Token} (h : m.run (t :: ts) = .ok m') :
    ∃ m₁, m.step t = .ok m₁ ∧ m₁.run ts = .ok m' := by
  simp only [run] at h
  split at h
  · next m₁ hs => exact ⟨m₁, hs, h⟩
  · cases h

theorem run_of_reads {fs : List RawNode} {ts : List Token} {s : Stacks} {r : Returning} (h : r.parts.Reads ts s) :
    run ⟨fs, .value r⟩ ts = .ok ⟨fs, .value { r with parts := s }⟩ := by
  obtain ⟨hd, done, loc, parts⟩ := r
  simp only at h
  induction h with
  | nil => rfl
  | number ht _ ih => rw [run_cons (by simp [step, stepValue, ht]; rfl)]; exact ih
  | call hn hl hr _ ih =>
    rw [run_cons (by simp [step, stepValue, hn]; rfl), run_cons (by simp [step, hl]; rfl),
      run_cons (by simp [step, hr]; rfl)]
    exact ih
  | group ht _ ih => rw [run_cons (by simp [step, stepValue, ht]; rfl)]; exact ih
  | close ht hc _ ih => rw [run_cons (by simp [step, stepValue, ht, hc]; rfl)]; exact ih
  | operator ht ho _ ih => rw [run_cons (by simp [step, stepValue, ht, ho]; rfl)]; exact ih

/-- All that one token can do inside of an expression. -/
theorem step_value_cases {fs : List RawNode} {r : Returning} {t : Token} {m : Reader}
    (h : step ⟨fs, .value r⟩ t = .ok m) :
    (t.type = .number ∧ m = ⟨fs, .value { r with parts := r.parts.operand (.number t.location t.value) }⟩) ∨
    (t.type = .identifier ∧ m = ⟨fs, .callee r t⟩) ∨
    (t.type = .leftParen ∧ m = ⟨fs, .value { r with parts := r.parts.group t.location }⟩) ∨
    (∃ s, t.type = .rightParen ∧ r.parts.close t.location = .ok s ∧ m = ⟨fs, .value { r with parts := s }⟩) ∨
    (∃ op s, t.type = .operator op ∧ r.parts.operator t.location op = .ok s ∧
      m = ⟨fs, .value { r with parts := s }⟩) ∨
    (∃ v, t.type = .semicolon ∧ r.parts.finish = .ok v ∧ m = ⟨fs, .body r.header (.ret r.loc v :: r.done)⟩) := by
  simp only [step, stepValue] at h
  cases ht : t.type with
  | number => simp_all [Except.map]
  | identifier => simp_all [Except.map]
  | leftParen => simp_all [Except.map]
  | rightParen =>
    cases hc : r.parts.close t.location <;> simp_all [Except.map]
  | operator op =>
    cases ho : r.parts.operator t.location op <;> simp_all [Except.map]
  | _ =>
    cases hf : r.parts.finish <;> simp_all [Except.map]

/-- The type of token that a state waits for, and the state after such a token; the other states have a choice. -/
def State.wait? : State → Option (TokenType × (Token → State))
  | typed loc type => some (.identifier, fun t => .named ⟨loc, type, t.value⟩)
  | named h => some (.leftParen, fun _ => .opened h)
  | opened h => some (.rightParen, fun _ => .closed h)
  | closed h => some (.leftBrace, fun _ => .body h [])
  | callee r n => some (.leftParen, fun _ => .calling r n)
  | calling r n => some (.rightParen, fun _ => .value { r with parts := r.parts.operand (.call n.location n.value) })
  | _ => none

theorem step_wait_iff {fs : List RawNode} {q : State} {k : TokenType} {f : Token → State} (hq : q.wait? = some (k, f))
    {t : Token} {m : Reader} : step ⟨fs, q⟩ t = .ok m ↔ t.type = k ∧ m = ⟨fs, f t⟩ := by
  cases q <;> simp only [State.wait?, Option.some.injEq, Prod.mk.injEq, reduceCtorEq] at hq
  all_goals
    obtain ⟨rfl, rfl⟩ := hq
    simp only [step]
    split <;> simp_all [eq_comm]

/-- A run out of a waiting state takes the token that the state waits for. -/
theorem exists_wait_of_run {fs : List RawNode} {q : State} {k : TokenType} {f : Token → State}
    (hq : q.wait? = some (k, f)) {m : Reader} (hm : m.state = .outside) {ts : List Token}
    (h : run ⟨fs, q⟩ ts = .ok m) : ∃ t us, ts = t :: us ∧ t.type = k ∧ run ⟨fs, f t⟩ us = .ok m := by
  cases ts with
  | nil =>
    cases h
    subst hm
    cases hq
  | cons t us =>
    obtain ⟨m₁, hs, h⟩ := exists_step_of_run h
    obtain ⟨ht, rfl⟩ := (step_wait_iff hq).1 hs
    exact ⟨t, us, rfl, ht, h⟩

/-- **A run out of an expression** passes its semicolon, and what the stacks make of the tokens before it is the value
of the `return`. -/
theorem exists_reads_of_run {fs : List RawNode} {m : Reader} (hm : m.state = .outside) {ts : List Token}
    {r : Returning} (h : run ⟨fs, .value r⟩ ts = .ok m) :
    ∃ us e rest s v, ts = us ++ e :: rest ∧ r.parts.Reads us s ∧ s.finish = .ok v ∧ e.type = .semicolon ∧
      run ⟨fs, .body r.header (.ret r.loc v :: r.done)⟩ rest = .ok m := by
  match ts, h with
  | [], h => cases h; cases hm
  | t :: ts, h =>
    obtain ⟨m₁, hs, h⟩ := exists_step_of_run h
    rcases step_value_cases hs with ⟨ht, rfl⟩ | ⟨ht, rfl⟩ | ⟨ht, rfl⟩ | ⟨s₁, ht, hc, rfl⟩ | ⟨op, s₁, ht, ho, rfl⟩ |
      ⟨v, ht, hv, rfl⟩
    · obtain ⟨us, e, rest, s, v, rfl, hu, hs⟩ := exists_reads_of_run hm h
      exact ⟨t :: us, e, rest, s, v, rfl, .number ht hu, hs⟩
    · obtain ⟨l, ts, rfl, hl, h⟩ := exists_wait_of_run rfl hm h
      obtain ⟨p, ts, rfl, hp, h⟩ := exists_wait_of_run rfl hm h
      obtain ⟨us, e, rest, s, v, rfl, hu, hs⟩ := exists_reads_of_run hm h
      exact ⟨t :: l :: p :: us, e, rest, s, v, rfl, .call ht hl hp hu, hs⟩
    · obtain ⟨us, e, rest, s, v, rfl, hu, hs⟩ := exists_reads_of_run hm h
      exact ⟨t :: us, e, rest, s, v, rfl, .group ht hu, hs⟩
    · obtain ⟨us, e, rest, s, v, rfl, hu, hs⟩ := exists_reads_of_run hm h
      exact ⟨t :: us, e, rest, s, v, rfl, .close ht hc hu, hs⟩
    · obtain ⟨us, e, rest, s, v, rfl, hu, hs⟩ := exists_reads_of_run hm h
      exact ⟨t :: us, e, rest, s, v, rfl, .operator ht ho hu, hs⟩
    · exact ⟨[], t, ts, r.parts, v, rfl, .nil _, hv, ht, h⟩
termination_by ts.length

/-! ## Statements inside of a run -/

/-- All that one token can do between the statements of a function. -/
theorem step_body_cases {fs done : List RawNode} {hd : Header} {t : Token} {m : Reader}
    (h : step ⟨fs, .body hd done⟩ t = .ok m) :
    (t.type = .returnWord ∧ m = ⟨fs, .value ⟨hd, done, t.location, .empty⟩⟩) ∨
    (t.type = .rightBrace ∧ m = ⟨.function hd.loc hd.name hd.type done.reverse :: fs, .outside⟩) := by
  simp only [step] at h
  split at h <;> simp_all

theorem run_of_makesStatement {fs done : List RawNode} {hd : Header} {ts : List Token} {n : RawNode}
    (h : MakesStatement Stacks.IsValue ts n) :
    run ⟨fs, .body hd done⟩ ts = .ok ⟨fs, .body hd (n :: done)⟩ := by
  obtain @⟨r, e, us, v, hr, ⟨s, hs, hv⟩, he⟩ := h
  rw [run_cons (by simp [step, hr]; rfl), run_append_of_ok (run_of_reads (r := ⟨hd, done, r.location, .empty⟩) hs),
    run_cons (by simp [step, stepValue, he, hv]; rfl)]
  rfl

theorem run_of_makesStatements {fs : List RawNode} {hd : Header} {tss : List (List Token)} {body : List RawNode}
    (h : List.Forall₂ (MakesStatement Stacks.IsValue) tss body) : ∀ done : List RawNode,
      run ⟨fs, .body hd done⟩ tss.flatten = .ok ⟨fs, .body hd (body.reverse ++ done)⟩ := by
  induction h with
  | nil => intro done; rfl
  | cons hn _ ih =>
    intro done
    rw [List.flatten_cons, run_append_of_ok (run_of_makesStatement hn), ih]
    simp

/-- **A run out of a function body** passes its closing brace; the statements before it are laid out over their
tokens. -/
theorem exists_statements_of_run {fs : List RawNode} {hd : Header} {m : Reader} (hm : m.state = .outside)
    {ts : List Token} {done : List RawNode} (h : run ⟨fs, .body hd done⟩ ts = .ok m) :
    ∃ tss body e rest, List.Forall₂ (MakesStatement Stacks.IsValue) tss body ∧ ts = tss.flatten ++ e :: rest ∧
      e.type = .rightBrace ∧
      run ⟨.function hd.loc hd.name hd.type (done.reverse ++ body) :: fs, .outside⟩ rest = .ok m := by
  match ts, h with
  | [], h => cases h; cases hm
  | t :: ts, h =>
    obtain ⟨m₁, hs, h⟩ := exists_step_of_run h
    rcases step_body_cases hs with ⟨ht, rfl⟩ | ⟨ht, rfl⟩
    · obtain ⟨us, e, rest, s, v, rfl, hu, hv, he, h⟩ := exists_reads_of_run hm h
      obtain ⟨tss, body, b, rest', hb, rfl, hbr, h⟩ := exists_statements_of_run hm h
      refine ⟨(t :: (us ++ [e])) :: tss, .ret t.location v :: body, b, rest', .cons (.intro ht ⟨s, hu, hv⟩ he) hb, ?_,
        hbr, ?_⟩
      · simp
      · simpa using h
    · exact ⟨[], [], t, ts, .nil, rfl, ht, by simpa using h⟩
termination_by ts.length
decreasing_by simp_all; omega

/-! ## Functions inside of a run -/

theorem typeOfValue?_eq_some_iff {v : Value} {type : DataType} :
    typeOfValue? v = some type ↔ v = .text type.keyword := by
  cases v with
  | text s =>
    simp only [typeOfValue?, Value.text.injEq]
    exact ⟨fun h => (DataType.keyword_of_ofKeyword? h).symm, fun h => h ▸ DataType.ofKeyword?_keyword type⟩
  | _ => simp [typeOfValue?]

/-- Between functions only a type keyword with the text of a type passes. -/
theorem step_outside_iff {fs : List RawNode} {t : Token} {m : Reader} : step ⟨fs, .outside⟩ t = .ok m ↔
    t.type.isTypeName = true ∧ ∃ type : DataType, t.value = .text type.keyword ∧ m = ⟨fs, .typed t.location type⟩ := by
  simp only [step]
  constructor
  · intro h
    split at h
    · next ht =>
      split at h
      · next type hv => cases h; exact ⟨ht, type, typeOfValue?_eq_some_iff.1 hv, rfl⟩
      · cases h
    · cases h
  · rintro ⟨ht, type, hv, rfl⟩
    rw [if_pos ht, typeOfValue?_eq_some_iff.2 hv]

theorem run_of_isFront {fs : List RawNode} {ts : List Token} {hd : Header} (h : IsFront ts hd) :
    run ⟨fs, .outside⟩ ts = .ok ⟨fs, .body hd []⟩ := by
  obtain ⟨ht, hv, hn, hl, hr, hb⟩ := h
  rw [run_cons (step_outside_iff.2 ⟨ht, _, hv, rfl⟩), run_cons ((step_wait_iff rfl).2 ⟨hn, rfl⟩),
    run_cons ((step_wait_iff rfl).2 ⟨hl, rfl⟩), run_cons ((step_wait_iff rfl).2 ⟨hr, rfl⟩),
    run_cons ((step_wait_iff rfl).2 ⟨hb, rfl⟩)]
  rfl

/-- **A run from one function on** passes the front of the function. -/
theorem exists_front_of_run {fs : List RawNode} {m : Reader} (hm : m.state = .outside) {t : Token} {ts : List Token}
    (h : run ⟨fs, .outside⟩ (t :: ts) = .ok m) :
    ∃ front hd rest, IsFront front hd ∧ t :: ts = front ++ rest ∧ run ⟨fs, .body hd []⟩ rest = .ok m := by
  obtain ⟨m₁, hs, h⟩ := exists_step_of_run h
  obtain ⟨ht, type, hv, rfl⟩ := step_outside_iff.1 hs
  obtain ⟨n, ts, rfl, hn, h⟩ := exists_wait_of_run rfl hm h
  obtain ⟨l, ts, rfl, hl, h⟩ := exists_wait_of_run rfl hm h
  obtain ⟨r, ts, rfl, hr, h⟩ := exists_wait_of_run rfl hm h
  obtain ⟨b, ts, rfl, hb, h⟩ := exists_wait_of_run rfl hm h
  exact ⟨[t, n, l, r, b], _, ts, .intro ht hv hn hl hr hb, rfl, h⟩

theorem run_of_makesFunction {fs : List RawNode} {ts : List Token} {n : RawNode}
    (h : MakesFunction Stacks.IsValue ts n) : run ⟨fs, .outside⟩ ts = .ok ⟨n :: fs, .outside⟩ := by
  obtain ⟨hf, hb, he⟩ := h
  rw [run_append_of_ok (run_of_isFront hf), run_append_of_ok (run_of_makesStatements hb []),
    run_cons (by simp [step, he]; rfl)]
  simp [run]

theorem run_of_makesFunctions {tss : List (List Token)} {gs : List RawNode}
    (h : List.Forall₂ (MakesFunction Stacks.IsValue) tss gs) : ∀ fs : List RawNode,
      run ⟨fs, .outside⟩ tss.flatten = .ok ⟨gs.reverse ++ fs, .outside⟩ := by
  induction h with
  | nil => intro fs; rfl
  | cons hn _ ih =>
    intro fs
    rw [List.flatten_cons, run_append_of_ok (run_of_makesFunction hn), ih]
    simp

/-- **A run between functions** passes whole functions, laid out over their tokens. -/
theorem exists_functions_of_run {fs : List RawNode} {m : Reader} (hm : m.state = .outside) {ts : List Token}
    (h : run ⟨fs, .outside⟩ ts = .ok m) :
    ∃ tss gs, List.Forall₂ (MakesFunction Stacks.IsValue) tss gs ∧ ts = tss.flatten ∧
      m = ⟨gs.reverse ++ fs, .outside⟩ := by
  induction hk : ts.length using Nat.strongRecOn generalizing fs ts with
  | _ k ih =>
    cases ts with
    | nil =>
      cases h
      exact ⟨[], [], .nil, rfl, rfl⟩
    | cons t ts =>
      obtain ⟨front, hd, rest, hf, e, h⟩ := exists_front_of_run hm h
      obtain ⟨tss, body, b, rest', hb, rfl, hbr, h⟩ := exists_statements_of_run hm h
      have hl : rest'.length < k := by
        rw [← hk, e]
        simp only [List.length_append, List.length_cons]
        omega
      obtain ⟨fss, gs, hg, rfl, rfl⟩ := ih rest'.length hl h rfl
      refine ⟨(front ++ (tss.flatten ++ [b])) :: fss, .function hd.loc hd.name hd.type body :: gs,
        .cons (.intro hf hb hbr) hg, ?_, ?_⟩
      · simp [e]
      · simp

/-- Input may end only between functions. -/
theorem finish_eq_ok_iff {m : Reader} {eof : Token} {fs : List RawNode} :
    m.finish eof = .ok fs ↔ m = ⟨fs, .outside⟩ := by
  obtain ⟨gs, q⟩ := m
  cases q with
  | value r => simp only [finish]; split <;> simp
  | _ => simp [finish]

end Reader

/-! ## Whole token lists -/

/-- **A token list is read exactly if the tokens before its end are laid out as a program**, the values being what the
stacks make of their tokens. -/
theorem readTokens_eq_ok_iff {file : String} {ts : List Token} {n : RawNode} :
    readTokens file ts = .ok n ↔ Makes Stacks.IsValue file (properTokens ts) n := by
  simp only [readTokens]
  constructor
  · intro h
    split at h
    · cases h
    · next m hr =>
      split at h
      · cases h
      · next fs hf =>
        cases h
        obtain rfl := Reader.finish_eq_ok_iff.1 hf
        obtain ⟨tss, gs, hg, e, hm⟩ := Reader.exists_functions_of_run rfl hr
        simp only [List.append_nil, Reader.mk.injEq, and_true] at hm
        rw [e, hm, List.reverse_reverse]
        exact .intro hg
  · intro h
    generalize properTokens ts = us at h
    obtain ⟨hg⟩ := h
    rw [Reader.start, Reader.run_of_makesFunctions hg []]
    simp [Reader.finish]

theorem ofTokens_eq_ok_iff {file : String} {lines : List String} {ts : List Token} {n : RawNode} :
    RawNode.ofTokens file lines ts = .ok n ↔ Makes Stacks.IsValue file (properTokens ts) n := by
  rw [← readTokens_eq_ok_iff, RawNode.ofTokens]
  cases readTokens file ts <;> simp [Except.mapError]

end TinyArm
