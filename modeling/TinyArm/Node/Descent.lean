import TinyArm.Node.Reader

/-!
# Reading by descent

The same language read from the top: a `Descent` moves a cursor over a list of tokens, and there is one for each form,
made of those for its parts. It looks at the token at the cursor and at no other. The end of input is never taken, so
the cursor stays there; a token before it is taken or else refused.

A descent that would look at a place where there is no token, or go round a loop without taking any, stops at once with
`Stop.outside` or `Stop.idle`. `completed` is the list that a descent runs on: one that does not end in an
end-of-input token gets one.
-/

namespace TinyArm

/-- Why a descent stops. -/
inductive Descent.Stop where
  /-- The tokens are refused. -/
  | refused (r : Refusal)
  /-- There is no token at the cursor. -/
  | outside
  /-- A turn of a loop has taken no token. -/
  | idle
  deriving DecidableEq

/-- A run that starts at a cursor and ends at one, with a result or without. -/
abbrev Descent (α : Type) := EStateM Descent.Stop Nat α

namespace Descent

/-! ## Tokens -/

section Tokens

variable {α : Type} (ts : List Token)

/-- Refuses the tokens. -/
def refuse (r : Refusal) : Descent α := throw (.refused r)

/-- A result, unless the tokens are refused. -/
def ofExcept : Except Refusal α → Descent α
  | .ok a => pure a
  | .error r => refuse r

/-- The token at the cursor. -/
def peek : Descent Token := fun p =>
  match ts[p]? with
  | some t => .ok t p
  | none => .error .outside p

/-- Takes the token at the cursor, unless it is the end of input. -/
def advance : Descent Token := do
  let t ← peek ts
  if t.type ≠ .eof then modify (· + 1)
  pure t

/-- Refuses the token at the cursor, where something else is expected. -/
def unexpected (expected : String) : Descent α := do
  let t ← peek ts
  if t.type = .eof then refuse (.diagnosed (.endOfInput expected) t.location)
  else refuse (.diagnosed (.token t.spelling (some expected)) t.location)

/-- Takes a token of one type. -/
def expect (type : TokenType) (expected : String) : Descent Token := do
  let t ← peek ts
  if t.type = type then advance ts else unexpected ts expected

/-- Goes round a loop: a turn gives what the next one starts from, or the result of the loop. -/
def loop {σ ρ : Type} (turn : σ → Descent (σ ⊕ ρ)) (s : σ) : Descent ρ := fun p =>
  match turn s p with
  | .error e p' => .error e p'
  | .ok (.inr r) p' => .ok r p'
  | .ok (.inl s') p' => if p < p' ∧ p' ≤ ts.length then loop turn s' p' else .error .idle p'
termination_by p => ts.length - p

end Tokens

variable (ts : List Token)

/-! ## Expressions -/

/-- A call: a name, `(` and `)`. -/
def call : Descent RawNode := do
  let name ← advance ts
  let _ ← expect ts .leftParen ("'(' after '" ++ name.value.spelling ++ "'")
  let _ ← expect ts .rightParen "')'"
  pure (.call name.location name.value)

/-- One turn of an expression: the stacks after one more part of it, or else as they are. -/
def term (s : Stacks) : Descent (Stacks ⊕ Stacks) := do
  let t ← peek ts
  match t.type with
  | .number =>
    let _ ← advance ts
    pure (.inl (s.operand (.number t.location t.value)))
  | .identifier =>
    let n ← call ts
    pure (.inl (s.operand n))
  | .leftParen =>
    let _ ← advance ts
    pure (.inl (s.group t.location))
  | .rightParen =>
    let _ ← advance ts
    let s ← ofExcept (s.close t.location)
    pure (.inl s)
  | .operator op =>
    let _ ← advance ts
    let s ← ofExcept (s.operator t.location op)
    pure (.inl s)
  | _ => pure (.inr s)

/-- An expression, as far as its tokens go. -/
def expression : Descent RawNode := do
  let s ← loop ts (term ts) .empty
  ofExcept s.finish

/-! ## Statements -/

/-- A `return` of nothing or of an expression. -/
def returnStatement : Descent RawNode := do
  let word ← expect ts .returnWord "'return'"
  let t ← peek ts
  if t.type = .semicolon then
    let _ ← advance ts
    pure (.ret word.location .absent)
  else
    let value ← expression ts
    let _ ← expect ts .semicolon "';'"
    pure (.ret word.location value)

/-- A statement; there is no other than `return`. -/
def statement : Descent RawNode := do
  let t ← peek ts
  match t.type with
  | .returnWord => returnStatement ts
  | .eof => unexpected ts "'\x7d'"
  | _ => refuse (.diagnosed (.unimplemented ("statement starting with '" ++ t.spelling ++ "'")) t.location)

/-- One turn of a body: one more statement, unless the closing brace is next. The latest statement is first. -/
def bodyTurn (done : List RawNode) : Descent (List RawNode ⊕ List RawNode) := do
  let t ← peek ts
  if t.type = .rightBrace then pure (.inr done)
  else
    let n ← statement ts
    pure (.inl (n :: done))

/-! ## Functions -/

/-- The type that a type keyword names. -/
def typeName : Descent (Token × DataType) := do
  let t ← peek ts
  if t.type.isTypeName then
    let _ ← advance ts
    match Reader.typeOfValue? t.value with
    | some type => pure (t, type)
    | none => refuse (.typeKeyword t.value)
  else unexpected ts "type specifier"

/-- A function: a type, a name, `(`, `)`, `{`, statements and `}`. -/
def function : Descent RawNode := do
  let (t, type) ← typeName ts
  let name ← expect ts .identifier "identifier"
  let _ ← expect ts .leftParen "'('"
  let _ ← expect ts .rightParen "')'"
  let _ ← expect ts .leftBrace "'\x7b'"
  let done ← loop ts (bodyTurn ts) []
  let _ ← expect ts .rightBrace "'\x7d'"
  pure (.function t.location name.value type done.reverse)

/-- One turn of a program: one more function, unless the end of input is next. The latest function is first. -/
def programTurn (done : List RawNode) : Descent (List RawNode ⊕ List RawNode) := do
  let t ← peek ts
  if t.type = .eof then pure (.inr done)
  else
    let n ← function ts
    pure (.inl (n :: done))

/-- A program: functions up to the end of input. -/
def program (file : String) : Descent RawNode := do
  let done ← loop ts (programTurn ts) []
  pure (.program ⟨file, 1, 1⟩ done.reverse)

end Descent

/-! ## Token lists -/

/-- A list of tokens that ends in an end-of-input token, if need be the implied one. -/
def completed (file : String) (ts : List Token) : List Token :=
  if ts.getLast?.any (·.type = .eof) then ts else ts ++ [impliedEof file ts]

/-- Reads a list of tokens by descent: what comes of it, and where the cursor is then. -/
def descend (file : String) (ts : List Token) : Except Descent.Stop RawNode × Nat :=
  match Descent.program (completed file ts) file 0 with
  | .ok n k => (.ok n, k)
  | .error s k => (.error s, k)

end TinyArm
