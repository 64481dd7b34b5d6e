import TinyArm.Node.Stacks
import TinyArm.Token.Scan

/-!
# Trees from tokens

A program is read one token at a time. The `Reader` remembers the finished functions and, in its `State`, what it is in
the middle of; `Reader.step` takes a token and `Reader.finish` the end of input. The language is

* program: functions;
* function: `int` or `void`, a name, `(`, `)`, `{`, statements, `}`;
* statement: `return`, an expression or nothing, `;`;
* expression: operands with operators between them, where an operand is a literal, a name with `(` and `)`, or an
  expression in parentheses.

* `Reader.run_append_of_ok`: reading tokens in two parts is reading them at once.
* `readTokens` reads a token list up to its first end-of-input token; a list without one is taken to end right after
  its last token (`impliedEof`).
* `RawNode.ofTokens` and `Tree.ofSource` are the public forms: the tree, or the failure with its source line.
-/

namespace TinyArm

/-! ## States -/

/-- The front of a function: its type, the place of the type keyword, and its name. -/
structure Header where
  loc : Location
  type : DataType
  name : Value
  deriving DecidableEq

/-- A `return` under way: its function, the statements before it with the latest first, its place, and its value so
far. -/
structure Returning where
  header : Header
  done : List RawNode
  loc : Location
  parts : Stacks

namespace Reader

/-- What the reader is in the middle of. -/
inductive State where
  /-- Between functions. -/
  | outside
  /-- After a type keyword. -/
  | typed (loc : Location) (type : DataType)
  /-- After the name of a function. -/
  | named (h : Header)
  /-- After the opening parenthesis of a function. -/
  | opened (h : Header)
  /-- After the closing parenthesis of a function. -/
  | closed (h : Header)
  /-- Between the statements of a function; the latest is first. -/
  | body (h : Header) (done : List RawNode)
  /-- In the value of a `return`. -/
  | value (r : Returning)
  /-- After the name of a call. -/
  | callee (r : Returning) (name : Token)
  /-- After the opening parenthesis of a call. -/
  | calling (r : Returning) (name : Token)

/-- What a state is waiting for, as messages say it. -/
def State.expected : State → String
  | outside => "type specifier"
  | typed .. => "identifier"
  | named _ => "'('"
  | opened _ => "')'"
  | closed _ => "'\x7b'"
  | body .. => "'\x7d'"
  | value _ => "';'"
  | callee _ name => "'(' after '" ++ name.value.spelling ++ "'"
  | calling .. => "')'"

end Reader

/-- A reader of programs. -/
structure Reader where
  /-- The finished functions, the latest first. -/
  functions : List RawNode
  state : Reader.State

namespace Reader

/-- The reader before the first token. -/
def start : Reader := ⟨[], .outside⟩

/-! ## One token -/

/-- A refusal, and whether the token at hand had been taken when it arose. -/
structure Stop where
  refusal : Refusal
  taken : Bool
  deriving DecidableEq

/-- The refusal of a token where something else belongs. -/
def unexpected (t : Token) (expected : String) : Stop :=
  ⟨.diagnosed (.token t.spelling (some expected)) t.location, false⟩

/-- The type that the value of a type keyword names. -/
def typeOfValue? : Value → Option DataType
  | .text s => DataType.ofKeyword? s
  | _ => none

/-- One token in the value of a `return`. A token that cannot belong to an expression ends it. -/
def stepValue (r : Returning) (t : Token) : Except Stop State :=
  let go (taken : Bool) (s : Except Refusal Stacks) : Except Stop State :=
    match s with
    | .ok s => .ok (.value { r with parts := s })
    | .error e => .error ⟨e, taken⟩
  match t.type with
  | .number => go true (.ok (r.parts.operand (.number t.location t.value)))
  | .identifier => .ok (.callee r t)
  | .leftParen => go true (.ok (r.parts.group t.location))
  | .rightParen => go true (r.parts.close t.location)
  | .operator op => go true (r.parts.operator t.location op)
  | type =>
    match r.parts.finish with
    | .error e => .error ⟨e, false⟩
    | .ok value =>
      if type = .semicolon then .ok (.body r.header (.ret r.loc value :: r.done))
      else .error (unexpected t (State.value r).expected)

/-- One token. -/
def step (m : Reader) (t : Token) : Except Stop Reader :=
  let wait (type : TokenType) (s : State) : Except Stop Reader :=
    if t.type = type then .ok ⟨m.functions, s⟩ else .error (unexpected t m.state.expected)
  match m.state with
  | .outside =>
    if t.type.isTypeName then
      match typeOfValue? t.value with
      | some type => .ok ⟨m.functions, .typed t.location type⟩
      | none => .error ⟨.typeKeyword t.value, true⟩
    else .error (unexpected t m.state.expected)
  | .typed loc type => wait .identifier (.named ⟨loc, type, t.value⟩)
  | .named h => wait .leftParen (.opened h)
  | .opened h => wait .rightParen (.closed h)
  | .closed h => wait .leftBrace (.body h [])
  | .body h done =>
    match t.type with
    | .returnWord => .ok ⟨m.functions, .value ⟨h, done, t.location, .empty⟩⟩
    | .rightBrace => .ok ⟨.function h.loc h.name h.type done.reverse :: m.functions, .outside⟩
    | _ => .error ⟨.diagnosed (.unimplemented ("statement starting with '" ++ t.spelling ++ "'")) t.location, false⟩
  | .value r => (stepValue r t).map fun s => ⟨m.functions, s⟩
  | .callee r name => wait .leftParen (.calling r name)
  | .calling r name =>
    wait .rightParen (.value { r with parts := r.parts.operand (.call name.location name.value) })

/-! ## The end of input -/

/-- The functions of a program that ends at the token `eof`, the latest first. -/
def finish (m : Reader) (eof : Token) : Except Refusal (List RawNode) :=
  let missing : Except Refusal (List RawNode) := .error (.diagnosed (.endOfInput m.state.expected) eof.location)
  match m.state with
  | .outside => .ok m.functions
  | .value r =>
    match r.parts.finish with
    | .error e => .error e
    | .ok _ => missing
  | _ => missing

/-! ## All tokens -/

/-- How a reading broke off: the refusal, the functions that were finished with the latest first, and the tokens that
were not taken. -/
structure Halt where
  refusal : Refusal
  functions : List RawNode
  rest : List Token

/-- Reads tokens one after the other. -/
def run (m : Reader) : List Token → Except Halt Reader
  | [] => .ok m
  | t :: ts =>
    match m.step t with
    | .ok m' => m'.run ts
    | .error s => .error ⟨s.refusal, m.functions, if s.taken then ts else t :: ts⟩

/-- Reading goes on where it stood. -/
theorem run_append_of_ok {m m' : Reader} {ts : List Token} (h : m.run ts = .ok m') (us : List Token) :
    m.run (ts ++ us) = m'.run us := by
  induction ts generalizing m with
  | nil => cases h; rfl
  | cons t ts ih =>
    simp only [run, List.cons_append] at h ⊢
    cases hs : m.step t with
    | error s => rw [hs] at h; cases h
    | ok m₁ => rw [hs] at h; exact ih h

end Reader

/-! ## Token lists -/

/-- The end-of-input token that a list without one is taken to have: right after the last token, or at the start of the
file. -/
def impliedEof (file : String) (ts : List Token) : Token :=
  match ts.getLast? with
  | none => ⟨.eof, .absent, ⟨file, 1, 1⟩⟩
  | some t =>
    ⟨.eof, .absent, { t.location with column := t.location.column + t.value.spelling.length }⟩

/-- The tokens before the first end-of-input token. -/
def properTokens (ts : List Token) : List Token := ts.takeWhile (·.type ≠ .eof)

/-- The first end-of-input token, or the implied one. -/
def eofToken (file : String) (ts : List Token) : Token :=
  ((ts.dropWhile (·.type ≠ .eof)).head?).getD (impliedEof file ts)

/-- The program that tokens make up, or how reading it broke off. -/
def readTokens (file : String) (ts : List Token) : Except Reader.Halt RawNode :=
  match Reader.start.run (properTokens ts) with
  | .error h => .error h
  | .ok m =>
    match m.finish (eofToken file ts) with
    | .error e => .error ⟨e, m.functions, []⟩
    | .ok functions => .ok (.program ⟨file, 1, 1⟩ functions.reverse)

/-- The tree of a token list; `lines` is the text that failures quote from. -/
def RawNode.ofTokens (file : String) (lines : List String) (ts : List Token) : Except Failure RawNode :=
  (readTokens file ts).mapError fun h => h.refusal.failure lines

/-- The tree that the compiler works on: names are the spellings of values, literals their numbers. -/
def RawNode.tree (n : RawNode) : Tree := n.map Value.spelling Value.toInt

/-- The lines of a source that failures quote from. -/
def quotedLines (source : String) : List String := (Text.brokenLines source.toList).map String.ofList

/-- The tree of a source. -/
def Tree.ofSource (source file : String) : Except Failure Tree := do
  let ts ← tokens source file
  let n ← RawNode.ofTokens file (quotedLines source) ts
  return n.tree

end TinyArm
