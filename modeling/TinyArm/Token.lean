import TinyArm.DataType
import TinyArm.Location
import TinyArm.Operator
import TinyArm.Text.Quoted

/-!
# Tokens

A token has a type, a value and a location. The lexer gives a word or symbol its own text as value, a numeral its
number and the end of input none; a token made by hand may carry any value.

* `TokenType.name` and `TokenType.ofName?` are inverse to each other on names (`ofName?_name`).
* `Token.spelling` is how messages name a token, `Token.text` how a listing shows it.
-/

namespace TinyArm

/-! ## Types of tokens -/

/-- What a token is. -/
inductive TokenType where
  | eof
  | identifier
  | number
  /-- A keyword that names a type. -/
  | typeName (type : DataType)
  /-- The keyword `return`. -/
  | returnWord
  | operator (op : Operator)
  | leftParen
  | rightParen
  | leftBrace
  | rightBrace
  | semicolon
  deriving DecidableEq

namespace TokenType

/-- The name of a token type in listings. -/
def name : TokenType → String
  | eof => "EOF"
  | identifier => "IDENTIFIER"
  | number => "NUMBER"
  | typeName .int => "INT"
  | typeName .void => "VOID"
  | returnWord => "RETURN"
  | operator .add => "PLUS"
  | operator .subtract => "MINUS"
  | operator .multiply => "STAR"
  | operator .divide => "SLASH"
  | leftParen => "LPAREN"
  | rightParen => "RPAREN"
  | leftBrace => "LBRACE"
  | rightBrace => "RBRACE"
  | semicolon => "SEMICOLON"

/-- Every token type. -/
def all : List TokenType :=
  [eof, identifier, number, typeName .int, typeName .void, returnWord, operator .add, operator .subtract,
    operator .multiply, operator .divide, leftParen, rightParen, leftBrace, rightBrace, semicolon]

/-- The token type of a name. -/
def ofName? (s : String) : Option TokenType := all.find? fun t => t.name == s

theorem ofName?_name (t : TokenType) : ofName? t.name = some t := by
  cases t with
  | typeName d => cases d <;> decide
  | operator o => cases o <;> decide
  | _ => decide

/-- The broad category of a token type. -/
def kind : TokenType → String
  | eof => "eof"
  | identifier => "identifier"
  | number => "integer_literal"
  | typeName _ => "type"
  | returnWord => "keyword"
  | operator _ => "operator"
  | leftParen | rightParen | leftBrace | rightBrace | semicolon => "separator"

/-- Whether a token type is a keyword that names a type. -/
def isTypeName : TokenType → Bool
  | typeName _ => true
  | _ => false

/-- The type of a word: a keyword, or else an identifier. -/
def ofWord (s : String) : TokenType :=
  match DataType.ofKeyword? s with
  | some t => typeName t
  | none => if s = "return" then returnWord else identifier

/-- The type of a token that is a single character. -/
def ofSymbol? : Char → Option TokenType
  | '+' => some (operator .add)
  | '-' => some (operator .subtract)
  | '*' => some (operator .multiply)
  | '/' => some (operator .divide)
  | '(' => some leftParen
  | ')' => some rightParen
  | '{' => some leftBrace
  | '}' => some rightBrace
  | ';' => some semicolon
  | _ => none

end TokenType

/-! ## Values of tokens -/

/-- The value that a token carries. -/
inductive Value where
  | absent
  | number (n : Int)
  | text (s : String)
  deriving DecidableEq

namespace Value

/-- A value as plain text. -/
def spelling : Value → String
  | absent => "None"
  | number n => toString n
  | text s => s

/-- A value as a literal: text is quoted. -/
def literal : Value → String
  | absent => "None"
  | number n => toString n
  | text s => Text.quote s

/-- The number of a value; a value that is none counts as zero. -/
def toInt : Value → Int
  | number n => n
  | _ => 0

instance : ToString Value := ⟨spelling⟩

end Value

/-! ## Tokens -/

/-- A token. -/
structure Token where
  type : TokenType
  value : Value
  location : Location
  deriving DecidableEq

namespace Token

/-- How messages name a token. -/
def spelling (t : Token) : String := if t.type = .eof then "end of input" else t.value.spelling

/-- How a listing shows a token: a value that is absent is left out. -/
def text (t : Token) : String :=
  let value := if t.value = .absent then "" else t.value.literal ++ ", "
  "Token(" ++ t.type.name ++ ", " ++ value ++ toString t.location.line ++ ":" ++ toString t.location.column ++ ")"

end Token

end TinyArm
