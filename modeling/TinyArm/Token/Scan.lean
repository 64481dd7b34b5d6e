import TinyArm.Failure
import TinyArm.Lexeme
import TinyArm.Text.Lines

/-!
# The tokens of a source

`Scan.ofSource` reads the lexemes of a source from left to right, keeps count of the position, and turns each word,
numeral and symbol into a token at the place where it starts. It ends at the end of the source or at the first fault.
`tokenize` gives the tokens with the failure, if any; a complete list ends in an end-of-input token. `tokens` gives a
complete list or a failure.
-/

namespace TinyArm

/-! ## Tokens of lexemes -/

/-- The type and value of a lexeme that is a token. Blanks and comments are none; a numeral may have too many digits to
be read, or too large a value. -/
def Lexeme.token : Lexeme → Except LexicalFault (Option (TokenType × Value))
  | blank _ | lineComment _ | blockComment _ => .ok none
  | word cs => .ok (some (TokenType.ofWord (String.ofList cs), .text (String.ofList cs)))
  | numeral cs =>
    if maxDigits < cs.length then .error (.literalLength cs.length)
    else
      let n := Nat.ofDigitChars 10 cs 0
      if maxLiteral < n then .error (.literalRange cs) else .ok (some (.number, .number n))
  | symbol c t => .ok (some (t, .text c.toString))

/-! ## Scanning -/

/-- What reading a source came to: the tokens, the place where it stopped, and the fault there, if any. -/
structure Scan where
  tokens : List Token
  stop : Position
  fault : Option LexicalFault
  deriving DecidableEq

namespace Scan

/-- The tokens of lexemes that start at `p`; `fault` is what comes after them, if it is not the end. -/
def ofLexemes (file : String) (fault : Option LexicalFault) (p : Position) : List Lexeme → Scan
  | [] => ⟨[], p, fault⟩
  | l :: ls =>
    match l.token with
    | .error f => ⟨[], p, some f⟩
    | .ok none => ofLexemes file fault (p.after l.text) ls
    | .ok (some (type, value)) =>
      let r := ofLexemes file fault (p.after l.text) ls
      ⟨⟨type, value, p.inFile file⟩ :: r.tokens, r.stop, r.fault⟩

/-- The tokens of a source. -/
def ofSource (source : List Char) (file : String) : Scan :=
  let r := lexemes source
  ofLexemes file r.2 .start r.1

/-- The end-of-input token of a scan that reached the end. -/
def eof (s : Scan) (file : String) : Token := ⟨.eof, .absent, s.stop.inFile file⟩

end Scan

/-- The failure that a fault at a position makes. All but an open comment show the line of the source. -/
def LexicalFault.failure (source : List Char) (file : String) (p : Position) : LexicalFault → Failure
  | openComment => .report .openComment (p.inFile file)
  | character c => .diagnostic ⟨.character c, p.inFile file, some (String.ofList (Text.newlineLine source p.line))⟩
  | literalRange cs =>
    .diagnostic ⟨.literalRange (String.ofList cs), p.inFile file,
      some (String.ofList (Text.newlineLine source p.line))⟩
  | literalLength n => .literalLength n

/-! ## Results -/

/-- The tokens of a source, with the end-of-input token or the failure that stopped the reading. -/
def tokenize (source file : String) : List Token × Option Failure :=
  let s := Scan.ofSource source.toList file
  match s.fault with
  | none => (s.tokens ++ [s.eof file], none)
  | some f => (s.tokens, some (f.failure source.toList file s.stop))

/-- The tokens of a whole source. -/
def tokens (source file : String) : Except Failure (List Token) :=
  match tokenize source file with
  | (ts, none) => .ok ts
  | (_, some f) => .error f

end TinyArm
