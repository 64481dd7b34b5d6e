import TinyArm.Text.Hex
import TinyArm.Text.Printable

/-!
# Quoted text

`quote s` is a one-line literal for `s`. It stands in apostrophes, or in double quotes when `s` holds an apostrophe and
no double quote. The backslash and the quote in use are escaped with a backslash; newline, tab and carriage return are
written `\n`, `\t` and `\r`; any other character that is not printable is written by its code, with two, four or eight
hexadecimal digits.
-/

namespace TinyArm.Text

/-- The quote that `s` is written in. -/
def quoteFor (s : List Char) : Char := if s.contains '\'' && !s.contains '"' then '"' else '\''

/-- A character that is not printable, written by its code. -/
def escapeCode (n : Nat) : List Char :=
  if n < 0x100 then '\\' :: 'x' :: hexDigits 2 n
  else if n < 0x10000 then '\\' :: 'u' :: hexDigits 4 n
  else '\\' :: 'U' :: hexDigits 8 n

/-- A character as it stands between the quotes `q`. -/
def escape (q c : Char) : List Char :=
  if c = q ∨ c = '\\' then ['\\', c]
  else if c = '\n' then ['\\', 'n']
  else if c = '\t' then ['\\', 't']
  else if c = '\r' then ['\\', 'r']
  else if isPrintable c then [c]
  else escapeCode c.toNat

/-- The quoted form of a text. -/
def quote (s : String) : String :=
  let q := quoteFor s.toList
  String.ofList (q :: s.toList.flatMap (escape q) ++ [q])

/-- A printable character other than the quote and the backslash stands for itself. -/
theorem escape_of_isPrintable {q c : Char} (hq : c ≠ q) (hb : c ≠ '\\') (hp : isPrintable c = true) :
    escape q c = [c] := by
  have hn : c ≠ '\n' ∧ c ≠ '\t' ∧ c ≠ '\r' := by
    refine ⟨?_, ?_, ?_⟩ <;> rintro rfl <;> exact absurd hp (by decide)
  simp [escape, hq, hb, hn, hp]

end TinyArm.Text
