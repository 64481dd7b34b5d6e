import TinyArm.Token

/-!
# Lexemes

A source falls into lexemes: blanks, comments, words, numerals and symbols. `Lexeme.next` takes the longest lexeme at
the front of a text, or says what is wrong there; `lexemes` repeats it.

* `Lexeme.text_append_of_next`, `textOf_lexemes`: the texts of the lexemes, put together, are the source, or what comes
  before the offending place.
* `Lexeme.text_ne_nil_of_next`: a lexeme is never empty, so the rest of a text is shorter than the text.
-/

namespace TinyArm

/-- A piece of a source. -/
inductive Lexeme where
  /-- A blank character. -/
  | blank (c : Char)
  /-- A comment up to the end of its line; `body` comes after the slashes. -/
  | lineComment (body : List Char)
  /-- A comment up to its closing mark; `body` comes between the marks. -/
  | blockComment (body : List Char)
  /-- A name or a keyword. -/
  | word (cs : List Char)
  /-- A run of digits. -/
  | numeral (cs : List Char)
  /-- An operator or a separator, with the type of its token. -/
  | symbol (c : Char) (type : TokenType)
  deriving DecidableEq

/-- Why a source does not fall into lexemes. -/
inductive LexicalFault where
  /-- A comment that is not closed. -/
  | openComment
  /-- A character that starts no lexeme. -/
  | character (c : Char)
  /-- A numeral beyond 32 bits. -/
  | literalRange (cs : List Char)
  /-- A numeral that is too long to read. -/
  | literalLength (digits : Nat)
  deriving DecidableEq

/-! ## Classes of characters -/

/-- The characters that only part lexemes. -/
def isBlank (c : Char) : Bool := c = ' ' || c = '\t' || c = '\n' || c = '\r' || c = '\x0c' || c = '\x0b'

/-- The characters that start a word: letters of ASCII and the underscore. -/
def isWordStart (c : Char) : Bool := c.isAlpha || c = '_'

/-- The characters that go on with a word. -/
def isWordPart (c : Char) : Bool := isWordStart c || c.isDigit

/-! ## One lexeme -/

/-- What comes before the first closing mark of a comment, and what comes after it. -/
def closeComment? : List Char → Option (List Char × List Char)
  | [] => none
  | '*' :: '/' :: rest => some ([], rest)
  | c :: rest => (closeComment? rest).map fun p => (c :: p.1, p.2)

namespace Lexeme

/-- The characters of a lexeme. -/
def text : Lexeme → List Char
  | blank c => [c]
  | lineComment body => '/' :: '/' :: body
  | blockComment body => '/' :: '*' :: (body ++ ['*', '/'])
  | word cs => cs
  | numeral cs => cs
  | symbol c _ => [c]

/-- The longest lexeme of the text `c :: cs`, and the rest of the text. -/
def next (c : Char) (cs : List Char) : Except LexicalFault (Lexeme × List Char) :=
  if isBlank c then .ok (blank c, cs)
  else if c = '/' ∧ cs.head? = some '/' then
    .ok (lineComment (cs.tail.takeWhile (· ≠ '\n')), cs.tail.dropWhile (· ≠ '\n'))
  else if c = '/' ∧ cs.head? = some '*' then
    match closeComment? cs.tail with
    | some (body, rest) => .ok (blockComment body, rest)
    | none => .error .openComment
  else if isWordStart c then .ok (word (c :: cs.takeWhile isWordPart), cs.dropWhile isWordPart)
  else if c.isDigit then .ok (numeral (c :: cs.takeWhile Char.isDigit), cs.dropWhile Char.isDigit)
  else
    match TokenType.ofSymbol? c with
    | some t => .ok (symbol c t, cs)
    | none => .error (.character c)

end Lexeme

/-- A closed comment is its body, the closing mark and the rest. -/
theorem append_of_closeComment? {cs : List Char} {p : List Char × List Char} (h : closeComment? cs = some p) :
    p.1 ++ '*' :: '/' :: p.2 = cs := by
  fun_induction closeComment? cs generalizing p with
  | case1 => cases h
  | case2 rest => cases h; rfl
  | case3 c rest _ ih =>
    obtain ⟨q, hq, rfl⟩ := Option.map_eq_some_iff.1 h
    simp [ih hq]

namespace Lexeme

/-- A lexeme and the rest make up the text. -/
theorem text_append_of_next {c : Char} {cs : List Char} {l : Lexeme} {rest : List Char}
    (h : next c cs = .ok (l, rest)) : l.text ++ rest = c :: cs := by
  unfold next at h
  split at h
  · cases h; rfl
  · split at h
    · next hc =>
      cases h
      obtain ⟨rfl, hs⟩ := hc
      obtain ⟨ds, rfl⟩ := List.head?_eq_some_iff.1 hs
      simp [text, List.takeWhile_append_dropWhile]
    · split at h
      · next hc =>
        obtain ⟨rfl, hs⟩ := hc
        obtain ⟨ds, rfl⟩ := List.head?_eq_some_iff.1 hs
        split at h
        · next hb => cases h; simpa [text] using append_of_closeComment? hb
        · cases h
      · split at h
        · cases h; simp [text, List.takeWhile_append_dropWhile]
        · split at h
          · cases h; simp [text, List.takeWhile_append_dropWhile]
          · split at h
            · cases h; rfl
            · cases h

theorem text_ne_nil_of_next {c : Char} {cs : List Char} {l : Lexeme} {rest : List Char}
    (h : next c cs = .ok (l, rest)) : l.text ≠ [] := by
  unfold next at h
  repeat' split at h
  all_goals cases h
  all_goals simp [text]

theorem length_of_next {c : Char} {cs : List Char} {l : Lexeme} {rest : List Char}
    (h : next c cs = .ok (l, rest)) : rest.length ≤ cs.length := by
  have e := congrArg List.length (text_append_of_next h)
  have p := List.length_pos_iff.2 (text_ne_nil_of_next h)
  simp only [List.length_append, List.length_cons] at e
  omega

end Lexeme

/-! ## All lexemes -/

/-- The lexemes of a text, up to its end or to the first fault. -/
def lexemes : List Char → List Lexeme × Option LexicalFault
  | [] => ([], none)
  | c :: cs =>
    match h : Lexeme.next c cs with
    | .ok (l, rest) =>
      have := Lexeme.length_of_next h
      let r := lexemes rest
      (l :: r.1, r.2)
    | .error f => ([], some f)
termination_by cs => cs.length

/-- The texts of lexemes put together. -/
def textOf (ls : List Lexeme) : List Char := ls.flatMap Lexeme.text

@[simp] theorem textOf_nil : textOf [] = [] := rfl

@[simp] theorem textOf_cons (l : Lexeme) (ls : List Lexeme) : textOf (l :: ls) = l.text ++ textOf ls := rfl

/-- Lexemes lose nothing: they are a front part of the source, and all of it when there is no fault. -/
theorem textOf_lexemes (cs : List Char) :
    ∃ rest, textOf (lexemes cs).1 ++ rest = cs ∧ ((lexemes cs).2 = none → rest = []) := by
  fun_induction lexemes cs with
  | case1 => exact ⟨[], rfl, fun _ => rfl⟩
  | case2 c cs l rest h _ r ih =>
    obtain ⟨tail, ht, hn⟩ := ih
    exact ⟨tail, by rw [← Lexeme.text_append_of_next h, ← ht]; simp [r], hn⟩
  | case3 c cs f h => exact ⟨c :: cs, by simp, by simp⟩

end TinyArm
