import TinyArm.Proofs.Reports
import TinyArm.Proofs.Sources

/-!
# Literals

A scan reads a numeral of at most `maxDigits` digits, and reports it if 32 bits do not hold its number. A longer numeral
is not read, whatever its number, and ends a compilation with a failure that is no report.

* `readable_or_exists_literal`: lexemes can be read up to a first literal that cannot.
* `ReachesLiteral.fault_eq`, `ReachesLiteral.mem_tokens`: what a scan makes of the literal that it comes to.
* `compile_eq_literalLength_iff`: a compilation fails for a length exactly if the scan comes to a literal that is too
  long.
* `compiles_or_reports_iff`: **a source compiles or is reported, unless it has such a literal**; a shorter literal
  becomes a number or is reported.
* `zeros_not_reported`: a literal of number zero that is too long.
-/

namespace TinyArm

/-! ## Literals that can be read -/

/-- **Lexemes can be read up to a first literal that cannot.** -/
theorem readable_or_exists_literal (ls : List Lexeme) : (∀ l ∈ ls, l.Readable) ∨
    ∃ before ds after, ls = before ++ .numeral ds :: after ∧ (∀ l ∈ before, l.Readable) ∧
      ¬(Lexeme.numeral ds).Readable := by
  induction ls with
  | nil => exact .inl (by simp)
  | cons l ls ih =>
    by_cases hl : l.Readable
    · rcases ih with ih | ⟨before, ds, after, rfl, hb, hd⟩
      · exact .inl (List.forall_mem_cons.2 ⟨hl, ih⟩)
      · exact .inr ⟨l :: before, ds, after, rfl, List.forall_mem_cons.2 ⟨hl, hb⟩, hd⟩
    · cases l with
      | numeral ds => exact .inr ⟨[], ds, ls, rfl, by simp, hl⟩
      | _ => exact absurd rfl hl

/-! ## Coming to a literal -/

/-- Whether a scan of a source comes to the literal `ds` behind the lexemes `before`: the literals among these are
read. -/
structure ReachesLiteral (source : List Char) (before : List Lexeme) (ds : List Char) : Prop where
  exists_eq : ∃ after, (lexemes source).1 = before ++ .numeral ds :: after
  read : ∀ cs, .numeral cs ∈ before → cs.length ≤ maxDigits ∧ Nat.ofDigitChars 10 cs 0 ≤ maxLiteral

namespace ReachesLiteral

variable {source : List Char} {before : List Lexeme} {ds : List Char}

theorem readable (h : ReachesLiteral source before ds) : ∀ l ∈ before, l.Readable :=
  fun _ hl => Lexeme.readable_iff.2 fun cs e => h.read cs (e ▸ hl)

theorem of_readable {after : List Lexeme} (he : (lexemes source).1 = before ++ .numeral ds :: after)
    (hr : ∀ l ∈ before, l.Readable) : ReachesLiteral source before ds :=
  ⟨⟨after, he⟩, fun cs hc => Lexeme.readable_iff.1 (hr _ hc) cs rfl⟩

/-- A literal that cannot be read ends the scan where it starts, behind the tokens before it. -/
theorem ofSource_eq (h : ReachesLiteral source before ds) {g : LexicalFault}
    (hg : (Lexeme.numeral ds).token = .error g) (file : String) : Scan.ofSource source file =
      ⟨(Scan.ofLexemes file none .start before).tokens, Position.start.after (textOf before), some g⟩ := by
  obtain ⟨after, he⟩ := h.exists_eq
  rw [Scan.ofSource, he, Scan.ofLexemes_append h.readable, Scan.ofLexemes, hg, List.append_nil]

theorem fault_eq (h : ReachesLiteral source before ds) {g : LexicalFault}
    (hg : (Lexeme.numeral ds).token = .error g) (file : String) :
    (Scan.ofSource source file).fault = some g ∧
      (Scan.ofSource source file).stop = Position.start.after (textOf before) := by
  rw [h.ofSource_eq hg]
  exact ⟨rfl, rfl⟩

/-- A literal that can be read becomes a token at the place where it starts. -/
theorem mem_tokens (h : ReachesLiteral source before ds) {k : TokenType × Value}
    (hk : (Lexeme.numeral ds).token = .ok (some k)) (file : String) :
    ⟨k.1, k.2, (Position.start.after (textOf before)).inFile file⟩ ∈ (Scan.ofSource source file).tokens := by
  obtain ⟨after, he⟩ := h.exists_eq
  rw [Scan.ofSource, he, Scan.ofLexemes_append h.readable, Scan.ofLexemes_cons_some hk]
  exact List.mem_append_right _ List.mem_cons_self

end ReachesLiteral

/-! ## Literals that are too long -/

/-- A text that no lexeme can be taken from starts with a comment that is not closed, or with a character of no kind. -/
theorem Lexeme.next_eq_error_cases {c : Char} {cs : List Char} {g : LexicalFault} (h : next c cs = .error g) :
    (∃ ds, c = '/' ∧ cs = '*' :: ds ∧ closeComment? ds = none ∧ g = .openComment) ∨
      isBlank c = false ∧ isWordPart c = false ∧ TokenType.ofSymbol? c = none ∧ g = .character c := by
  unfold next at h
  repeat' split at h
  all_goals cases h
  · next hc _ hn =>
    obtain ⟨ds, rfl⟩ := List.head?_eq_some_iff.1 hc.2
    exact .inl ⟨ds, hc.1, rfl, hn, rfl⟩
  · next hb _ _ hw hd _ ht =>
    exact .inr ⟨by simpa using hb, by simp [isWordPart, hw, hd], ht, rfl⟩

/-- A source fails to fall into lexemes for an open comment or a character only. -/
theorem fault_of_lexemes {cs : List Char} {g : LexicalFault} (h : (lexemes cs).2 = some g) :
    g = .openComment ∨ ∃ d, g = .character d := by
  fun_induction lexemes cs with
  | case1 => cases h
  | case2 c cs l rest hn _ r ih => exact ih h
  | case3 c cs f hn =>
    cases h
    rcases Lexeme.next_eq_error_cases hn with ⟨-, -, -, -, hg⟩ | ⟨-, -, -, hg⟩
    · exact .inl hg
    · exact .inr ⟨c, hg⟩

/-- A scan ends for a length exactly where it comes to a literal that is too long. -/
theorem Scan.fault_eq_literalLength_iff {source : List Char} (file : String) {n : Nat} :
    (ofSource source file).fault = some (.literalLength n) ↔
      ∃ before ds, ReachesLiteral source before ds ∧ maxDigits < ds.length ∧ n = ds.length := by
  constructor
  · intro h
    rcases readable_or_exists_literal (lexemes source).1 with hr | ⟨before, ds, after, he, hb, hd⟩
    · rw [ofSource, ofLexemes_of_readable hr] at h
      rcases fault_of_lexemes h with hg | ⟨d, hg⟩ <;> cases hg
    · have hreach := ReachesLiteral.of_readable he hb
      rcases Lexeme.token_numeral_cases ds with ⟨hl, ht⟩ | ⟨-, -, ht⟩ | ⟨hl, hn, -⟩
      · have hf := (hreach.fault_eq ht file).1
        rw [h] at hf
        cases hf
        exact ⟨before, ds, hreach, hl, rfl⟩
      · have hf := (hreach.fault_eq ht file).1
        rw [h] at hf
        cases hf
      · exact absurd (Lexeme.readable_iff.2 fun _ e => Lexeme.numeral.inj e ▸ ⟨hl, hn⟩) hd
  · rintro ⟨before, ds, h, hl, rfl⟩
    exact (h.fault_eq (Lexeme.token_numeral_long hl) file).1

/-- A source fails for a length exactly if its scan comes to a literal that is too long. -/
theorem tokens_eq_literalLength_iff {source : String} (file : String) {n : Nat} :
    tokens source file = .error (.literalLength n) ↔
      ∃ before ds, ReachesLiteral source.toList before ds ∧ maxDigits < ds.length ∧ n = ds.length := by
  rw [← Scan.fault_eq_literalLength_iff file, tokens_eq_error_iff]
  constructor
  · rintro ⟨g, hg, h⟩
    cases g <;> cases h
    exact hg
  · exact fun h => ⟨_, h, rfl⟩

/-! ## Compiling -/

section Compiling

variable {options : Options} {source file : String}

theorem compile_of_tokens_eq_error {f : Failure} (h : tokens source file = .error f) :
    compile options source file = .error f :=
  bind_eq_error_iff.2 (.inl h)

/-- A source compiles, is reported, or has a literal of too many digits. -/
theorem compile_cases (options : Options) (source file : String) :
    (∃ c, compile options source file = .ok c) ∨ (∃ d, compile options source file = .error (.diagnostic d)) ∨
      ∃ n, compile options source file = .error (.literalLength n) := by
  cases hc : compile options source file with
  | ok c => exact .inl ⟨c, rfl⟩
  | error f =>
    rcases compile_eq_error_cases hc with ⟨d, rfl, -⟩ | ⟨d, rfl, -⟩ | ⟨d, rfl, -⟩ | ⟨n, rfl, -⟩
    · exact .inr (.inl ⟨d, rfl⟩)
    · exact .inr (.inl ⟨d, rfl⟩)
    · exact .inr (.inl ⟨d, rfl⟩)
    · exact .inr (.inr ⟨n, rfl⟩)

/-- **A compilation fails for a length exactly if the scan comes to a literal that is too long.** -/
theorem compile_eq_literalLength_iff {n : Nat} : compile options source file = .error (.literalLength n) ↔
    ∃ before ds, ReachesLiteral source.toList before ds ∧ maxDigits < ds.length ∧ n = ds.length := by
  rw [← tokens_eq_literalLength_iff file]
  constructor
  · intro h
    rcases compile_eq_error_cases h with ⟨d, hd, -⟩ | ⟨d, hd, -⟩ | ⟨d, hd, -⟩ | ⟨m, hm, ht⟩
    · cases hd
    · cases hd
    · cases hd
    · exact hm ▸ ht
  · exact compile_of_tokens_eq_error

namespace ReachesLiteral

variable {before : List Lexeme} {ds : List Char}

/-- A literal within the limits becomes a token with its number. -/
theorem mem_tokenize (h : ReachesLiteral source.toList before ds) (hl : ds.length ≤ maxDigits)
    (hn : Nat.ofDigitChars 10 ds 0 ≤ maxLiteral) :
    ⟨.number, .number (Nat.ofDigitChars 10 ds 0), (Position.start.after (textOf before)).inFile file⟩ ∈
      (tokenize source file).1 := by
  have hm := h.mem_tokens (Lexeme.token_numeral hl hn) file
  simp only [tokenize]
  split
  · exact List.mem_append_left _ hm
  · exact hm

/-- A literal of too large a number is reported where it starts. -/
theorem exists_compile_eq (h : ReachesLiteral source.toList before ds) (hl : ds.length ≤ maxDigits)
    (hn : maxLiteral < Nat.ofDigitChars 10 ds 0) : ∃ line, compile options source file =
      .error (.diagnostic ⟨.literalRange (String.ofList ds), (Position.start.after (textOf before)).inFile file,
        some line⟩) := by
  obtain ⟨hf, hs⟩ := h.fault_eq (Lexeme.token_numeral_large hl hn) file
  have ht := tokens_eq_error_iff.2 ⟨_, hf, rfl⟩
  rw [hs] at ht
  exact ⟨_, compile_of_tokens_eq_error ht⟩

end ReachesLiteral

end Compiling

/-- **A source compiles or is reported, unless its scan comes to a literal of more than `maxDigits` digits.** A shorter
literal becomes a token with its number, or is reported if 32 bits do not hold this. -/
theorem compiles_or_reports_iff (options : Options) (source file : String) :
    (((∃ c, compile options source file = .ok c) ∨ ∃ d, compile options source file = .error (.diagnostic d)) ↔
      ∀ before ds, ReachesLiteral source.toList before ds → ds.length ≤ maxDigits) ∧
    ∀ before ds, ReachesLiteral source.toList before ds → ds.length ≤ maxDigits →
      (Nat.ofDigitChars 10 ds 0 ≤ maxLiteral →
        ⟨.number, .number (Nat.ofDigitChars 10 ds 0), (Position.start.after (textOf before)).inFile file⟩ ∈
          (tokenize source file).1) ∧
      (maxLiteral < Nat.ofDigitChars 10 ds 0 → ∃ line, compile options source file =
        .error (.diagnostic ⟨.literalRange (String.ofList ds), (Position.start.after (textOf before)).inFile file,
          some line⟩)) := by
  refine ⟨⟨fun h before ds hd => Nat.not_lt.1 fun hl => ?_, fun h => ?_⟩,
    fun before ds hd hl => ⟨hd.mem_tokenize hl, hd.exists_compile_eq hl⟩⟩
  · rw [compile_eq_literalLength_iff.2 ⟨before, ds, hd, hl, rfl⟩] at h
    rcases h with ⟨c, h⟩ | ⟨d, h⟩ <;> cases h
  · rcases compile_cases options source file with hc | hc | ⟨n, hc⟩
    · exact .inl hc
    · exact .inr hc
    · obtain ⟨before, ds, hd, hl, -⟩ := compile_eq_literalLength_iff.1 hc
      exact absurd (h before ds hd) (Nat.not_le.2 hl)

/-- Two literals, of the greatest number that 32 bits hold and of the next. -/
def limits : String := "04294967295 4294967296"

theorem compiles_or_reports_limits :
    (∃ d, compile {} limits "t.c" = .error (.diagnostic d) ∧ d.cause = .literalRange "4294967296" ∧
      d.location = some ⟨"t.c", 1, 13⟩) ∧
    ⟨.number, .number 4294967295, ⟨"t.c", 1, 1⟩⟩ ∈ (tokenize limits "t.c").1 := by
  have hls : (lexemes limits.toList).1 =
      [.numeral "04294967295".toList, .blank ' ', .numeral "4294967296".toList] := by
    decide +kernel
  have h₁ : ReachesLiteral limits.toList [] "04294967295".toList := ⟨⟨_, hls⟩, nofun⟩
  have h₂ : ReachesLiteral limits.toList [.numeral "04294967295".toList, .blank ' '] "4294967296".toList :=
    .of_readable hls (by simp [Lexeme.readable_iff, maxDigits, maxLiteral, Nat.ofDigitChars])
  obtain ⟨-, h⟩ := compiles_or_reports_iff {} limits "t.c"
  obtain ⟨line, hc⟩ := (h _ _ h₂ (by decide)).2 (by decide)
  exact ⟨⟨_, hc, rfl, rfl⟩, (h _ _ h₁ (by decide)).1 (by decide)⟩

/-! ## A literal of many zeros -/

/-- The lexemes of a function before the literal that it returns. -/
def beforeLiteral : List Lexeme :=
  [.word "int".toList, .blank ' ', .word "main".toList, .symbol '(' .leftParen, .symbol ')' .rightParen, .blank ' ',
    .symbol '\x7b' .leftBrace, .blank ' ', .word "return".toList, .blank ' ']

/-- The lexemes of the function behind the literal. -/
def afterLiteral : List Lexeme := [.symbol ';' .semicolon, .blank ' ', .symbol '\x7d' .rightBrace]

/-- The source `int main() { return 0; }` with the literal `ds`. -/
def returningLiteral (ds : List Char) : String := String.ofList (textOf (beforeLiteral ++ .numeral ds :: afterLiteral))

theorem spaced_returningLiteral {ds : List Char} (h : (Lexeme.numeral ds).Formed) :
    Spaced (beforeLiteral ++ .numeral ds :: afterLiteral) := by
  have hbrace : Spaced [.symbol '\x7d' .rightBrace] := Spaced.nil.symbol rfl (by decide)
  have hafter : Spaced afterLiteral := (hbrace.blank rfl).symbol rfl (by decide)
  have hvalue : Spaced (.numeral ds :: afterLiteral) := .cons h (breaksOff_cons (by decide)) hafter
  have hreturn := (hvalue.blank (c := ' ') rfl).word formed_return (breaksOff_cons rfl)
  have hbody := (hreturn.blank (c := ' ') rfl).symbol (c := '\x7b') (t := .leftBrace) rfl (by decide)
  have hparens := ((hbody.blank (c := ' ') rfl).symbol (c := ')') rfl (by decide)).symbol (c := '(') rfl (by decide)
  have hname : (Lexeme.word "main".toList).Formed := ⟨'m', ['a', 'i', 'n'], rfl, rfl, List.all_eq_true.1 rfl⟩
  have hmain := hparens.word hname (breaksOff_cons rfl)
  exact (hmain.blank (c := ' ') rfl).word (formed_keyword .int) (breaksOff_cons rfl)

theorem reachesLiteral_returningLiteral {ds : List Char} (h : (Lexeme.numeral ds).Formed) :
    ReachesLiteral (returningLiteral ds).toList beforeLiteral ds := by
  have hls : (lexemes (returningLiteral ds).toList).1 = beforeLiteral ++ .numeral ds :: afterLiteral := by
    rw [returningLiteral, String.toList_ofList, lexemes_textOf (spaced_returningLiteral h)]
  exact .of_readable hls (by simp [beforeLiteral, Lexeme.readable_iff])

/-- A literal of more zeros than are read ends the compilation, though its number is zero. -/
theorem compile_returningLiteral_zeros {n : Nat} (h : maxDigits < n) (options : Options) (file : String) :
    Nat.ofDigitChars 10 (List.replicate n '0') 0 = 0 ∧
      compile options (returningLiteral (List.replicate n '0')) file = .error (.literalLength n) := by
  have hf : (Lexeme.numeral (List.replicate n '0')).Formed := by
    refine ⟨fun e => ?_, fun c hc => ?_⟩
    · rw [List.replicate_eq_nil_iff] at e
      omega
    · rw [List.eq_of_mem_replicate hc]
      rfl
  have hl : (List.replicate n '0').length = n := List.length_replicate
  refine ⟨by rw [Nat.ofDigitChars_replicate_zero, Nat.mul_zero], ?_⟩
  exact compile_eq_literalLength_iff.2 ⟨_, _, reachesLiteral_returningLiteral hf, hl.symm ▸ h, hl.symm⟩

/-- **A literal of 4301 zeros neither compiles nor is reported.** -/
theorem zeros_not_reported : Nat.ofDigitChars 10 (List.replicate 4301 '0') 0 = 0 ∧
    ¬((∃ c, compile {} (returningLiteral (List.replicate 4301 '0')) "t.c" = .ok c) ∨
      ∃ d, compile {} (returningLiteral (List.replicate 4301 '0')) "t.c" = .error (.diagnostic d)) := by
  obtain ⟨hz, hc⟩ := compile_returningLiteral_zeros (n := 4301) (by decide) {} "t.c"
  refine ⟨hz, ?_⟩
  rw [hc]
  rintro (⟨c, h⟩ | ⟨d, h⟩) <;> cases h

end TinyArm
