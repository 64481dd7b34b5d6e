import TinyArm.Node.Printer
import TinyArm.Proofs.Spelling

/-!
# Sources of trees

A tree of literals, calls and operators is written as a source with `expressionText` for its values. The source is put
together from lexemes that are spaced and can be read, so these are what it falls into.

* `toList_programSource`: the source of a program is the text of its lexemes.
* `spaced_program`: the lexemes are spaced, for any blanks between statements and functions.
* `exists_tokens_programSource`: **the tokens of the source spell its lexemes.**
-/

namespace TinyArm

/-! ## Trees that can be written -/

/-- A letter or underscore with letters, underscores and digits after it that is no keyword. -/
structure IsName (s : String) : Prop where
  formed : ∃ c cs, s.toList = c :: cs ∧ isWordStart c = true ∧ ∀ d ∈ cs, isWordPart d = true
  ne_int : s ≠ "int"
  ne_void : s ≠ "void"
  ne_return : s ≠ "return"

/-- An expression of literals of 32 bits, calls of names and operators. -/
inductive Writable : Tree → Prop where
  | number (loc) {n : Int} : 0 ≤ n → n ≤ 0xFFFFFFFF → Writable (.number loc n)
  | call (loc) {name : String} : IsName name → Writable (.call loc name)
  | binary (loc op) {left right : Tree} : Writable left → Writable right →
      Writable (.binary loc (some op) left right)

/-- A `return` of nothing or of an expression that can be written. -/
inductive WritableReturn : Tree → Prop where
  | nothing (loc) : WritableReturn (.ret loc .absent)
  | value (loc) {e : Tree} : Writable e → WritableReturn (.ret loc e)

/-- A function with a name and `return`s. -/
inductive WritableFunction : Tree → Prop where
  | intro (loc type) {name : String} {body : List Tree} : IsName name → (∀ s ∈ body, WritableReturn s) →
      WritableFunction (.function loc name type body)

theorem IsName.newline_not_mem {s : String} (h : IsName s) : '\n' ∉ s.toList := by
  obtain ⟨c, cs, hs, hc, hcs⟩ := h.formed
  have hn : isWordPart '\n' = false := by decide
  rw [hs, List.mem_cons, not_or]
  constructor
  · rintro rfl
    rw [isWordPart_of_isWordStart hc] at hn
    cases hn
  · intro hm
    rw [hcs _ hm] at hn
    cases hn

/-! ## Sources -/

/-- The source of a `return`. -/
def statementSource : Tree → String
  | .ret _ .absent => "return;"
  | .ret _ e => "return " ++ e.expressionText ++ ";"
  | _ => ""

/-- The source of a function; `gap` comes after its opening brace and after every statement. -/
def functionSource (gap : String) : Tree → String
  | .function _ name type body =>
    type.keyword ++ " " ++ name ++ "() \x7b" ++ gap ++
      String.join (body.map fun s => statementSource s ++ gap) ++ "\x7d"
  | _ => ""

/-- The source of a list of functions; `gap` also comes after every function. -/
def programSource (gap : String) (fs : List Tree) : String :=
  String.join (fs.map fun f => functionSource gap f ++ gap)

/-! ## The lexemes of sources -/

/-- The lexemes of an expression. -/
def expressionLexemes : Tree → List Lexeme
  | .number _ n => [.numeral (toString n).toList]
  | .call _ name => [.word name.toList, .symbol '(' .leftParen, .symbol ')' .rightParen]
  | .binary _ (some op) left right =>
    .symbol '(' .leftParen :: (expressionLexemes left ++ .blank ' ' :: .symbol op.symbol (.operator op) :: .blank ' ' ::
      (expressionLexemes right ++ [.symbol ')' .rightParen]))
  | _ => []

/-- The lexemes of a `return`. -/
def statementLexemes : Tree → List Lexeme
  | .ret _ .absent => [.word "return".toList, .symbol ';' .semicolon]
  | .ret _ e => .word "return".toList :: .blank ' ' :: (expressionLexemes e ++ [.symbol ';' .semicolon])
  | _ => []

/-- Items with the same blanks after each. -/
def eachLexemes (gap : String) (L : Tree → List Lexeme) (items : List Tree) : List Lexeme :=
  items.flatMap fun n => L n ++ gap.toList.map .blank

/-- The lexemes of a function. -/
def functionLexemes (gap : String) : Tree → List Lexeme
  | .function _ name type body =>
    .word type.keyword.toList :: .blank ' ' :: .word name.toList :: .symbol '(' .leftParen :: .symbol ')' .rightParen ::
      .blank ' ' :: .symbol '\x7b' .leftBrace ::
      (gap.toList.map .blank ++ (eachLexemes gap statementLexemes body ++ [.symbol '\x7d' .rightBrace]))
  | _ => []

/-- The lexemes of a list of functions. -/
def programLexemes (gap : String) (fs : List Tree) : List Lexeme := eachLexemes gap (functionLexemes gap) fs

@[simp] theorem textOf_append (ls ms : List Lexeme) : textOf (ls ++ ms) = textOf ls ++ textOf ms :=
  List.flatMap_append

@[simp] theorem textOf_blanks (cs : List Char) : textOf (cs.map .blank) = cs := by
  induction cs with
  | nil => rfl
  | cons c cs ih => simp [Lexeme.text, ih]

theorem toList_expressionText {e : Tree} (h : Writable e) :
    e.expressionText.toList = textOf (expressionLexemes e) := by
  induction h with
  | number => simp [Node.expressionText, expressionLexemes, Lexeme.text]
  | call =>
    rw [Node.expressionText, expressionLexemes, String.toList_append]
    rfl
  | binary loc op _ _ hl hr =>
    simp [Node.expressionText, expressionLexemes, Lexeme.text, Node.operatorText, hl, hr]

/-- A value to be returned is not absent. -/
theorem Writable.ne_absent {e : Tree} (h : Writable e) : e ≠ .absent := by
  rintro rfl
  cases h

theorem toList_statementSource {s : Tree} (h : WritableReturn s) :
    (statementSource s).toList = textOf (statementLexemes s) := by
  cases h with
  | nothing => simp [statementSource, statementLexemes, Lexeme.text]
  | value loc he =>
    rw [statementSource.eq_2 _ _ he.ne_absent, statementLexemes.eq_2 _ _ he.ne_absent]
    simp [toList_expressionText he, Lexeme.text]

theorem toList_each (gap : String) {S : Tree → String} {L : Tree → List Lexeme} {items : List Tree}
    (h : ∀ n ∈ items, (S n).toList = textOf (L n)) :
    (String.join (items.map fun n => S n ++ gap)).toList = textOf (eachLexemes gap L items) := by
  induction items with
  | nil => rfl
  | cons n items ih =>
    have hn := h n List.mem_cons_self
    have hi := ih fun m hm => h m (List.mem_cons_of_mem _ hm)
    simp only [eachLexemes] at hi
    simp [eachLexemes, hn, hi]

theorem toList_functionSource (gap : String) {f : Tree} (h : WritableFunction f) :
    (functionSource gap f).toList = textOf (functionLexemes gap f) := by
  obtain ⟨loc, type, hn, hb⟩ := h
  have he := toList_each gap fun s hs => toList_statementSource (hb s hs)
  simp [functionSource, functionLexemes, he, Lexeme.text]

/-- The source of a program is the text of its lexemes. -/
theorem toList_programSource (gap : String) {fs : List Tree} (h : ∀ f ∈ fs, WritableFunction f) :
    (programSource gap fs).toList = textOf (programLexemes gap fs) :=
  toList_each gap fun f hf => toList_functionSource gap (h f hf)

/-! ## The lexemes are spaced -/

/-- Whether any spaced lexemes may come after the lexemes `ls`. -/
def Fits (ls : List Lexeme) : Prop := ∀ ms, Spaced ms → Spaced (ls ++ ms)

theorem Fits.append {ls ms : List Lexeme} (hl : Fits ls) (hm : Fits ms) : Fits (ls ++ ms) := by
  intro ns hn
  rw [List.append_assoc]
  exact hl _ (hm _ hn)

theorem fits_blanks {cs : List Char} (h : ∀ c ∈ cs, isBlank c = true) : Fits (cs.map .blank) := by
  induction cs with
  | nil => exact fun _ hm => hm
  | cons c cs ih =>
    have hc : isBlank c = true := h c List.mem_cons_self
    have hs := ih fun d hd => h d (List.mem_cons_of_mem _ hd)
    exact fun ms hm => (hs ms hm).blank hc

theorem fits_each {gap : String} (hg : ∀ c ∈ gap.toList, isBlank c = true) {L : Tree → List Lexeme} {items : List Tree}
    (h : ∀ n ∈ items, Fits (L n)) : Fits (eachLexemes gap L items) := by
  induction items with
  | nil => exact fun _ hm => hm
  | cons n items ih =>
    have hn := (h n List.mem_cons_self).append (fits_blanks hg)
    exact hn.append (ih fun m hm => h m (List.mem_cons_of_mem _ hm))

theorem IsName.formed_word {s : String} (h : IsName s) : (Lexeme.word s.toList).Formed := h.formed

theorem formed_keyword (type : DataType) : (Lexeme.word type.keyword.toList).Formed := by
  cases type
  · exact ⟨'i', ['n', 't'], rfl, rfl, List.all_eq_true.1 rfl⟩
  · exact ⟨'v', ['o', 'i', 'd'], rfl, rfl, List.all_eq_true.1 rfl⟩

theorem formed_return : (Lexeme.word "return".toList).Formed :=
  ⟨'r', ['e', 't', 'u', 'r', 'n'], rfl, rfl, List.all_eq_true.1 rfl⟩

/-- The numeral of a literal is made of digits. -/
theorem expressionLexemes_number {loc : Location} {n : Nat} :
    expressionLexemes (.number loc (n : Int)) = [.numeral (Nat.toDigits 10 n)] := by
  have ht : (toString (n : Int)).toList = Nat.toDigits 10 n := Nat.toList_repr
  rw [expressionLexemes, ht]

theorem formed_numeral (n : Nat) : (Lexeme.numeral (Nat.toDigits 10 n)).Formed :=
  ⟨Nat.toDigits_ne_nil, fun _ hc => Nat.isDigit_of_mem_toDigits (by decide) (by decide) hc⟩

theorem ofSymbol?_symbol (op : Operator) : TokenType.ofSymbol? op.symbol = some (.operator op) := by
  cases op <;> rfl

/-- A blank, an operator and another blank may come before whatever is spaced. The operator may be a slash: the blank
after it keeps it from opening a comment. -/
theorem spaced_operator (op : Operator) {ls : List Lexeme} (h : Spaced ls) :
    Spaced (.blank ' ' :: .symbol op.symbol (.operator op) :: .blank ' ' :: ls) := by
  have hop : Spaced (.symbol op.symbol (.operator op) :: .blank ' ' :: ls) :=
    .cons (ofSymbol?_symbol op) (fun _ => breaksOff_cons rfl) (h.blank rfl)
  exact hop.blank rfl

/-- An expression may come before whatever does not go on with its last word or numeral. -/
theorem spaced_expression {e : Tree} (h : Writable e) :
    ∀ ls, Spaced ls → BreaksOff isWordPart (textOf ls) → Spaced (expressionLexemes e ++ ls) := by
  induction h with
  | @number loc n h0 _ =>
    intro ls hs hb
    obtain ⟨m, rfl⟩ := Int.eq_ofNat_of_zero_le h0
    rw [expressionLexemes_number]
    refine .cons (formed_numeral m) (fun c hc => ?_) hs
    have := hb c hc
    simp only [isWordPart, Bool.or_eq_false_iff] at this
    exact this.2
  | call loc hn =>
    intro ls hs _
    have hparens : Spaced (.symbol '(' .leftParen :: .symbol ')' .rightParen :: ls) :=
      (hs.symbol rfl (by decide)).symbol rfl (by decide)
    exact hparens.word hn.formed_word (breaksOff_cons rfl)
  | binary loc op _ _ hl hr =>
    intro ls hs _
    -- from right to left: each operand is followed by a blank or a parenthesis
    have hclose : Spaced (.symbol ')' .rightParen :: ls) := hs.symbol rfl (by decide)
    have hright := spaced_operator op (hr _ hclose (breaksOff_cons rfl))
    have hleft := hl _ hright (breaksOff_cons rfl)
    have hopen : Spaced (.symbol '(' .leftParen :: _) := hleft.symbol rfl (by decide)
    simpa [expressionLexemes] using hopen

theorem fits_statement {s : Tree} (h : WritableReturn s) : Fits (statementLexemes s) := by
  intro ls hs
  have hsemi : Spaced (.symbol ';' .semicolon :: ls) := hs.symbol rfl (by decide)
  cases h with
  | nothing => exact hsemi.word formed_return (breaksOff_cons rfl)
  | value loc he =>
    rw [statementLexemes.eq_2 _ _ he.ne_absent]
    have hvalue := spaced_expression he _ hsemi (breaksOff_cons rfl)
    have hreturn := (hvalue.blank (c := ' ') rfl).word formed_return (breaksOff_cons rfl)
    simpa using hreturn

theorem fits_function {gap : String} (hg : ∀ c ∈ gap.toList, isBlank c = true) {f : Tree} (h : WritableFunction f) :
    Fits (functionLexemes gap f) := by
  obtain @⟨loc, type, name, body, hn, hb⟩ := h
  intro ls hs
  have hclose : Spaced (.symbol '\x7d' .rightBrace :: ls) := hs.symbol rfl (by decide)
  have hbody := fits_blanks hg _ (fits_each hg (fun s hs => fits_statement (hb s hs)) _ hclose)
  have hbrace : Spaced (.symbol '\x7b' .leftBrace :: _) := hbody.symbol rfl (by decide)
  have hparens : Spaced (.symbol '(' .leftParen :: .symbol ')' .rightParen :: .blank ' ' :: _) :=
    ((hbrace.blank rfl).symbol rfl (by decide)).symbol rfl (by decide)
  have hname := hparens.word hn.formed_word (breaksOff_cons rfl)
  have htype := (hname.blank (c := ' ') rfl).word (formed_keyword type) (breaksOff_cons rfl)
  simpa [functionLexemes] using htype

/-- **The lexemes of a program are spaced.** -/
theorem spaced_program {gap : String} (hg : ∀ c ∈ gap.toList, isBlank c = true) {fs : List Tree}
    (h : ∀ f ∈ fs, WritableFunction f) : Spaced (programLexemes gap fs) := by
  have hf : Fits (programLexemes gap fs) := fits_each hg fun f hf => fits_function hg (h f hf)
  simpa using hf [] .nil

/-! ## The lexemes can be read -/

/-- A number of 32 bits is read from its digits. -/
theorem token_digits {n : Nat} (h : n ≤ 0xFFFFFFFF) :
    (Lexeme.numeral (Nat.toDigits 10 n)).token = .ok (some (.number, .number n)) := by
  have hl : (Nat.toDigits 10 n).length ≤ 10 := (Nat.length_toDigits_le_iff (by decide) (by decide)).2 (by omega)
  have hv : Nat.ofDigitChars 10 (Nat.toDigits 10 n) 0 = n := Nat.ofDigitChars_ten_toDigits
  rw [Lexeme.token_numeral (Nat.le_trans hl (by decide)) (by rw [hv]; exact h), hv]

theorem content?_digits {n : Nat} (h : n ≤ 0xFFFFFFFF) :
    (Lexeme.numeral (Nat.toDigits 10 n)).content? = some (.number, .number n) := by
  rw [Lexeme.content?, token_digits h]

theorem readable_digits {n : Nat} (h : n ≤ 0xFFFFFFFF) : (Lexeme.numeral (Nat.toDigits 10 n)).Readable := by
  rw [Lexeme.Readable, token_digits h, content?_digits h]

theorem readable_expression {e : Tree} (h : Writable e) : ∀ l ∈ expressionLexemes e, l.Readable := by
  induction h with
  | @number loc n h0 hn =>
    obtain ⟨m, rfl⟩ := Int.eq_ofNat_of_zero_le h0
    rw [expressionLexemes_number]
    exact List.forall_mem_singleton.2 (readable_digits (by omega))
  | call => simp [expressionLexemes, Lexeme.readable_word, Lexeme.readable_symbol]
  | binary loc op _ _ hl hr =>
    simp only [expressionLexemes, List.forall_mem_cons, List.forall_mem_append]
    exact ⟨Lexeme.readable_symbol _ _, hl, Lexeme.readable_blank _, Lexeme.readable_symbol _ _,
      Lexeme.readable_blank _, hr, Lexeme.readable_symbol _ _, by simp⟩

theorem readable_each (gap : String) {L : Tree → List Lexeme} {items : List Tree}
    (h : ∀ n ∈ items, ∀ l ∈ L n, l.Readable) : ∀ l ∈ eachLexemes gap L items, l.Readable := by
  intro l hl
  obtain ⟨n, hn, hm⟩ := List.mem_flatMap.1 hl
  rcases List.mem_append.1 hm with hm | hm
  · exact h n hn l hm
  · obtain ⟨c, _, rfl⟩ := List.mem_map.1 hm
    exact Lexeme.readable_blank c

theorem readable_statement {s : Tree} (h : WritableReturn s) : ∀ l ∈ statementLexemes s, l.Readable := by
  cases h with
  | nothing => simp [statementLexemes, Lexeme.readable_word, Lexeme.readable_symbol]
  | value loc he =>
    rw [statementLexemes.eq_2 _ _ he.ne_absent]
    simp only [List.forall_mem_cons, List.forall_mem_append]
    exact ⟨Lexeme.readable_word _, Lexeme.readable_blank _, readable_expression he, Lexeme.readable_symbol _ _, by simp⟩

theorem readable_function (gap : String) {f : Tree} (h : WritableFunction f) :
    ∀ l ∈ functionLexemes gap f, l.Readable := by
  obtain ⟨loc, type, _, hb⟩ := h
  have hbody := readable_each gap fun s hs => readable_statement (hb s hs)
  simp only [functionLexemes, List.forall_mem_cons, List.forall_mem_append, List.forall_mem_map]
  exact ⟨Lexeme.readable_word _, Lexeme.readable_blank _, Lexeme.readable_word _, Lexeme.readable_symbol _ _,
    Lexeme.readable_symbol _ _, Lexeme.readable_blank _, Lexeme.readable_symbol _ _,
    fun c _ => Lexeme.readable_blank c, hbody, Lexeme.readable_symbol _ _, by simp⟩

/-- **The tokens of the source of a program spell its lexemes.** -/
theorem exists_tokens_programSource {fs : List Tree} (h : ∀ f ∈ fs, WritableFunction f) {gap : String}
    (hg : ∀ c ∈ gap.toList, isBlank c = true) (file : String) :
    ∃ ts e, tokens (programSource gap fs) file = .ok (ts ++ [e]) ∧ Spells (programLexemes gap fs) ts ∧
      (∀ t ∈ ts, t.type ≠ .eof) ∧ e.type = .eof :=
  exists_tokens_textOf (spaced_program hg h) (readable_each gap fun f hf => readable_function gap (h f hf))
    (toList_programSource gap h) file

end TinyArm
