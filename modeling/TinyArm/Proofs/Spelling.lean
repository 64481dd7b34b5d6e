import TinyArm.Token.Scan

/-!
# Lexemes from their texts

A text that is put together from lexemes falls into these lexemes again, as long as none of them goes on into what
comes after it.

* `Lexeme.exists_next`: a lexeme that stops (`Lexeme.Stops`) is taken off the front of a text.
* `lexemes_textOf`: **the lexemes of a spaced text are those that it was made of.**
* `exists_tokens_textOf`: **the tokens of a spaced text spell its lexemes**, that is, they have their types and values
  in order (`Spells`).
-/

namespace TinyArm

/-! ## Classes of characters -/

theorem isBlank_iff {c : Char} :
    isBlank c = true ↔ c = ' ' ∨ c = '\t' ∨ c = '\n' ∨ c = '\r' ∨ c = '\x0c' ∨ c = '\x0b' := by
  simp only [isBlank, Bool.or_eq_true, decide_eq_true_eq, or_assoc]

theorem isWordPart_of_isBlank {c : Char} (h : isBlank c = true) : isWordPart c = false := by
  rcases isBlank_iff.1 h with rfl | rfl | rfl | rfl | rfl | rfl <;> decide

theorem isWordPart_of_isWordStart {c : Char} (h : isWordStart c = true) : isWordPart c = true := by
  simp [isWordPart, h]

theorem isWordPart_of_isDigit {c : Char} (h : c.isDigit = true) : isWordPart c = true := by
  simp [isWordPart, h]

/-- What is part of a word is no blank. -/
theorem isBlank_of_isWordPart {c : Char} (h : isWordPart c = true) : isBlank c = false := by
  cases hb : isBlank c with
  | false => rfl
  | true =>
    rw [isWordPart_of_isBlank hb] at h
    cases h

theorem ne_slash_of_isWordPart {c : Char} (h : isWordPart c = true) : c ≠ '/' := by
  rintro rfl
  revert h
  decide

theorem ne_star_of_isWordPart {c : Char} (h : isWordPart c = true) : c ≠ '*' := by
  rintro rfl
  revert h
  decide

theorem isWordStart_of_isDigit {c : Char} (h : c.isDigit = true) : isWordStart c = false := by
  have hd : '0'.toNat ≤ c.toNat ∧ c.toNat ≤ '9'.toNat := Char.isDigit_iff_toNat.1 h
  have hall : ∀ n < 58, '0'.toNat ≤ n → isWordStart (Char.ofNat n) = false := by decide
  rw [← Char.ofNat_toNat c]
  exact hall c.toNat (Nat.lt_succ_of_le hd.2) hd.1

/-- A symbol is neither blank nor part of a word. -/
theorem class_of_ofSymbol? {c : Char} {t : TokenType} (h : TokenType.ofSymbol? c = some t) :
    isBlank c = false ∧ isWordStart c = false ∧ c.isDigit = false := by
  unfold TokenType.ofSymbol? at h
  split at h <;> first | decide | cases h

/-! ## Where lexemes stop -/

/-- Whether a text does not start with a character of the class `p`. -/
def BreaksOff (p : Char → Bool) (rest : List Char) : Prop := ∀ c ∈ rest.head?, p c = false

theorem breaksOff_cons {p : Char → Bool} {c : Char} {cs : List Char} (h : p c = false) : BreaksOff p (c :: cs) := by
  intro d hd
  cases hd
  exact h

theorem takeWhile_append_of_breaksOff {p : Char → Bool} {cs rest : List Char} (hc : ∀ c ∈ cs, p c = true)
    (hr : BreaksOff p rest) : (cs ++ rest).takeWhile p = cs := by
  rw [List.takeWhile_append_of_pos hc]
  cases rest with
  | nil => simp
  | cons d ds => simp [hr d rfl]

theorem dropWhile_append_of_breaksOff {p : Char → Bool} {cs rest : List Char} (hc : ∀ c ∈ cs, p c = true)
    (hr : BreaksOff p rest) : (cs ++ rest).dropWhile p = rest := by
  rw [List.dropWhile_append_of_pos hc]
  cases rest with
  | nil => simp
  | cons d ds => simp [hr d rfl]

/-- The closing mark of a comment is found no matter what comes after it. -/
theorem closeComment?_append {cs : List Char} {p : List Char × List Char} (h : closeComment? cs = some p)
    (rest : List Char) : closeComment? (cs ++ rest) = some (p.1, p.2 ++ rest) := by
  fun_induction closeComment? cs generalizing p with
  | case1 => cases h
  | case2 => cases h; rfl
  | case3 c cs hc ih =>
    obtain ⟨q, hq, rfl⟩ := Option.map_eq_some_iff.1 h
    have hn : ∀ ds, c = '*' → cs ++ rest = '/' :: ds → False := by
      intro ds hs hd
      cases cs with
      | nil => cases hq
      | cons d cs => exact hc cs hs (by rw [(List.cons.inj hd).1])
    rw [List.cons_append, closeComment?.eq_3 _ _ hn, ih hq]
    rfl

namespace Lexeme

/-- Whether the characters of a lexeme are such as its kind needs. -/
def Formed : Lexeme → Prop
  | blank c => isBlank c = true
  | lineComment body => ∀ c ∈ body, c ≠ '\n'
  | blockComment body => closeComment? (body ++ ['*', '/']) = some (body, [])
  | word cs => ∃ c ds, cs = c :: ds ∧ isWordStart c = true ∧ ∀ d ∈ ds, isWordPart d = true
  | numeral cs => cs ≠ [] ∧ ∀ c ∈ cs, c.isDigit = true
  | symbol c t => TokenType.ofSymbol? c = some t

/-- Whether a lexeme does not go on into the text after it. A slash must not open a comment with it. -/
def Stops : Lexeme → List Char → Prop
  | blank _, _ | blockComment _, _ => True
  | lineComment _, rest => BreaksOff (· ≠ '\n') rest
  | word _, rest => BreaksOff isWordPart rest
  | numeral _, rest => BreaksOff Char.isDigit rest
  | symbol c _, rest => c = '/' → BreaksOff (fun d => d = '/' || d = '*') rest

/-- **A lexeme that stops is taken off the front of a text.** -/
theorem exists_next {l : Lexeme} (hf : l.Formed) {rest : List Char} (hs : l.Stops rest) :
    ∃ c cs, l.text ++ rest = c :: cs ∧ next c cs = .ok (l, rest) := by
  cases l with
  | blank c =>
    have hb : isBlank c = true := hf
    exact ⟨c, rest, rfl, by simp [next, hb]⟩
  | lineComment body =>
    have hb : ∀ c ∈ body, decide (c ≠ '\n') = true := fun c hc => decide_eq_true (hf c hc)
    have hn : isBlank '/' = false := by decide
    refine ⟨'/', '/' :: (body ++ rest), by simp [text], ?_⟩
    simp only [next, hn, List.head?_cons, List.tail_cons, takeWhile_append_of_breaksOff hb hs,
      dropWhile_append_of_breaksOff hb hs]
    simp
  | blockComment body =>
    have hc : closeComment? (body ++ '*' :: '/' :: rest) = some (body, rest) := by
      simpa using closeComment?_append hf rest
    have hn : isBlank '/' = false := by decide
    refine ⟨'/', '*' :: (body ++ '*' :: '/' :: rest), by simp [text], ?_⟩
    simp [next, hn, hc]
  | word cs =>
    obtain ⟨c, ds, rfl, hc, hd⟩ := hf
    have hw := isWordPart_of_isWordStart hc
    refine ⟨c, ds ++ rest, rfl, ?_⟩
    simp [next, isBlank_of_isWordPart hw, ne_slash_of_isWordPart hw, hc, takeWhile_append_of_breaksOff hd hs,
      dropWhile_append_of_breaksOff hd hs]
  | numeral cs =>
    obtain ⟨hn, hd⟩ := hf
    obtain ⟨c, ds, rfl⟩ := List.exists_cons_of_ne_nil hn
    have hc : c.isDigit = true := hd c List.mem_cons_self
    have hds : ∀ d ∈ ds, d.isDigit = true := fun d h => hd d (List.mem_cons_of_mem _ h)
    have hw := isWordPart_of_isDigit hc
    refine ⟨c, ds ++ rest, rfl, ?_⟩
    simp [next, isBlank_of_isWordPart hw, ne_slash_of_isWordPart hw, isWordStart_of_isDigit hc, hc,
      takeWhile_append_of_breaksOff hds hs, dropWhile_append_of_breaksOff hds hs]
  | symbol c t =>
    have ht : TokenType.ofSymbol? c = some t := hf
    obtain ⟨hb, hw, hd⟩ := class_of_ofSymbol? ht
    have h₁ : ¬(c = '/' ∧ rest.head? = some '/') := fun h => absurd (hs h.1 '/' h.2) (by decide)
    have h₂ : ¬(c = '/' ∧ rest.head? = some '*') := fun h => absurd (hs h.1 '*' h.2) (by decide)
    refine ⟨c, rest, rfl, ?_⟩
    simp only [next, hb, h₁, h₂, hw, hd, ht, Bool.false_eq_true, if_false]

end Lexeme

/-! ## Spaced texts -/

/-- Lexemes that can stand one after the other: each is formed and stops where the next begins. -/
inductive Spaced : List Lexeme → Prop where
  | nil : Spaced []
  | cons {l : Lexeme} {ls : List Lexeme} : l.Formed → l.Stops (textOf ls) → Spaced ls → Spaced (l :: ls)

theorem Spaced.blank {ls : List Lexeme} (h : Spaced ls) {c : Char} (hc : isBlank c = true) :
    Spaced (.blank c :: ls) :=
  .cons hc trivial h

/-- A symbol that is no slash stops wherever it stands. -/
theorem Spaced.symbol {ls : List Lexeme} (h : Spaced ls) {c : Char} {t : TokenType}
    (ht : TokenType.ofSymbol? c = some t) (hc : c ≠ '/') : Spaced (.symbol c t :: ls) :=
  .cons ht (fun e => absurd e hc) h

theorem Spaced.word {ls : List Lexeme} (h : Spaced ls) {cs : List Char} (hw : (Lexeme.word cs).Formed)
    (hb : BreaksOff isWordPart (textOf ls)) : Spaced (.word cs :: ls) :=
  .cons hw hb h

theorem Spaced.formed {ls : List Lexeme} (h : Spaced ls) : ∀ l ∈ ls, l.Formed := by
  induction h with
  | nil => simp
  | cons hf _ _ ih => exact List.forall_mem_cons.2 ⟨hf, ih⟩

theorem lexemes_cons_of_next {c : Char} {cs : List Char} {l : Lexeme} {rest : List Char}
    (h : Lexeme.next c cs = .ok (l, rest)) : lexemes (c :: cs) = (l :: (lexemes rest).1, (lexemes rest).2) := by
  rw [lexemes]
  split
  · next l' rest' h' =>
    rw [h] at h'
    cases h'
    rfl
  · next f h' =>
    rw [h] at h'
    cases h'

/-- **The lexemes of a spaced text are those that it was made of.** -/
theorem lexemes_textOf {ls : List Lexeme} (h : Spaced ls) : lexemes (textOf ls) = (ls, none) := by
  induction h with
  | nil => rw [textOf_nil, lexemes]
  | cons hf hs _ ih =>
    obtain ⟨c, cs, he, hn⟩ := Lexeme.exists_next hf hs
    rw [textOf_cons, he, lexemes_cons_of_next hn, ih]

/-! ## Tokens of lexemes -/

/-- The type and the value of a token. -/
def Token.content (t : Token) : TokenType × Value := (t.type, t.value)

namespace Lexeme

/-- The type and the value of the token that a lexeme makes; none for blanks, comments and numerals that cannot be
read. -/
def content? (l : Lexeme) : Option (TokenType × Value) :=
  match l.token with
  | .ok o => o
  | .error _ => none

/-- Whether a lexeme is no numeral that cannot be read. -/
def Readable (l : Lexeme) : Prop := l.token = .ok l.content?

theorem content?_of_token {l : Lexeme} {o : Option (TokenType × Value)} (h : l.token = .ok o) : l.content? = o := by
  rw [content?, h]

theorem readable_of_token {l : Lexeme} {o : Option (TokenType × Value)} (h : l.token = .ok o) : l.Readable := by
  rw [Readable, content?_of_token h, h]

theorem readable_blank (c : Char) : (blank c).Readable := rfl

theorem readable_word (cs : List Char) : (word cs).Readable := rfl

theorem readable_symbol (c : Char) (t : TokenType) : (symbol c t).Readable := rfl

@[simp] theorem content?_blank (c : Char) : (blank c).content? = none := rfl

@[simp] theorem content?_word (cs : List Char) :
    (word cs).content? = some (TokenType.ofWord (String.ofList cs), .text (String.ofList cs)) := rfl

@[simp] theorem content?_symbol (c : Char) (t : TokenType) : (symbol c t).content? = some (t, .text c.toString) := rfl

/-- A numeral within the limits is read to its number. -/
theorem token_numeral {cs : List Char} (hl : cs.length ≤ maxDigits) (hn : Nat.ofDigitChars 10 cs 0 ≤ maxLiteral) :
    (numeral cs).token = .ok (some (.number, .number (Nat.ofDigitChars 10 cs 0))) := by
  simp [token, Nat.not_lt.2 hl, Nat.not_lt.2 hn]

/-- A numeral of too many digits is not read. -/
theorem token_numeral_long {cs : List Char} (hl : maxDigits < cs.length) :
    (numeral cs).token = .error (.literalLength cs.length) := by
  simp [token, hl]

/-- A numeral that is read may have too large a number. -/
theorem token_numeral_large {cs : List Char} (hl : cs.length ≤ maxDigits)
    (hn : maxLiteral < Nat.ofDigitChars 10 cs 0) : (numeral cs).token = .error (.literalRange cs) := by
  simp [token, Nat.not_lt.2 hl, hn]

/-- All that a numeral can be read to. -/
theorem token_numeral_cases (cs : List Char) :
    (maxDigits < cs.length ∧ (numeral cs).token = .error (.literalLength cs.length)) ∨
    (cs.length ≤ maxDigits ∧ maxLiteral < Nat.ofDigitChars 10 cs 0 ∧
      (numeral cs).token = .error (.literalRange cs)) ∨
    (cs.length ≤ maxDigits ∧ Nat.ofDigitChars 10 cs 0 ≤ maxLiteral ∧
      (numeral cs).token = .ok (some (.number, .number (Nat.ofDigitChars 10 cs 0)))) := by
  by_cases hl : maxDigits < cs.length
  · exact .inl ⟨hl, token_numeral_long hl⟩
  · rw [Nat.not_lt] at hl
    by_cases hn : maxLiteral < Nat.ofDigitChars 10 cs 0
    · exact .inr (.inl ⟨hl, hn, token_numeral_large hl hn⟩)
    · rw [Nat.not_lt] at hn
      exact .inr (.inr ⟨hl, hn, token_numeral hl hn⟩)

/-- What keeps a lexeme from being read is that it is a numeral of too many digits or too large a number. -/
theorem readable_iff {l : Lexeme} : l.Readable ↔
    ∀ ds, l = .numeral ds → ds.length ≤ maxDigits ∧ Nat.ofDigitChars 10 ds 0 ≤ maxLiteral := by
  cases l with
  | numeral ds =>
    constructor
    · rintro h _ ⟨⟩
      rcases token_numeral_cases ds with ⟨-, ht⟩ | ⟨-, -, ht⟩ | ⟨hl, hn, -⟩
      · rw [Readable, ht] at h
        cases h
      · rw [Readable, ht] at h
        cases h
      · exact ⟨hl, hn⟩
    · intro h
      obtain ⟨hl, hn⟩ := h ds rfl
      rw [Readable, content?, token_numeral hl hn]
  | _ => exact ⟨fun _ _ he => (by cases he), fun _ => rfl⟩

/-- A numeral that can be read is a number. -/
theorem content?_numeral {cs : List Char} (h : (numeral cs).Readable) :
    (numeral cs).content? = some (.number, .number (Nat.ofDigitChars 10 cs 0)) := by
  obtain ⟨hl, hn⟩ := readable_iff.1 h cs rfl
  rw [content?, token_numeral hl hn]

theorem eq_of_content?_numeral {cs : List Char} {k : TokenType × Value} (h : (numeral cs).content? = some k) :
    k = (.number, .number (Nat.ofDigitChars 10 cs 0)) ∧ Nat.ofDigitChars 10 cs 0 ≤ maxLiteral := by
  rcases token_numeral_cases cs with ⟨-, ht⟩ | ⟨-, -, ht⟩ | ⟨-, hn, ht⟩
  · rw [content?, ht] at h
    cases h
  · rw [content?, ht] at h
    cases h
  · rw [content?, ht] at h
    exact ⟨(Option.some.inj h).symm, hn⟩

theorem ofWord_ne_eof (s : String) : TokenType.ofWord s ≠ .eof := by
  unfold TokenType.ofWord
  split
  · simp
  · split <;> simp

/-- No lexeme makes an end-of-input token. -/
theorem ne_eof_of_content? {l : Lexeme} (hf : l.Formed) {k : TokenType × Value} (h : l.content? = some k) :
    k.1 ≠ .eof := by
  cases l with
  | blank | lineComment | blockComment => cases h
  | word cs =>
    cases h
    exact ofWord_ne_eof _
  | numeral cs =>
    obtain ⟨rfl, -⟩ := eq_of_content?_numeral h
    exact nofun
  | symbol c t =>
    cases h
    have ht : TokenType.ofSymbol? c = some t := hf
    rintro rfl
    unfold TokenType.ofSymbol? at ht
    split at ht <;> cases ht

end Lexeme

/-! ## Tokens that spell lexemes -/

/-- Whether tokens have the types and values of the lexemes `ls`. -/
def Spells (ls : List Lexeme) (ts : List Token) : Prop := ts.map Token.content = ls.filterMap Lexeme.content?

theorem spells_nil {ts : List Token} : Spells [] ts ↔ ts = [] := by
  simp [Spells]

theorem spells_append {ls ms : List Lexeme} {ts : List Token} :
    Spells (ls ++ ms) ts ↔ ∃ us vs, ts = us ++ vs ∧ Spells ls us ∧ Spells ms vs := by
  rw [Spells, List.filterMap_append, List.map_eq_append_iff]
  rfl

/-- A lexeme that is no token is left out. -/
theorem spells_skip {l : Lexeme} (hl : l.content? = none) {ls : List Lexeme} {ts : List Token} :
    Spells (l :: ls) ts ↔ Spells ls ts := by
  rw [Spells, List.filterMap_cons_none hl, Spells]

theorem spells_blank {c : Char} {ls : List Lexeme} {ts : List Token} : Spells (.blank c :: ls) ts ↔ Spells ls ts :=
  spells_skip (Lexeme.content?_blank c)

theorem filterMap_blanks (cs : List Char) : (cs.map Lexeme.blank).filterMap Lexeme.content? = [] := by
  induction cs with
  | nil => rfl
  | cons c cs ih => rw [List.map_cons, List.filterMap_cons_none (Lexeme.content?_blank c), ih]

theorem spells_blanks_append {cs : List Char} {ls : List Lexeme} {ts : List Token} :
    Spells (cs.map .blank ++ ls) ts ↔ Spells ls ts := by
  rw [Spells, List.filterMap_append, filterMap_blanks, List.nil_append, Spells]

theorem spells_append_blanks {ls : List Lexeme} {cs : List Char} {ts : List Token} :
    Spells (ls ++ cs.map .blank) ts ↔ Spells ls ts := by
  rw [Spells, List.filterMap_append, filterMap_blanks, List.append_nil, Spells]

/-- The first token spells the first lexeme that is a token. -/
theorem spells_cons {l : Lexeme} {k : TokenType × Value} (hk : l.content? = some k) {ls : List Lexeme}
    {ts : List Token} : Spells (l :: ls) ts ↔ ∃ t us, ts = t :: us ∧ t.type = k.1 ∧ t.value = k.2 ∧ Spells ls us := by
  rw [Spells, List.filterMap_cons_some hk, List.map_eq_cons_iff]
  constructor
  · rintro ⟨t, us, rfl, rfl, hu⟩
    exact ⟨t, us, rfl, rfl, rfl, hu⟩
  · rintro ⟨t, us, rfl, hty, hv, hu⟩
    exact ⟨t, us, rfl, Prod.ext hty hv, hu⟩

theorem spells_symbol {c : Char} {k : TokenType} {ls : List Lexeme} {ts : List Token}
    (h : Spells (.symbol c k :: ls) ts) : ∃ t us, ts = t :: us ∧ t.type = k ∧ Spells ls us := by
  obtain ⟨t, us, rfl, hk, _, hu⟩ := (spells_cons (Lexeme.content?_symbol c k)).1 h
  exact ⟨t, us, rfl, hk, hu⟩

theorem spells_word {s : String} {ls : List Lexeme} {ts : List Token} (h : Spells (.word s.toList :: ls) ts) :
    ∃ t us, ts = t :: us ∧ t.type = TokenType.ofWord s ∧ t.value = .text s ∧ Spells ls us := by
  obtain ⟨t, us, rfl, hk, hv, hu⟩ := (spells_cons (Lexeme.content?_word s.toList)).1 h
  rw [String.ofList_toList] at hk hv
  exact ⟨t, us, rfl, hk, hv, hu⟩

/-! ## Tokens of spaced texts -/

theorem Scan.ofLexemes_cons_none {l : Lexeme} (h : l.token = .ok none) (file : String) (fault : Option LexicalFault)
    (p : Position) (ls : List Lexeme) :
    ofLexemes file fault p (l :: ls) = ofLexemes file fault (p.after l.text) ls := by
  rw [ofLexemes, h]

theorem Scan.ofLexemes_cons_some {l : Lexeme} {k : TokenType × Value} (h : l.token = .ok (some k)) (file : String)
    (fault : Option LexicalFault) (p : Position) (ls : List Lexeme) :
    ofLexemes file fault p (l :: ls) =
      { ofLexemes file fault (p.after l.text) ls with
        tokens := ⟨k.1, k.2, p.inFile file⟩ :: (ofLexemes file fault (p.after l.text) ls).tokens } := by
  rw [ofLexemes, h]

/-- A scan without a fault has read all lexemes. -/
theorem Scan.readable_of_fault_eq_none {file : String} {fault : Option LexicalFault} {p : Position}
    {ls : List Lexeme} (h : (ofLexemes file fault p ls).fault = none) : fault = none ∧ ∀ l ∈ ls, l.Readable := by
  induction ls generalizing p with
  | nil => exact ⟨h, by simp⟩
  | cons l ls ih =>
    cases ht : l.token with
    | error f => simp [ofLexemes, ht] at h
    | ok o =>
      have hl : l.Readable := Lexeme.readable_of_token ht
      cases o with
      | none =>
        rw [ofLexemes_cons_none ht] at h
        exact ⟨(ih h).1, List.forall_mem_cons.2 ⟨hl, (ih h).2⟩⟩
      | some k =>
        rw [ofLexemes_cons_some ht] at h
        exact ⟨(ih h).1, List.forall_mem_cons.2 ⟨hl, (ih h).2⟩⟩

/-- A scan goes on behind lexemes that can be read. -/
theorem Scan.ofLexemes_append {ls : List Lexeme} (h : ∀ l ∈ ls, l.Readable) (file : String)
    (fault : Option LexicalFault) (p : Position) (ms : List Lexeme) :
    ofLexemes file fault p (ls ++ ms) =
      { ofLexemes file fault (p.after (textOf ls)) ms with
        tokens := (ofLexemes file none p ls).tokens ++ (ofLexemes file fault (p.after (textOf ls)) ms).tokens } := by
  induction ls generalizing p with
  | nil => rfl
  | cons l ls ih =>
    have hl : l.Readable := h l List.mem_cons_self
    have ih := ih (fun m hm => h m (List.mem_cons_of_mem _ hm)) (p.after l.text)
    rw [List.cons_append, textOf_cons, Position.after_append]
    cases hc : l.content? with
    | none =>
      have hk := hl.trans (by rw [hc])
      rw [ofLexemes_cons_none hk, ofLexemes_cons_none hk, ih]
    | some k =>
      have hk := hl.trans (by rw [hc])
      rw [ofLexemes_cons_some hk, ofLexemes_cons_some hk, ih]
      rfl

/-- A scan of lexemes that can be read comes to the end of their text. -/
theorem Scan.ofLexemes_of_readable {ls : List Lexeme} (h : ∀ l ∈ ls, l.Readable) (file : String)
    (fault : Option LexicalFault) (p : Position) :
    ofLexemes file fault p ls = ⟨(ofLexemes file none p ls).tokens, p.after (textOf ls), fault⟩ := by
  have he := ofLexemes_append h file fault p []
  rw [List.append_nil] at he
  rw [he]
  simp [ofLexemes]

/-- The tokens of lexemes that can be read spell them. -/
theorem Scan.spells_of_readable {ls : List Lexeme} (h : ∀ l ∈ ls, l.Readable) (file : String) (p : Position) :
    Spells ls (ofLexemes file none p ls).tokens := by
  induction ls generalizing p with
  | nil => exact spells_nil.2 rfl
  | cons l ls ih =>
    have hl : l.Readable := h l List.mem_cons_self
    have ht := ih (fun m hm => h m (List.mem_cons_of_mem _ hm)) (p.after l.text)
    cases hc : l.content? with
    | none =>
      rw [ofLexemes_cons_none (hl.trans (by rw [hc]))]
      exact (spells_skip hc).2 ht
    | some k =>
      rw [ofLexemes_cons_some (hl.trans (by rw [hc]))]
      exact (spells_cons hc).2 ⟨_, _, rfl, rfl, rfl, ht⟩

/-- No token of formed lexemes is an end of input. -/
theorem Spells.type_ne_eof {ls : List Lexeme} {ts : List Token} (h : Spells ls ts) (hf : ∀ l ∈ ls, l.Formed) :
    ∀ t ∈ ts, t.type ≠ .eof := by
  intro t ht
  have hc : t.content ∈ ls.filterMap Lexeme.content? := h ▸ List.mem_map_of_mem ht
  obtain ⟨l, hl, hk⟩ := List.mem_filterMap.1 hc
  exact Lexeme.ne_eof_of_content? (hf l hl) hk

/-- The tokens of a source are those of its scan, if that came to the end, and the end of input. -/
theorem tokens_eq_ok_iff {source file : String} {ts : List Token} : tokens source file = .ok ts ↔
    (Scan.ofSource source.toList file).fault = none ∧
      ts = (Scan.ofSource source.toList file).tokens ++ [(Scan.ofSource source.toList file).eof file] := by
  simp only [tokens, tokenize]
  cases (Scan.ofSource source.toList file).fault with
  | none => simp [eq_comm]
  | some f => simp

theorem tokens_eq_error_iff {source file : String} {f : Failure} : tokens source file = .error f ↔
    ∃ g, (Scan.ofSource source.toList file).fault = some g ∧
      f = g.failure source.toList file (Scan.ofSource source.toList file).stop := by
  simp only [tokens, tokenize]
  cases (Scan.ofSource source.toList file).fault with
  | none => simp
  | some g => simp [eq_comm]

/-- A spaced text is scanned to its end. -/
theorem tokens_textOf {ls : List Lexeme} (hs : Spaced ls) (hr : ∀ l ∈ ls, l.Readable) {source : String}
    (he : source.toList = textOf ls) (file : String) :
    tokens source file = .ok ((Scan.ofLexemes file none .start ls).tokens ++
      [⟨.eof, .absent, (Position.start.after (textOf ls)).inFile file⟩]) := by
  have hsource : Scan.ofSource source.toList file = Scan.ofLexemes file none .start ls := by
    rw [he, Scan.ofSource, lexemes_textOf hs]
  rw [tokens_eq_ok_iff, hsource]
  constructor
  · rw [Scan.ofLexemes_of_readable hr]
  · rw [Scan.eof, Scan.ofLexemes_of_readable hr]

/-- **The tokens of a spaced text spell its lexemes**, and the end of input comes after them. -/
theorem exists_tokens_textOf {ls : List Lexeme} (hs : Spaced ls) (hr : ∀ l ∈ ls, l.Readable) {source : String}
    (he : source.toList = textOf ls) (file : String) :
    ∃ ts e, tokens source file = .ok (ts ++ [e]) ∧ Spells ls ts ∧ (∀ t ∈ ts, t.type ≠ .eof) ∧ e.type = .eof := by
  have ht := Scan.spells_of_readable hr file .start
  exact ⟨_, _, tokens_textOf hs hr he file, ht, ht.type_ne_eof hs.formed, rfl⟩

end TinyArm
