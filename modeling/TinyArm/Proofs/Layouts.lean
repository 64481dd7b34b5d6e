import Mathlib.Data.List.Chain
import TinyArm.Proofs.Partition
import TinyArm.Proofs.RoundTrip

/-!
# Tokens written with separators

Tokens can be written with separators before, between and after them: blanks and closed comments in any number. A
separator may be left out where the two tokens beside it do not run into each other. Scanning such a text gives the
tokens back.

* `IsSeparator.exists_lexemes`, `IsSpelling.exists_lexeme`: separators and spellings fall into lexemes.
* `Lexeme.stops_of_endsBefore`, `Written.endsBefore`: the lexeme of a token stops where its separator begins, or else
  the next token.
* `tokens_of_written`: **the tokens of a written text are those that it was written from.**
-/

namespace TinyArm

/-! ## Separators -/

/-- Blanks and closed comments in any number. A comment after two slashes is closed by the line feed that ends it. -/
inductive IsSeparator : List Char → Prop where
  | nil : IsSeparator []
  | blank {c : Char} {gap : List Char} : isBlank c = true → IsSeparator gap → IsSeparator (c :: gap)
  | lineComment {body gap : List Char} : '\n' ∉ body → IsSeparator gap →
      IsSeparator ('/' :: '/' :: (body ++ '\n' :: gap))
  | blockComment {body gap : List Char} : ¬['*', '/'] <:+: body ++ ['*'] → IsSeparator gap →
      IsSeparator ('/' :: '*' :: (body ++ '*' :: '/' :: gap))

/-- Whether a text starts with a comment. -/
def OpensComment (cs : List Char) : Prop := ['/', '/'] <+: cs ∨ ['/', '*'] <+: cs

/-- A body without a closing mark ends where the mark is. -/
theorem closeComment?_of_not_infix {body : List Char} (h : ¬['*', '/'] <:+: body ++ ['*']) (rest : List Char) :
    closeComment? (body ++ '*' :: '/' :: rest) = some (body, rest) := by
  induction body with
  | nil => rfl
  | cons c body ih =>
    rw [List.cons_append, List.infix_cons_iff, not_or] at h
    have hn : ∀ ds, c = '*' → body ++ '*' :: '/' :: rest = '/' :: ds → False := by
      rintro ds rfl hd
      cases body with
      | nil => cases hd
      | cons d body =>
        obtain rfl := (List.cons.inj hd).1
        exact h.1 (by simp)
    rw [List.cons_append, closeComment?.eq_3 _ _ hn, ih h.2]
    rfl

/-- **A separator falls into lexemes that are no tokens**, whatever comes after it. -/
theorem IsSeparator.exists_lexemes {gap : List Char} (h : IsSeparator gap) :
    ∃ ls, textOf ls = gap ∧ Fits ls ∧ ∀ l ∈ ls, l.token = .ok none := by
  induction h with
  | nil => exact ⟨[], rfl, fun _ hm => hm, by simp⟩
  | @blank c gap hc _ ih =>
    obtain ⟨ls, rfl, hf, ht⟩ := ih
    exact ⟨.blank c :: ls, rfl, fun ms hm => (hf ms hm).blank hc, List.forall_mem_cons.2 ⟨rfl, ht⟩⟩
  | @lineComment body gap hb _ ih =>
    -- the line feed is a blank of its own
    obtain ⟨ls, rfl, hf, ht⟩ := ih
    have hbody : (Lexeme.lineComment body).Formed := fun c hc e => hb (e ▸ hc)
    refine ⟨.lineComment body :: .blank '\n' :: ls, by simp [Lexeme.text], fun ms hm => ?_, ?_⟩
    · exact .cons hbody (breaksOff_cons (by decide)) ((hf ms hm).blank rfl)
    · exact List.forall_mem_cons.2 ⟨rfl, List.forall_mem_cons.2 ⟨rfl, ht⟩⟩
  | @blockComment body gap hb _ ih =>
    obtain ⟨ls, rfl, hf, ht⟩ := ih
    have hbody : (Lexeme.blockComment body).Formed := closeComment?_of_not_infix hb []
    refine ⟨.blockComment body :: ls, by simp [Lexeme.text], fun ms hm => .cons hbody trivial (hf ms hm), ?_⟩
    exact List.forall_mem_cons.2 ⟨rfl, ht⟩

theorem filterMap_content?_of_token {ls : List Lexeme} (h : ∀ l ∈ ls, l.token = .ok none) :
    ls.filterMap Lexeme.content? = [] :=
  List.filterMap_eq_nil_iff.2 fun l hl => Lexeme.content?_of_token (h l hl)

/-- A separator starts with a blank or a comment. -/
theorem IsSeparator.head {c : Char} {cs : List Char} (h : IsSeparator (c :: cs)) :
    isBlank c = true ∨ c = '/' ∧ OpensComment (c :: cs) := by
  cases h with
  | blank hc _ => exact .inl hc
  | lineComment => exact .inr ⟨rfl, .inl (by simp)⟩
  | blockComment => exact .inr ⟨rfl, .inr (by simp)⟩

/-! ## Spellings -/

/-- The characters that a token may be written with. -/
inductive IsSpelling : TokenType × Value → List Char → Prop where
  | keyword (type : DataType) : IsSpelling (.typeName type, .text type.keyword) type.keyword.toList
  | returnWord : IsSpelling (.returnWord, .text "return") "return".toList
  | name {s : String} : IsName s → IsSpelling (.identifier, .text s) s.toList
  /-- Leading zeros are allowed. -/
  | number {n : Nat} {ds : List Char} : IsNumeral ds → Nat.ofDigitChars 10 ds 0 = n → n ≤ 0xFFFFFFFF →
      ds.length ≤ 4300 → IsSpelling (.number, .number n) ds
  | operator (op : Operator) : IsSpelling (.operator op, .text op.symbol.toString) [op.symbol]
  | leftParen : IsSpelling (.leftParen, .text "(") ['(']
  | rightParen : IsSpelling (.rightParen, .text ")") [')']
  | leftBrace : IsSpelling (.leftBrace, .text "\x7b") ['\x7b']
  | rightBrace : IsSpelling (.rightBrace, .text "\x7d") ['\x7d']
  | semicolon : IsSpelling (.semicolon, .text ";") [';']

/-- **A spelling is a lexeme that is read to the token.** -/
theorem IsSpelling.exists_lexeme {k : TokenType × Value} {cs : List Char} (h : IsSpelling k cs) :
    ∃ l : Lexeme, l.text = cs ∧ l.Formed ∧ l.token = .ok (some k) := by
  cases h with
  | keyword type =>
    refine ⟨.word type.keyword.toList, rfl, formed_keyword type, ?_⟩
    rw [Lexeme.token, String.ofList_toList, ofWord_keyword]
  | returnWord => exact ⟨.word "return".toList, rfl, formed_return, by decide⟩
  | @name s hs =>
    refine ⟨.word s.toList, rfl, hs.formed_word, ?_⟩
    rw [Lexeme.token, String.ofList_toList, hs.ofWord]
  | number hd he hn hl =>
    subst he
    exact ⟨.numeral cs, rfl, hd, Lexeme.token_numeral hl hn⟩
  | operator op => exact ⟨.symbol op.symbol (.operator op), rfl, ofSymbol?_symbol op, rfl⟩
  | leftParen => exact ⟨.symbol '(' .leftParen, rfl, rfl, rfl⟩
  | rightParen => exact ⟨.symbol ')' .rightParen, rfl, rfl, rfl⟩
  | leftBrace => exact ⟨.symbol '\x7b' .leftBrace, rfl, rfl, rfl⟩
  | rightBrace => exact ⟨.symbol '\x7d' .rightBrace, rfl, rfl, rfl⟩
  | semicolon => exact ⟨.symbol ';' .semicolon, rfl, rfl, rfl⟩

/-! ## What may follow a token -/

namespace TokenType

/-- Whether a token is written as a word. -/
def isWord : TokenType → Bool
  | identifier | typeName _ | returnWord => true
  | _ => false

/-- Whether a token of type `b` may be written right after one of type `a`. -/
structure Meets (a b : TokenType) : Prop where
  word : a.isWord = true → b.isWord = false ∧ b ≠ .number
  number : a = .number → b ≠ .number
  slash : a = .operator .divide → b ≠ .operator .divide ∧ b ≠ .operator .multiply

/-- Whether a token of a type does not run into the text after it. -/
structure EndsBefore (type : TokenType) (rest : List Char) : Prop where
  word : type.isWord = true → BreaksOff isWordPart rest
  number : type = .number → BreaksOff Char.isDigit rest
  slash : type = .operator .divide → BreaksOff (fun d => d = '/' || d = '*') rest

theorem endsBefore_nil (type : TokenType) : type.EndsBefore [] := ⟨nofun, nofun, nofun⟩

theorem isWord_ofWord (s : String) : (ofWord s).isWord = true := by
  unfold ofWord
  split
  · rfl
  · split <;> rfl

end TokenType

namespace Lexeme

variable {l : Lexeme} {k : TokenType × Value}

/-- All lexemes that are tokens. -/
theorem token_eq_some_cases (hf : l.Formed) (ht : l.token = .ok (some k)) :
    (∃ cs, l = word cs ∧ IsWord cs ∧ k.1.isWord = true) ∨ (∃ cs, l = numeral cs ∧ IsNumeral cs ∧ k.1 = .number) ∨
      ∃ c, l = symbol c k.1 ∧ TokenType.ofSymbol? c = some k.1 := by
  cases l with
  | blank | lineComment | blockComment => cases ht
  | word cs =>
    cases ht
    exact .inl ⟨cs, rfl, hf, TokenType.isWord_ofWord _⟩
  | numeral cs =>
    have hk := content?_of_token ht
    exact .inr (.inl ⟨cs, rfl, hf, by rw [(eq_of_content?_numeral hk).1]⟩)
  | symbol c t =>
    cases ht
    exact .inr (.inr ⟨c, rfl, hf⟩)

/-- The lexeme of a token stops where the token does not run into what comes after it. -/
theorem stops_of_endsBefore (hf : l.Formed) (ht : l.token = .ok (some k)) {rest : List Char}
    (h : k.1.EndsBefore rest) : l.Stops rest := by
  rcases token_eq_some_cases hf ht with ⟨cs, rfl, -, hk⟩ | ⟨cs, rfl, -, hk⟩ | ⟨c, rfl, hc⟩
  · exact h.word hk
  · exact h.number hk
  · rintro rfl
    exact h.slash (Option.some.inj hc).symm

/-- The first character of a token tells which tokens may come right before it. -/
theorem endsBefore_of_meets (hf : l.Formed) (ht : l.token = .ok (some k)) {type : TokenType} (h : type.Meets k.1)
    (rest : List Char) : type.EndsBefore (l.text ++ rest) := by
  rcases token_eq_some_cases hf ht with ⟨cs, rfl, ⟨c, ds, rfl, hc, -⟩, hk⟩ | ⟨cs, rfl, ⟨hn, hd⟩, hk⟩ | ⟨c, rfl, hc⟩
  · have hp := isWordPart_of_isWordStart hc
    refine ⟨fun hw => ?_, fun _ => breaksOff_cons ?_, fun _ => breaksOff_cons ?_⟩
    · rw [(h.word hw).1] at hk
      cases hk
    · by_contra hd
      rw [isWordStart_of_isDigit (by simpa using hd)] at hc
      cases hc
    · simp [ne_slash_of_isWordPart hp, ne_star_of_isWordPart hp]
  · obtain ⟨c, ds, rfl⟩ := List.exists_cons_of_ne_nil hn
    have hp := isWordPart_of_isDigit (hd c List.mem_cons_self)
    exact ⟨fun hw => absurd hk (h.word hw).2, fun hm => absurd hk (h.number hm),
      fun _ => breaksOff_cons (by simp [ne_slash_of_isWordPart hp, ne_star_of_isWordPart hp])⟩
  · obtain ⟨-, hw, hd⟩ := class_of_ofSymbol? hc
    refine ⟨fun _ => breaksOff_cons (by simp [isWordPart, hw, hd]), fun _ => breaksOff_cons hd,
      fun hs => breaksOff_cons ?_⟩
    obtain ⟨h₁, h₂⟩ := h.slash hs
    have hc₁ : c ≠ '/' := fun e => h₁ (by rw [e] at hc; exact (Option.some.inj hc).symm)
    have hc₂ : c ≠ '*' := fun e => h₂ (by rw [e] at hc; exact (Option.some.inj hc).symm)
    simp [hc₁, hc₂]

end Lexeme

/-! ## Written texts -/

/-- A token with its spelling and the separator after it. A slash must not open a comment together with a comment after
it. -/
structure Written where
  content : TokenType × Value
  spelling : List Char
  gap : List Char
  isSpelling : IsSpelling content spelling
  isSeparator : IsSeparator gap
  notComment : content.1 = .operator .divide → ¬OpensComment gap

namespace Written

/-- The characters of a written token. -/
def text (w : Written) : List Char := w.spelling ++ w.gap

/-- Whether a separator parts two tokens, or none is needed. -/
def Parts (v w : Written) : Prop := v.gap = [] → v.content.1.Meets w.content.1

/-- A token ends before its separator; without a separator, before the next token. -/
theorem endsBefore (w : Written) {rest : List Char} (h : w.gap = [] → w.content.1.EndsBefore rest) :
    w.content.1.EndsBefore (w.gap ++ rest) := by
  cases hg : w.gap with
  | nil => exact h hg
  | cons c cs =>
    have hc := (hg ▸ w.isSeparator).head
    have hp : isWordPart c = false := by
      rcases hc with hb | ⟨rfl, -⟩
      · exact isWordPart_of_isBlank hb
      · decide
    have hb : BreaksOff isWordPart (c :: cs ++ rest) := breaksOff_cons hp
    refine ⟨fun _ => hb, fun _ => hb.isDigit, fun hs => breaksOff_cons ?_⟩
    rcases hc with hb | ⟨-, ho⟩
    · rcases isBlank_iff.1 hb with rfl | rfl | rfl | rfl | rfl | rfl <;> decide
    · exact absurd (hg ▸ ho) (w.notComment hs)

end Written

/-- **A written text falls into spaced lexemes** that are read to its tokens. -/
theorem exists_lexemes_of_written {ws : List Written} (h : ws.IsChain Written.Parts) :
    ∃ ls, textOf ls = ws.flatMap Written.text ∧ Spaced ls ∧ (∀ l ∈ ls, l.Readable) ∧
      ls.filterMap Lexeme.content? = ws.map Written.content := by
  induction ws with
  | nil => exact ⟨[], rfl, .nil, by simp, rfl⟩
  | cons w ws ih =>
    obtain ⟨ls, ht, hs, hr, hc⟩ := ih h.tail
    obtain ⟨l, hl, hf, hk⟩ := w.isSpelling.exists_lexeme
    obtain ⟨gs, hg, hfit, hn⟩ := w.isSeparator.exists_lexemes
    have hstop : l.Stops (textOf (gs ++ ls)) := by
      rw [textOf_append, hg, ht]
      refine Lexeme.stops_of_endsBefore hf hk (w.endsBefore fun he => ?_)
      cases ws with
      | nil => exact TokenType.endsBefore_nil _
      | cons v ws =>
        obtain ⟨m, hm, hfm, hkm⟩ := v.isSpelling.exists_lexeme
        have hmeets := h.rel he
        simpa [Written.text, hm] using Lexeme.endsBefore_of_meets hfm hkm hmeets (v.gap ++ ws.flatMap Written.text)
    refine ⟨l :: (gs ++ ls), ?_, .cons hf hstop (hfit ls hs), ?_, ?_⟩
    · rw [textOf_cons, textOf_append, hl, hg, ht, List.flatMap_cons, Written.text, List.append_assoc]
    · rw [List.forall_mem_cons, List.forall_mem_append]
      exact ⟨Lexeme.readable_of_token hk, fun m hm => Lexeme.readable_of_token (hn m hm), hr⟩
    · rw [List.filterMap_cons_some (Lexeme.content?_of_token hk), List.filterMap_append,
        filterMap_content?_of_token hn, hc]
      rfl

/-- **The tokens of a written text are those that it was written from**, and the end of input comes after them. -/
theorem tokens_of_written {lead : List Char} (hl : IsSeparator lead) {ws : List Written}
    (hw : ws.IsChain Written.Parts) {source : String} (hs : source.toList = lead ++ ws.flatMap Written.text)
    (file : String) :
    ∃ ts, tokens source file = .ok ts ∧ ts.map Token.content = ws.map Written.content ++ [(.eof, .absent)] := by
  obtain ⟨gs, hg, hfit, hn⟩ := hl.exists_lexemes
  obtain ⟨ls, ht, hspaced, hr, hc⟩ := exists_lexemes_of_written hw
  have hreadable : ∀ l ∈ gs ++ ls, l.Readable :=
    List.forall_mem_append.2 ⟨fun l hl => Lexeme.readable_of_token (hn l hl), hr⟩
  have htext : source.toList = textOf (gs ++ ls) := by rw [textOf_append, hg, ht, hs]
  refine ⟨_, tokens_textOf (hfit ls hspaced) hreadable htext file, ?_⟩
  have hspells : Spells (gs ++ ls) _ := Scan.spells_of_readable hreadable file .start
  rw [List.map_append, hspells, List.filterMap_append, filterMap_content?_of_token hn, hc]
  rfl

/-- Tokens that meet without blanks: a name before a comment, a number before a name, a parenthesis before a comment,
and slashes with a blank between them. -/
def closeTokens : List Written :=
  [⟨(.typeName .int, .text "int"), "int".toList, "/*/*/".toList, .keyword .int,
      @IsSeparator.blockComment ['/'] [] (by decide) .nil, nofun⟩,
    ⟨(.identifier, .text "x1"), "x1".toList, "//y\n".toList,
      .name ⟨⟨'x', ['1'], rfl, rfl, List.all_eq_true.1 rfl⟩, by decide, by decide, by decide⟩,
      @IsSeparator.lineComment ['y'] [] (by decide) .nil, nofun⟩,
    ⟨(.number, .number 12), "012".toList, [],
      .number ⟨by decide, List.all_eq_true.1 rfl⟩ (by decide) (by decide) (by decide), .nil, nofun⟩,
    ⟨(.returnWord, .text "return"), "return".toList, [], .returnWord, .nil, nofun⟩,
    ⟨(.rightParen, .text ")"), [')'], "/****/".toList, .rightParen,
      @IsSeparator.blockComment ['*', '*'] [] (by decide) .nil, nofun⟩,
    ⟨(.operator .multiply, .text "*"), ['*'], [], .operator .multiply, .nil, nofun⟩,
    ⟨(.operator .divide, .text "/"), ['/'], " ".toList, .operator .divide, .blank rfl .nil, fun _ => by
      simp [OpensComment]⟩,
    ⟨(.operator .divide, .text "/"), ['/'], [], .operator .divide, .nil, fun _ => by simp [OpensComment]⟩]

theorem tokens_closeTokens : IsSeparator ['\t'] ∧ closeTokens.IsChain Written.Parts ∧
    ∃ ts, tokens "\tint/*/*/x1//y\n012return)/****/*/ /" "t.c" = .ok ts ∧
      ts.map Token.content = [(.typeName .int, .text "int"), (.identifier, .text "x1"), (.number, .number 12),
        (.returnWord, .text "return"), (.rightParen, .text ")"), (.operator .multiply, .text "*"),
        (.operator .divide, .text "/"), (.operator .divide, .text "/"), (.eof, .absent)] := by
  have hl : IsSeparator ['\t'] := .blank rfl .nil
  have hc : closeTokens.IsChain Written.Parts := by
    simp only [closeTokens, List.isChain_cons_cons, List.isChain_singleton, and_true]
    refine ⟨nofun, nofun, fun _ => ?_, fun _ => ?_, nofun, fun _ => ?_, nofun⟩
    all_goals exact ⟨by decide, by decide, by decide⟩
  exact ⟨hl, hc, tokens_of_written hl hc rfl "t.c"⟩

end TinyArm
