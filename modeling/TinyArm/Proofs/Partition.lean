import TinyArm.Proofs.SourceTrees

/-!
# How tokens divide a source

A source is made of the texts of its tokens with gaps before, between and after them. `IsGap` says what a gap is,
`IsTokenText` which token a text is, given all that stands before and after it, and `Divides` puts gaps and tokens in
turn.

* `spaced_lexemes`: the lexemes of a text stop where the next begin.
* `Parted.append`: no word and no numeral goes on where a new lexeme begins, so the next word or numeral is part of no
  longer one (`maximal_word`, `maximal_numeral`).
* `divides_of_spaced`: lexemes that can be read divide their text.
* `divides_of_tokens`: **the tokens of a source divide it.**
-/

namespace TinyArm

/-! ## Gaps -/

/-- Blanks and comments in any number, with the text `rest` after them. A comment that starts with two slashes goes up
to the next line feed or the end, the other kind up to the first closing mark. -/
inductive IsGap : List Char → List Char → Prop where
  | nil (rest : List Char) : IsGap [] rest
  | blank {c : Char} {gap rest : List Char} : isBlank c = true → IsGap gap rest → IsGap (c :: gap) rest
  | lineComment {body gap rest : List Char} : '\n' ∉ body → (∀ c ∈ (gap ++ rest).head?, c = '\n') → IsGap gap rest →
      IsGap ('/' :: '/' :: (body ++ gap)) rest
  | blockComment {body gap rest : List Char} : ¬['*', '/'] <:+: body ++ ['*'] → IsGap gap rest →
      IsGap ('/' :: '*' :: (body ++ '*' :: '/' :: gap)) rest

/-! ## Texts of tokens -/

/-- A letter or underscore with letters, underscores and digits after it. -/
def IsWord (cs : List Char) : Prop := ∃ c ds, cs = c :: ds ∧ isWordStart c = true ∧ ∀ d ∈ ds, isWordPart d = true

/-- One or more digits. -/
def IsNumeral (cs : List Char) : Prop := cs ≠ [] ∧ ∀ c ∈ cs, c.isDigit = true

/-- A text of the kind `P` that stands between `before` and `rest` and is part of no longer one. -/
structure Maximal (P : List Char → Prop) (before cs rest : List Char) : Prop where
  holds : P cs
  longest : ∀ x y, x <:+ before → y <+: rest → P (x ++ cs ++ y) → x = [] ∧ y = []

/-- The type and the value of the token whose text stands between `before` and `rest`. -/
inductive IsTokenText (before : List Char) : List Char → List Char → TokenType × Value → Prop where
  | word {cs rest : List Char} : Maximal IsWord before cs rest →
      IsTokenText before cs rest (TokenType.ofWord (String.ofList cs), .text (String.ofList cs))
  | numeral {cs rest : List Char} : Maximal IsNumeral before cs rest →
      IsTokenText before cs rest (.number, .number (Nat.ofDigitChars 10 cs 0))
  | symbol {c : Char} {type : TokenType} {rest : List Char} : TokenType.ofSymbol? c = some type →
      (c = '/' → ∀ d ∈ rest.head?, d ≠ '/' ∧ d ≠ '*') → IsTokenText before [c] rest (type, .text c.toString)

/-- **Tokens that divide a text**, which comes after `before` in its file: gaps and tokens in turn, each token at the
place where its text starts, and a last gap. -/
inductive Divides (file : String) : List Char → List Char → List Token → Prop where
  | nil {before gap : List Char} : IsGap gap [] → Divides file before gap []
  | cons {before gap cs rest : List Char} {t : Token} {ts : List Token} : IsGap gap (cs ++ rest) →
      IsTokenText (before ++ gap) cs rest t.content →
      t.location = (Position.start.after (before ++ gap)).inFile file → Divides file (before ++ gap ++ cs) rest ts →
      Divides file before (gap ++ (cs ++ rest)) (t :: ts)

theorem IsWord.isWordPart {cs : List Char} (h : IsWord cs) : ∀ c ∈ cs, isWordPart c = true := by
  obtain ⟨c, ds, rfl, hc, hd⟩ := h
  exact List.forall_mem_cons.2 ⟨isWordPart_of_isWordStart hc, hd⟩

theorem IsNumeral.isWordPart {cs : List Char} (h : IsNumeral cs) : ∀ c ∈ cs, isWordPart c = true :=
  fun c hc => isWordPart_of_isDigit (h.2 c hc)

theorem IsWord.ne_nil {cs : List Char} (h : IsWord cs) : cs ≠ [] := by
  obtain ⟨c, ds, rfl, -, -⟩ := h
  exact List.cons_ne_nil c ds

/-- A word is not made of digits. -/
theorem IsWord.not_isDigit {cs : List Char} (h : IsWord cs) : ¬∀ c ∈ cs, c.isDigit = true := by
  obtain ⟨c, ds, rfl, hc, -⟩ := h
  intro hd
  rw [isWordStart_of_isDigit (hd c List.mem_cons_self)] at hc
  cases hc

/-- The front part of a word is a word. -/
theorem IsWord.left {x y : List Char} (h : IsWord (x ++ y)) (hx : x ≠ []) : IsWord x := by
  obtain ⟨c, ds, he, hc, hd⟩ := h
  obtain ⟨d, xs, rfl⟩ := List.exists_cons_of_ne_nil hx
  obtain ⟨rfl, rfl⟩ := List.cons.inj he
  exact ⟨d, xs, rfl, hc, fun e he => hd e (List.mem_append_left _ he)⟩

/-! ## Lexemes of a text -/

/-- The body of a comment holds no closing mark. -/
theorem not_infix_of_closeComment? {cs body rest : List Char} (h : closeComment? cs = some (body, rest)) :
    ¬['*', '/'] <:+: body ++ ['*'] := by
  fun_induction closeComment? cs generalizing body with
  | case1 => cases h
  | case2 => cases h; decide
  | case3 c cs hc ih =>
    obtain ⟨⟨body', rest'⟩, hq, he⟩ := Option.map_eq_some_iff.1 h
    cases he
    rw [List.cons_append, List.infix_cons_iff]
    rintro (hp | hi)
    · -- a mark at the front would have ended the comment
      rw [List.cons_prefix_cons] at hp
      obtain ⟨rfl, hp⟩ := hp
      have ha := append_of_closeComment? hq
      cases body' with
      | nil => simp at hp
      | cons d body' =>
        obtain ⟨rfl, -⟩ : '/' = d ∧ _ := List.cons_prefix_cons.1 hp
        exact hc (body' ++ '*' :: '/' :: rest') rfl ha.symm
    · exact ih hq hi

/-- A run of characters of a class breaks off where it ends. -/
theorem breaksOff_dropWhile (p : Char → Bool) (cs : List Char) : BreaksOff p (cs.dropWhile p) := by
  intro c hc
  have h := List.head?_dropWhile_not p cs
  rw [Option.mem_def.1 hc] at h
  simpa using h

theorem Lexeme.stops_of_next {c : Char} {cs : List Char} {l : Lexeme} {rest : List Char}
    (h : next c cs = .ok (l, rest)) : l.Stops rest := by
  unfold next at h
  split at h
  · cases h; trivial
  · split at h
    · cases h; exact breaksOff_dropWhile _ _
    · next hline =>
      split at h
      · split at h
        · cases h; trivial
        · cases h
      · next hblock =>
        split at h
        · cases h; exact breaksOff_dropWhile _ _
        · split at h
          · cases h; exact breaksOff_dropWhile _ _
          · split at h
            · cases h
              intro hc d hd
              have h₁ : d ≠ '/' := fun e => hline ⟨hc, e ▸ hd⟩
              have h₂ : d ≠ '*' := fun e => hblock ⟨hc, e ▸ hd⟩
              simp [h₁, h₂]
            · cases h

/-- **The lexemes of a text are spaced.** -/
theorem spaced_lexemes {cs : List Char} (h : (lexemes cs).2 = none) :
    Spaced (lexemes cs).1 ∧ textOf (lexemes cs).1 = cs := by
  have ht : textOf (lexemes cs).1 = cs := by
    obtain ⟨rest, he, hr⟩ := textOf_lexemes cs
    simpa [hr h] using he
  refine ⟨?_, ht⟩
  fun_induction lexemes cs with
  | case1 => exact .nil
  | case2 c cs l rest hn _ r ih =>
    have hr : textOf r.1 = rest := by
      obtain ⟨tail, he, hr⟩ := textOf_lexemes rest
      simpa [hr h] using he
    exact .cons (Lexeme.formed_of_next hn) (hr.symm ▸ Lexeme.stops_of_next hn) (ih h hr)
  | case3 => cases h

/-! ## Where lexemes begin -/

/-- No word and no numeral at the end of `before` goes on into `rest`. -/
structure Parted (before rest : List Char) : Prop where
  word : ∀ x, x <:+ before → IsWord x → BreaksOff isWordPart rest
  numeral : ∀ x, x <:+ before → IsNumeral x → BreaksOff Char.isDigit rest

theorem parted_nil (rest : List Char) : Parted [] rest where
  word _ hx hw := absurd (List.suffix_nil.1 hx) hw.ne_nil
  numeral _ hx hn := absurd (List.suffix_nil.1 hx) hn.1

theorem BreaksOff.isDigit {rest : List Char} (h : BreaksOff isWordPart rest) : BreaksOff Char.isDigit rest := by
  intro c hc
  have hp := h c hc
  simp only [isWordPart, Bool.or_eq_false_iff] at hp
  exact hp.2

/-- Nothing goes on after a character that is not part of a word. -/
theorem parted_concat (before rest : List Char) {c : Char} (hc : isWordPart c = false) :
    Parted (before ++ [c]) rest := by
  have h : ∀ x, x <:+ before ++ [c] → x ≠ [] → (∀ d ∈ x, isWordPart d = true) → False := by
    intro x hx hn hw
    obtain ⟨y, hy⟩ := hx
    obtain ⟨z, d, rfl⟩ := List.eq_nil_or_concat x |>.resolve_left hn
    rw [List.concat_eq_append, ← List.append_assoc] at hy
    obtain ⟨-, hd⟩ := List.append_inj' hy rfl
    have := hw d (by simp)
    rw [(List.cons.inj hd).1, hc] at this
    cases this
  exact ⟨fun x hx hw => (h x hx hw.ne_nil hw.isWordPart).elim, fun x hx hn => (h x hx hn.1 hn.isWordPart).elim⟩

/-- **Where a lexeme has stopped nothing goes on.** A word may come right after a numeral: no word ends with the digits
of the numeral, because none goes on where these begin. -/
theorem Parted.append {before rest : List Char} {l : Lexeme} (h : Parted before (l.text ++ rest)) (hf : l.Formed)
    (hs : l.Stops rest) : Parted (before ++ l.text) rest := by
  cases l with
  | blank c => exact parted_concat _ _ (isWordPart_of_isBlank hf)
  | lineComment body =>
    have hb : BreaksOff isWordPart rest := by
      intro c hc
      have hn : c = '\n' := by simpa using hs c hc
      subst hn
      decide
    exact ⟨fun _ _ _ => hb, fun _ _ _ => hb.isDigit⟩
  | blockComment body =>
    have he : before ++ (Lexeme.blockComment body).text = (before ++ '/' :: '*' :: (body ++ ['*'])) ++ ['/'] := by
      simp [Lexeme.text]
    rw [he]
    exact parted_concat _ _ (by decide)
  | word cs => exact ⟨fun _ _ _ => hs, fun _ _ _ => BreaksOff.isDigit hs⟩
  | numeral cs =>
    refine ⟨fun x hx hw => ?_, fun _ _ _ => hs⟩
    obtain ⟨hn, hd⟩ : IsNumeral cs := hf
    obtain ⟨c, ds, rfl⟩ := List.exists_cons_of_ne_nil hn
    have hc : c.isDigit = true := hd c List.mem_cons_self
    obtain ⟨y, hy⟩ := hx
    exfalso
    rcases List.append_eq_append_iff.1 hy with ⟨as, rfl, rfl⟩ | ⟨bs, -, hb⟩
    · cases as with
      | nil => exact hw.not_isDigit hd
      | cons a as =>
        -- the part of the word before the numeral would go on into it
        have hb := h.word (a :: as) ⟨y, rfl⟩ (hw.left (List.cons_ne_nil a as)) c rfl
        rw [isWordPart_of_isDigit hc] at hb
        cases hb
    · have hb : c :: ds = bs ++ x := hb
      exact hw.not_isDigit fun d hm => hd d (hb ▸ List.mem_append_right _ hm)
  | symbol c t =>
    obtain ⟨hb, hw, hd⟩ := class_of_ofSymbol? hf
    exact parted_concat _ _ (by simp [isWordPart, hw, hd])

/-! ## Longest words and numerals -/

theorem eq_nil_of_breaksOff {p : Char → Bool} {y rest : List Char} (hb : BreaksOff p rest) (hy : y <+: rest)
    (hp : ∀ c ∈ y, p c = true) : y = [] := by
  cases y with
  | nil => rfl
  | cons c y =>
    obtain ⟨z, rfl⟩ := hy
    have hc := hb c rfl
    rw [hp c List.mem_cons_self] at hc
    cases hc

theorem maximal_word {before cs rest : List Char} (h : Parted before (cs ++ rest)) (hw : IsWord cs)
    (hb : BreaksOff isWordPart rest) : Maximal IsWord before cs rest := by
  refine ⟨hw, fun x y hx hy hl => ⟨?_, ?_⟩⟩
  · by_contra hn
    obtain ⟨c, ds, rfl, hc, -⟩ := hw
    have hx := h.word x hx (IsWord.left (by rwa [List.append_assoc] at hl) hn) c rfl
    rw [isWordPart_of_isWordStart hc] at hx
    cases hx
  · exact eq_nil_of_breaksOff hb hy fun c hc => hl.isWordPart c (List.mem_append_right _ hc)

theorem maximal_numeral {before cs rest : List Char} (h : Parted before (cs ++ rest)) (hn : IsNumeral cs)
    (hb : BreaksOff Char.isDigit rest) : Maximal IsNumeral before cs rest := by
  refine ⟨hn, fun x y hx hy hl => ⟨?_, ?_⟩⟩
  · by_contra hne
    obtain ⟨c, ds, rfl⟩ := List.exists_cons_of_ne_nil hn.1
    have hd : IsNumeral x := ⟨hne, fun d hd => hl.2 d (by simp [hd])⟩
    have hx := h.numeral x hx hd c rfl
    rw [hn.2 c List.mem_cons_self] at hx
    cases hx
  · exact eq_nil_of_breaksOff hb hy fun c hc => hl.2 c (List.mem_append_right _ hc)

/-- A lexeme that is a token has the text of the token. -/
theorem isTokenText_of_content? {before rest : List Char} {l : Lexeme} {k : TokenType × Value}
    (hk : l.content? = some k) (hr : l.Readable) (hf : l.Formed) (hs : l.Stops rest)
    (hp : Parted before (l.text ++ rest)) : IsTokenText before l.text rest k := by
  cases l with
  | blank | lineComment | blockComment => cases hk
  | word cs =>
    cases hk
    exact .word (maximal_word hp hf hs)
  | numeral cs =>
    obtain rfl : (.number, .number (Nat.ofDigitChars 10 cs 0)) = k :=
      Option.some.inj ((Lexeme.content?_numeral hr).symm.trans hk)
    exact .numeral (maximal_numeral hp hf hs)
  | symbol c t =>
    cases hk
    refine .symbol hf fun hc d hd => ?_
    have := hs hc d hd
    simpa using this

/-- A lexeme that is no token belongs to a gap. -/
theorem IsGap.lexeme {gap rest : List Char} {l : Lexeme} (h : IsGap gap rest) (hk : l.content? = none)
    (hr : l.Readable) (hf : l.Formed) (hs : l.Stops (gap ++ rest)) : IsGap (l.text ++ gap) rest := by
  cases l with
  | blank c => exact .blank hf h
  | lineComment body =>
    exact .lineComment (fun hm => hf _ hm rfl) (fun c hc => by simpa using hs c hc) h
  | blockComment body =>
    have hg := IsGap.blockComment (not_infix_of_closeComment? hf) h
    simpa [Lexeme.text] using hg
  | word | symbol => cases hk
  | numeral cs =>
    rw [Lexeme.content?_numeral hr] at hk
    cases hk

/-! ## Division -/

/-- What may come before any gap may come before a division. -/
theorem Divides.skip {file : String} {before pre rest : List Char} {ts : List Token}
    (hg : ∀ gap rest', rest = gap ++ rest' → IsGap gap rest' → IsGap (pre ++ gap) rest')
    (h : Divides file (before ++ pre) rest ts) : Divides file before (pre ++ rest) ts := by
  cases h with
  | nil h => exact .nil (hg rest [] (List.append_nil rest).symm h)
  | @cons _ gap cs rest t ts h ht hl hd =>
    rw [← List.append_assoc]
    rw [List.append_assoc before] at ht hl hd
    exact .cons (hg gap _ rfl h) ht hl (by simpa using hd)

/-- **Lexemes that can be read divide their text.** -/
theorem divides_of_spaced {ls : List Lexeme} (hs : Spaced ls) (hr : ∀ l ∈ ls, l.Readable) (file : String) :
    ∀ before, Parted before (textOf ls) →
      Divides file before (textOf ls) (Scan.ofLexemes file none (Position.start.after before) ls).tokens := by
  induction hs with
  | nil => exact fun before _ => .nil (.nil [])
  | @cons l ls hf hs _ ih =>
    intro before hp
    have hl : l.Readable := hr l List.mem_cons_self
    have ih := ih (fun m hm => hr m (List.mem_cons_of_mem _ hm)) (before ++ l.text) (hp.append hf hs)
    rw [Position.after_append] at ih
    rw [textOf_cons]
    cases hk : l.content? with
    | none =>
      rw [Scan.ofLexemes_cons_none (hl.trans (by rw [hk]))]
      exact .skip (fun gap rest he h => h.lexeme hk hl hf (he ▸ hs)) ih
    | some k =>
      rw [Scan.ofLexemes_cons_some (hl.trans (by rw [hk]))]
      have ht : IsTokenText (before ++ []) l.text (textOf ls) k := by
        rw [List.append_nil]
        exact isTokenText_of_content? hk hl hf hs hp
      exact .cons (.nil (l.text ++ textOf ls)) ht (by rw [List.append_nil]) (by rwa [List.append_nil])

/-- **The tokens of a source divide it**, and the end of input comes after them. -/
theorem divides_of_tokens {source file : String} {ts : List Token} (h : tokens source file = .ok ts) :
    ∃ us, ts = us ++ [⟨.eof, .absent, (Position.start.after source.toList).inFile file⟩] ∧
      (∀ t ∈ us, t.type ≠ .eof) ∧ Divides file [] source.toList us := by
  obtain ⟨hf, rfl⟩ := tokens_eq_ok_iff.1 h
  obtain ⟨hn, hr⟩ := Scan.readable_of_fault_eq_none hf
  obtain ⟨hs, ht⟩ := spaced_lexemes hn
  have hd := divides_of_spaced hs hr file [] (parted_nil _)
  rw [Scan.ofSource, hn, Scan.ofLexemes_of_readable hr, ht]
  rw [ht] at hd
  exact ⟨_, rfl, (Scan.spells_of_readable hr file .start).type_ne_eof hs.formed, hd⟩

/-- A source in which words, numerals, comments and slashes meet. -/
def meetingPieces : String := "int/**/x1//y\n012ab/*/*/-/ /"

theorem divides_meetingPieces : ∃ ts us, tokens meetingPieces "t.c" = .ok ts ∧
    ts.map Token.content = [(.typeName .int, .text "int"), (.identifier, .text "x1"), (.number, .number 12),
      (.identifier, .text "ab"), (.operator .subtract, .text "-"), (.operator .divide, .text "/"),
      (.operator .divide, .text "/"), (.eof, .absent)] ∧
    ts = us ++ [⟨.eof, .absent, (Position.start.after meetingPieces.toList).inFile "t.c"⟩] ∧
      (∀ t ∈ us, t.type ≠ .eof) ∧ Divides "t.c" [] meetingPieces.toList us := by
  have hc : (tokens meetingPieces "t.c").map (·.map Token.content) =
      .ok [(.typeName .int, .text "int"), (.identifier, .text "x1"), (.number, .number 12), (.identifier, .text "ab"),
        (.operator .subtract, .text "-"), (.operator .divide, .text "/"), (.operator .divide, .text "/"),
        (.eof, .absent)] := by
    decide +kernel
  cases ht : tokens meetingPieces "t.c" with
  | error f =>
    rw [ht] at hc
    cases hc
  | ok ts =>
    rw [ht] at hc
    obtain ⟨us, hd⟩ := divides_of_tokens ht
    exact ⟨ts, us, rfl, Except.ok.inj hc, hd⟩

end TinyArm
