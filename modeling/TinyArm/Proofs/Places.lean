import Mathlib.Data.List.DropRight
import TinyArm.Proofs.Literals
import TinyArm.Proofs.Partition

/-!
# Places in a source

The scanner counts lines and columns as it goes. What it has counted at a place is what the text before the place says:
how many line feeds there are in it, and how many characters after the last of them.

* `Position.start_after`: the line and the column after a text.
* `Falls`: a text falls into lexemes and a rest; no word and no numeral goes on into the rest (`Falls.parted`).
* `exists_text_of_mem`: **a token stands where its text is**, also in a source that has a fault later on.
* `exists_faultAt`: **a scan stops at its fault**, and what is there is the matter.
-/

namespace TinyArm

/-! ## Lines and columns -/

/-- **The line and the column after a text**: its line feeds and the characters after the last one, both counted from
one. -/
theorem Position.start_after (cs : List Char) :
    start.after cs = ⟨1 + cs.count '\n', 1 + (cs.rtakeWhile (· ≠ '\n')).length⟩ := by
  induction cs using List.reverseRecOn with
  | nil => rfl
  | append_singleton cs c ih =>
    rw [after_append, ih, after_cons, after_nil, step]
    by_cases hc : c = '\n'
    · subst hc
      simp [List.rtakeWhile_concat_neg]
      omega
    · simp [hc, List.rtakeWhile_concat_pos]
      omega

/-! ## Lexemes and a rest -/

/-- A text that falls into lexemes, taken off its front one after the other, and a rest. -/
inductive Falls : List Char → List Lexeme → List Char → Prop where
  | nil (cs : List Char) : Falls cs [] cs
  | cons {c : Char} {cs mid rest : List Char} {l : Lexeme} {ls : List Lexeme} : Lexeme.next c cs = .ok (l, mid) →
      Falls mid ls rest → Falls (c :: cs) (l :: ls) rest

theorem lexemes_cons_of_error {c : Char} {cs : List Char} {g : LexicalFault} (h : Lexeme.next c cs = .error g) :
    lexemes (c :: cs) = ([], some g) := by
  rw [lexemes]
  split
  · next l rest h' =>
    rw [h] at h'
    cases h'
  · next g' h' =>
    rw [h] at h'
    cases h'
    rfl

namespace Falls

variable {cs rest : List Char} {ls : List Lexeme}

theorem textOf_append (h : Falls cs ls rest) : textOf ls ++ rest = cs := by
  induction h with
  | nil => rfl
  | cons hn _ ih => rw [textOf_cons, List.append_assoc, ih, Lexeme.text_append_of_next hn]

/-- Where a lexeme ends nothing goes on. -/
theorem parted (h : Falls cs ls rest) {before : List Char} (hp : Parted before cs) :
    Parted (before ++ textOf ls) rest := by
  induction h generalizing before with
  | nil => rwa [textOf_nil, List.append_nil]
  | cons hn _ ih =>
    rw [← Lexeme.text_append_of_next hn] at hp
    rw [textOf_cons, ← List.append_assoc]
    exact ih (hp.append (Lexeme.formed_of_next hn) (Lexeme.stops_of_next hn))

end Falls

/-- **The lexemes of a text can be cut anywhere**: the rest has the others. -/
theorem falls_of_lexemes {cs : List Char} {ls ms : List Lexeme} (h : (lexemes cs).1 = ls ++ ms) :
    ∃ rest, Falls cs ls rest ∧ lexemes rest = (ms, (lexemes cs).2) := by
  induction ls generalizing cs with
  | nil => exact ⟨cs, .nil cs, Prod.ext h rfl⟩
  | cons l ls ih =>
    cases cs with
    | nil =>
      rw [lexemes] at h
      cases h
    | cons c cs =>
      cases hn : Lexeme.next c cs with
      | error g =>
        rw [lexemes_cons_of_error hn] at h
        cases h
      | ok p =>
        rw [lexemes_cons_of_next hn] at h ⊢
        obtain ⟨rfl, hs⟩ := List.cons.inj h
        obtain ⟨rest, hf, hr⟩ := ih hs
        exact ⟨rest, .cons hn hf, hr⟩

/-- A text with a fault has its lexemes up to a place that no lexeme can be taken from. -/
theorem exists_next_of_fault {cs : List Char} {g : LexicalFault} (h : (lexemes cs).2 = some g) :
    ∃ c ds, Falls cs (lexemes cs).1 (c :: ds) ∧ Lexeme.next c ds = .error g := by
  obtain ⟨rest, hf, hr⟩ := falls_of_lexemes (List.append_nil (lexemes cs).1).symm
  rw [h] at hr
  cases rest with
  | nil =>
    rw [lexemes] at hr
    cases hr
  | cons c ds =>
    refine ⟨c, ds, hf, ?_⟩
    cases hn : Lexeme.next c ds with
    | error g' =>
      rw [lexemes_cons_of_error hn] at hr
      cases hr
      rfl
    | ok p =>
      rw [lexemes_cons_of_next hn] at hr
      cases hr

/-- **Each lexeme of a text** is formed, stops where the next begins, and goes on with nothing before it. -/
theorem exists_falls_of_lexemes {cs : List Char} {ls ms : List Lexeme} {l : Lexeme}
    (h : (lexemes cs).1 = ls ++ l :: ms) :
    ∃ rest, Falls cs ls (l.text ++ rest) ∧ l.Formed ∧ l.Stops rest ∧ Parted (textOf ls) (l.text ++ rest) := by
  obtain ⟨rest, hf, hr⟩ := falls_of_lexemes h
  cases rest with
  | nil =>
    rw [lexemes] at hr
    cases hr
  | cons c ds =>
    cases hn : Lexeme.next c ds with
    | error g =>
      rw [lexemes_cons_of_error hn] at hr
      cases hr
    | ok p =>
      rw [lexemes_cons_of_next hn] at hr
      obtain rfl : p.1 = l := (List.cons.inj (congrArg Prod.fst hr)).1
      rw [← Lexeme.text_append_of_next hn] at hf
      exact ⟨p.2, hf, Lexeme.formed_of_next hn, Lexeme.stops_of_next hn, hf.parted (parted_nil cs)⟩

/-- A text without a fault falls into its lexemes, and nothing is left. -/
theorem falls_lexemes {cs : List Char} (h : (lexemes cs).2 = none) : Falls cs (lexemes cs).1 [] := by
  obtain ⟨rest, hf, -⟩ := falls_of_lexemes (List.append_nil (lexemes cs).1).symm
  have ht := hf.textOf_append
  rw [(spaced_lexemes h).2] at ht
  exact List.append_right_eq_self.1 ht ▸ hf

/-! ## Tokens -/

/-- A token of a scan is the token of a lexeme, at the place where this starts. -/
theorem Scan.exists_lexeme_of_mem {file : String} {fault : Option LexicalFault} {p : Position} {ls : List Lexeme}
    {t : Token} (ht : t ∈ (ofLexemes file fault p ls).tokens) :
    ∃ ls₁ l ls₂, ls = ls₁ ++ l :: ls₂ ∧ l.token = .ok (some t.content) ∧
      t.location = (p.after (textOf ls₁)).inFile file := by
  induction ls generalizing p with
  | nil => cases ht
  | cons l ls ih =>
    cases hl : l.token with
    | error g =>
      rw [ofLexemes, hl] at ht
      cases ht
    | ok o =>
      cases o with
      | none =>
        rw [ofLexemes_cons_none hl] at ht
        obtain ⟨ls₁, m, ls₂, rfl, hm, hp⟩ := ih ht
        exact ⟨l :: ls₁, m, ls₂, rfl, hm, by rw [hp, textOf_cons, Position.after_append]⟩
      | some k =>
        rw [ofLexemes_cons_some hl] at ht
        rcases List.mem_cons.1 ht with rfl | ht
        · exact ⟨[], l, ls, rfl, hl, rfl⟩
        · obtain ⟨ls₁, m, ls₂, rfl, hm, hp⟩ := ih ht
          exact ⟨l :: ls₁, m, ls₂, rfl, hm, by rw [hp, textOf_cons, Position.after_append]⟩

/-- **A token stands where its text is**: the source falls into lexemes up to there. -/
theorem exists_text_of_mem {source : List Char} {file : String} {t : Token}
    (ht : t ∈ (Scan.ofSource source file).tokens) :
    ∃ ls cs rest, Falls source ls (cs ++ rest) ∧ IsTokenText (textOf ls) cs rest t.content ∧
      t.location = (Position.start.after (textOf ls)).inFile file := by
  obtain ⟨ls₁, l, ls₂, he, hl, hp⟩ := Scan.exists_lexeme_of_mem ht
  obtain ⟨rest, hf, hl', hs, hb⟩ := exists_falls_of_lexemes he
  exact ⟨ls₁, l.text, rest, hf,
    isTokenText_of_content? (Lexeme.content?_of_token hl) (Lexeme.readable_of_token hl) hl' hs hb, hp⟩

/-! ## Faults -/

/-- What is the matter at a place in a source, after `before`: a comment that is not closed, a character that starts
no lexeme, a literal beyond 32 bits, or one of too many digits. -/
inductive FaultAt (before : List Char) : List Char → LexicalFault → Prop where
  | openComment {cs : List Char} : ¬['*', '/'] <:+: cs → FaultAt before ('/' :: '*' :: cs) .openComment
  | character {c : Char} {cs : List Char} : isBlank c = false → isWordPart c = false → TokenType.ofSymbol? c = none →
      FaultAt before (c :: cs) (.character c)
  | literalRange {ds rest : List Char} : Maximal IsNumeral before ds rest → maxLiteral < Nat.ofDigitChars 10 ds 0 →
      FaultAt before (ds ++ rest) (.literalRange ds)
  | literalLength {ds rest : List Char} : Maximal IsNumeral before ds rest → maxDigits < ds.length →
      FaultAt before (ds ++ rest) (.literalLength ds.length)

/-- A text in which no comment is closed has no closing mark. -/
theorem not_infix_of_closeComment?_eq_none {cs : List Char} (h : closeComment? cs = none) : ¬['*', '/'] <:+: cs := by
  fun_induction closeComment? cs with
  | case1 => simp
  | case2 => cases h
  | case3 c rest hc ih =>
    rw [List.infix_cons_iff]
    rintro (hp | hi)
    · obtain ⟨tail, ht⟩ := hp
      obtain ⟨rfl, ht⟩ := List.cons.inj ht
      exact hc tail rfl (List.cons.inj ht).2.symm
    · exact ih (Option.map_eq_none_iff.1 h) hi

theorem faultAt_of_next {before : List Char} {c : Char} {cs : List Char} {g : LexicalFault}
    (h : Lexeme.next c cs = .error g) : FaultAt before (c :: cs) g := by
  rcases Lexeme.next_eq_error_cases h with ⟨ds, rfl, rfl, hn, rfl⟩ | ⟨hb, hw, ht, rfl⟩
  · exact .openComment (not_infix_of_closeComment?_eq_none hn)
  · exact .character hb hw ht

/-- **A scan stops at its fault**: the source falls into lexemes up to there, these have been read, and what is there is
the matter. -/
theorem exists_faultAt {source : List Char} {file : String} {g : LexicalFault}
    (h : (Scan.ofSource source file).fault = some g) :
    ∃ ls rest, Falls source ls rest ∧ FaultAt (textOf ls) rest g ∧ (∀ l ∈ ls, l.Readable) ∧
      Scan.ofSource source file =
        ⟨(Scan.ofLexemes file none .start ls).tokens, Position.start.after (textOf ls), some g⟩ := by
  rcases readable_or_exists_literal (lexemes source).1 with hr | ⟨ls, ds, after, he, hb, hd⟩
  · have hs : Scan.ofSource source file = _ := Scan.ofLexemes_of_readable hr file (lexemes source).2 .start
    rw [hs] at h ⊢
    have hg : (lexemes source).2 = some g := h
    obtain ⟨c, cs, hf, hn⟩ := exists_next_of_fault hg
    exact ⟨_, _, hf, faultAt_of_next hn, hr, by rw [hg]⟩
  · have hreach := ReachesLiteral.of_readable he hb
    obtain ⟨rest, hf, hn, hs, hp⟩ := exists_falls_of_lexemes he
    have hm : Maximal IsNumeral (textOf ls) ds rest := maximal_numeral hp hn hs
    rcases Lexeme.token_numeral_cases ds with ⟨hl, ht⟩ | ⟨-, hn, ht⟩ | ⟨hl, hn, -⟩
    · have hstop := hreach.ofSource_eq ht file
      rw [hstop] at h
      cases h
      exact ⟨ls, ds ++ rest, hf, .literalLength hm hl, hb, hstop⟩
    · have hstop := hreach.ofSource_eq ht file
      rw [hstop] at h
      cases h
      exact ⟨ls, ds ++ rest, hf, .literalRange hm hn, hb, hstop⟩
    · exact absurd (Lexeme.readable_iff.2 fun _ e => Lexeme.numeral.inj e ▸ ⟨hl, hn⟩) hd

end TinyArm
