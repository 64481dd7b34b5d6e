import TinyArm.Files.Compile
import TinyArm.Proofs.Places

/-!
# Carriage returns at the ends of lines

A text is paired if each carriage return in it stands right before a line feed. Without its carriage returns it has the
same tokens at the same places, and so comes to the same assembly or to the same report; and this is the text that is
read from a file, where newlines are made uniform.

* `Lexeme.next_dropReturns`: one lexeme of a paired text and of the text without carriage returns.
* `Scan.ofLexemes_dropReturns`: the simulation. The two scans stand at the same place (`SamePlace`), except between a
  carriage return and its line feed, where they are in the same line and the next character ends it.
* `compile_unquoted`: what sources with the same scan come to, but for the lines of the source that reports show.
* `compileFile_eq_compileText`: **a file comes to what its text comes to**, and the ends of its lines do not matter.
-/

namespace TinyArm

/-! ## Paired texts -/

/-- Every carriage return is followed by a line feed at once. -/
def Paired (cs : List Char) : Prop := ∀ i, cs[i]? = some '\r' → cs[i + 1]? = some '\n'

instance (cs : List Char) : Decidable (Paired cs) :=
  decidable_of_iff (∀ i < cs.length, cs[i]? = some '\r' → cs[i + 1]? = some '\n')
    ⟨fun h i hi => h i (List.getElem?_eq_some_iff.1 hi).1 hi, fun h i _ => h i⟩

/-- A text with a line feed in the place of every pair of a carriage return and a line feed. -/
def joinReturns : List Char → List Char
  | [] => []
  | '\r' :: '\n' :: cs => '\n' :: joinReturns cs
  | c :: cs => c :: joinReturns cs

/-- A text without its carriage returns. -/
def dropReturns (cs : List Char) : List Char := cs.filter (· ≠ '\r')

@[simp] theorem dropReturns_nil : dropReturns [] = [] := rfl

@[simp] theorem dropReturns_return (cs : List Char) : dropReturns ('\r' :: cs) = dropReturns cs := rfl

theorem dropReturns_cons {c : Char} (h : c ≠ '\r') (cs : List Char) : dropReturns (c :: cs) = c :: dropReturns cs :=
  List.filter_cons_of_pos (by simpa using h)

theorem dropReturns_append (cs ds : List Char) : dropReturns (cs ++ ds) = dropReturns cs ++ dropReturns ds :=
  List.filter_append cs ds

/-- Uniform newlines: pairs are joined, and then a lone carriage return is a newline too. -/
theorem unifyNewlines_eq_map (cs : List Char) :
    Text.unifyNewlines cs = (joinReturns cs).map fun c => if c = '\r' then '\n' else c := by
  fun_induction joinReturns cs with
  | case1 => rfl
  | case2 cs ih => rw [Text.unifyNewlines, ih]; rfl
  | case3 c cs hc ih => rw [Text.unifyNewlines.eq_3 _ _ hc, ih]; rfl

namespace Paired

variable {c : Char} {cs ds : List Char}

theorem tail (h : Paired (c :: cs)) : Paired cs := fun i hi => h (i + 1) hi

theorem of_append (h : Paired (cs ++ ds)) : Paired ds := by
  induction cs with
  | nil => exact h
  | cons c cs ih => exact ih h.tail

theorem exists_cons (h : Paired ('\r' :: cs)) : ∃ ds, cs = '\n' :: ds := by
  have hn := h 0 rfl
  exact List.head?_eq_some_iff.1 (by rw [← hn, List.head?_eq_getElem?]; rfl)

theorem joinReturns_eq (h : Paired cs) : joinReturns cs = dropReturns cs := by
  fun_induction joinReturns cs with
  | case1 => rfl
  | case2 cs ih => rw [ih h.tail.tail, dropReturns_return, dropReturns_cons (by decide)]
  | case3 c cs hc ih =>
    have hr : c ≠ '\r' := by
      rintro rfl
      obtain ⟨ds, rfl⟩ := h.exists_cons
      exact hc ds rfl rfl
    rw [ih h.tail, dropReturns_cons hr]

/-- Dropping the carriage returns makes the newlines uniform. -/
theorem unifyNewlines_eq (h : Paired cs) : Text.unifyNewlines cs = dropReturns cs := by
  rw [unifyNewlines_eq_map, h.joinReturns_eq]
  refine (List.map_congr_left fun c hc => if_neg ?_).trans (List.map_id _)
  simpa using (List.mem_filter.1 hc).2

/-- A text goes on with the same character, unless this ends the line. -/
theorem head?_dropReturns (h : Paired cs) {d : Char} (hr : d ≠ '\r') (hn : d ≠ '\n') :
    (dropReturns cs).head? = some d ↔ cs.head? = some d := by
  cases cs with
  | nil => rfl
  | cons c cs =>
    by_cases hc : c = '\r'
    · subst hc
      obtain ⟨ds, rfl⟩ := h.exists_cons
      rw [dropReturns_return, dropReturns_cons (by decide)]
      simp [hr.symm, hn.symm]
    · rw [dropReturns_cons hc]
      rfl

/-- What does not reach the end of a line does not change. -/
theorem takeWhile_dropReturns (h : Paired cs) {p : Char → Bool} (hr : p '\r' = false) (hn : p '\n' = false) :
    (dropReturns cs).takeWhile p = cs.takeWhile p ∧ (dropReturns cs).dropWhile p = dropReturns (cs.dropWhile p) := by
  induction cs with
  | nil => exact ⟨rfl, rfl⟩
  | cons c cs ih =>
    by_cases hc : c = '\r'
    · subst hc
      obtain ⟨ds, rfl⟩ := h.exists_cons
      rw [dropReturns_return, dropReturns_cons (by decide)]
      simp [hr, hn, dropReturns_cons]
    · rw [dropReturns_cons hc]
      cases hp : p c with
      | false => simp [hp, dropReturns_cons hc]
      | true => simp [hp, ih h.tail]

end Paired

/-- The rest of a line, without its carriage returns. -/
theorem takeWhile_line (cs : List Char) :
    (dropReturns cs).takeWhile (· ≠ '\n') = dropReturns (cs.takeWhile (· ≠ '\n')) ∧
      (dropReturns cs).dropWhile (· ≠ '\n') = dropReturns (cs.dropWhile (· ≠ '\n')) := by
  induction cs with
  | nil => exact ⟨rfl, rfl⟩
  | cons c cs ih =>
    by_cases hr : c = '\r'
    · subst hr
      simpa using ih
    · rw [dropReturns_cons hr]
      by_cases hn : c = '\n'
      · subst hn
        simp [dropReturns_cons]
      · simpa [hn, dropReturns_cons hr] using ih

theorem closeComment?_cons {c : Char} {cs : List Char} (h : c = '*' → cs.head? ≠ some '/') :
    closeComment? (c :: cs) = (closeComment? cs).map fun p => (c :: p.1, p.2) :=
  closeComment?.eq_3 _ _ fun _ hc hcs => h hc (by rw [hcs]; rfl)

theorem Paired.closeComment?_dropReturns {cs : List Char} (h : Paired cs) :
    closeComment? (dropReturns cs) = (closeComment? cs).map (Prod.map dropReturns dropReturns) := by
  fun_induction closeComment? cs with
  | case1 => rfl
  | case2 rest =>
    rw [dropReturns_cons (by decide), dropReturns_cons (by decide), closeComment?]
    rfl
  | case3 c rest hc ih =>
    have ih := ih h.tail
    by_cases hr : c = '\r'
    · subst hr
      rw [dropReturns_return, ih, Option.map_map]
      rfl
    · have hs : c = '*' → (dropReturns rest).head? ≠ some '/' := by
        intro hs hh
        obtain ⟨ds, rfl⟩ := List.head?_eq_some_iff.1 ((h.tail.head?_dropReturns (by decide) (by decide)).1 hh)
        exact hc ds hs rfl
      rw [dropReturns_cons hr, closeComment?_cons hs, ih, Option.map_map, Option.map_map]
      congr 1
      funext p
      simp [dropReturns_cons hr]

/-! ## Lexemes -/

/-- A lexeme without the carriage returns in its comment. -/
def Lexeme.dropReturns : Lexeme → Lexeme
  | lineComment body => lineComment (TinyArm.dropReturns body)
  | blockComment body => blockComment (TinyArm.dropReturns body)
  | l => l

theorem Lexeme.token_dropReturns (l : Lexeme) : l.dropReturns.token = l.token := by
  cases l <;> rfl

/-- **One lexeme of a paired text**, and what is left of it, without carriage returns. -/
theorem Lexeme.next_dropReturns {c : Char} {cs : List Char} (h : Paired (c :: cs)) :
    next c (TinyArm.dropReturns cs) = (next c cs).map (Prod.map dropReturns TinyArm.dropReturns) := by
  have hp := h.tail
  have hline : c = '/' ∧ (TinyArm.dropReturns cs).head? = some '/' ↔ c = '/' ∧ cs.head? = some '/' :=
    and_congr_right' (hp.head?_dropReturns (by decide) (by decide))
  have hblock : c = '/' ∧ (TinyArm.dropReturns cs).head? = some '*' ↔ c = '/' ∧ cs.head? = some '*' :=
    and_congr_right' (hp.head?_dropReturns (by decide) (by decide))
  -- after a mark that opens a comment comes the same body
  have htail : ∀ d, d ≠ '\r' → cs.head? = some d → (TinyArm.dropReturns cs).tail = TinyArm.dropReturns cs.tail := by
    intro d hd hh
    obtain ⟨ds, rfl⟩ := List.head?_eq_some_iff.1 hh
    rw [dropReturns_cons hd]
    rfl
  unfold next
  simp only [hline, hblock]
  split
  · rfl
  split
  · next hs =>
    rw [htail '/' (by decide) hs.2, (takeWhile_line _).1, (takeWhile_line _).2]
    rfl
  split
  · next hs =>
    obtain ⟨ds, rfl⟩ := List.head?_eq_some_iff.1 hs.2
    rw [htail '*' (by decide) hs.2, List.tail_cons, hp.tail.closeComment?_dropReturns]
    cases closeComment? ds <;> rfl
  split
  · obtain ⟨ht, hd⟩ := hp.takeWhile_dropReturns (p := isWordPart) (by decide) (by decide)
    rw [ht, hd]
    rfl
  split
  · obtain ⟨ht, hd⟩ := hp.takeWhile_dropReturns (p := Char.isDigit) (by decide) (by decide)
    rw [ht, hd]
    rfl
  · split <;> rfl

theorem Lexeme.text_of_next_dropReturns {c : Char} {cs rest : List Char} {l l' : Lexeme} (hc : c ≠ '\r')
    (h : next c cs = .ok (l, rest)) (h' : next c (TinyArm.dropReturns cs) = .ok (l', TinyArm.dropReturns rest)) :
    l'.text = TinyArm.dropReturns l.text := by
  have he := text_append_of_next h'
  rw [← dropReturns_cons hc, ← text_append_of_next h, dropReturns_append] at he
  exact List.append_cancel_right he

/-! ## Places -/

/-- Two places in a text, with carriage returns and without: they are the same, or else the carriage return of a line
has just been read, and its line feed comes next. -/
def SamePlace (rest : List Char) (p p' : Position) : Prop := p = p' ∨ p.line = p'.line ∧ rest.head? = some '\n'

theorem SamePlace.eq {c : Char} {cs : List Char} {p p' : Position} (h : SamePlace (c :: cs) p p') (hc : c ≠ '\n') :
    p = p' := by
  rcases h with h | ⟨-, h⟩
  · exact h
  · exact absurd (Option.some.inj h) hc

theorem SamePlace.step {c : Char} {cs : List Char} {p p' : Position} (h : SamePlace (c :: cs) p p') :
    p.step c = p'.step c := by
  rcases h with rfl | ⟨hl, hc⟩
  · rfl
  · cases Option.some.inj hc
    simp [Position.step, hl]

/-- Places stay the same along a text. -/
theorem SamePlace.after {cs rest : List Char} (hp : Paired (cs ++ rest)) {p p' : Position}
    (h : SamePlace (cs ++ rest) p p') : SamePlace rest (p.after cs) (p'.after (dropReturns cs)) := by
  induction cs generalizing p p' with
  | nil => exact h
  | cons c cs ih =>
    by_cases hc : c = '\r'
    · subst hc
      obtain ⟨ds, hd⟩ : ∃ ds, cs ++ rest = '\n' :: ds := Paired.exists_cons hp
      have hs : SamePlace (cs ++ rest) (p.step '\r') p' := by
        rw [← SamePlace.eq h (by decide)]
        exact .inr ⟨rfl, by rw [hd]; rfl⟩
      exact ih hp.tail hs
    · rw [dropReturns_cons hc, Position.after_cons, Position.after_cons, ← SamePlace.step h]
      exact ih hp.tail (.inl rfl)

/-! ## Scans -/

/-- A line feed is no token. -/
theorem Lexeme.token_of_next_newline {cs rest : List Char} {l : Lexeme} (h : next '\n' cs = .ok (l, rest)) :
    l.token = .ok none := by
  cases h
  rfl

/-- **A paired text and the text without carriage returns are scanned alike**, from places that are the same. -/
theorem Scan.ofLexemes_dropReturns (file : String) {cs : List Char} (hp : Paired cs) {p p' : Position}
    (h : SamePlace cs p p') :
    ofLexemes file (lexemes (dropReturns cs)).2 p' (lexemes (dropReturns cs)).1 =
      ofLexemes file (lexemes cs).2 p (lexemes cs).1 := by
  fun_induction lexemes cs generalizing p p' with
  | case1 =>
    rcases h with rfl | ⟨-, h⟩
    · rw [dropReturns_nil, lexemes]
    · cases h
  | case2 c cs l rest hn _ r ih =>
    have htext := Lexeme.text_append_of_next hn
    have hpt : Paired (l.text ++ rest) := htext.symm ▸ hp
    have ih := ih hpt.of_append (SamePlace.after hpt (htext.symm ▸ h))
    by_cases hc : c = '\r'
    · subst hc
      have hr : Lexeme.next '\r' cs = .ok (.blank '\r', cs) := rfl
      cases hn.symm.trans hr
      exact ih
    · have hn' : Lexeme.next c (dropReturns cs) = .ok (l.dropReturns, dropReturns rest) := by
        rw [Lexeme.next_dropReturns hp, hn]
        rfl
      have htext' : l.dropReturns.text = dropReturns l.text := Lexeme.text_of_next_dropReturns hc hn hn'
      have hplace : l.token ≠ .ok none → p = p' := fun ht => h.eq fun e =>
        ht (Lexeme.token_of_next_newline (e ▸ hn))
      rw [dropReturns_cons hc, lexemes_cons_of_next hn']
      simp only [r]
      cases ht : l.token with
      | error f =>
        rw [ofLexemes, ofLexemes, l.token_dropReturns, ht, hplace (by simp [ht])]
      | ok k =>
        cases k with
        | none =>
          rw [ofLexemes_cons_none (l.token_dropReturns.trans ht), ofLexemes_cons_none ht, htext']
          exact ih
        | some k =>
          rw [ofLexemes_cons_some (l.token_dropReturns.trans ht), ofLexemes_cons_some ht, htext', ih,
            hplace (by simp [ht])]
  | case3 c cs f hn =>
    have hc : c ≠ '\r' := by
      rintro rfl
      cases hn
    have hl : c ≠ '\n' := by
      rintro rfl
      cases hn
    have hn' : Lexeme.next c (dropReturns cs) = .error f := by
      rw [Lexeme.next_dropReturns hp, hn]
      rfl
    rw [dropReturns_cons hc, lexemes_cons_of_error hn', h.eq hl]

theorem Scan.ofSource_dropReturns {cs : List Char} (hp : Paired cs) (file : String) :
    ofSource (dropReturns cs) file = ofSource cs file :=
  ofLexemes_dropReturns file hp (.inl rfl)

/-! ## Reports without the lines that they show -/

/-- A failure without the line of the source that it shows. -/
def Failure.unquoted : Failure → Failure
  | diagnostic d => report d.cause d.location
  | f => f

theorem LexicalFault.unquoted_failure (source source' : List Char) (file : String) (p : Position) (g : LexicalFault) :
    (g.failure source file p).unquoted = (g.failure source' file p).unquoted := by
  cases g <;> rfl

theorem Refusal.unquoted_failure (lines lines' : List String) (r : Refusal) :
    (r.failure lines).unquoted = (r.failure lines').unquoted := by
  cases r <;> rfl

/-- Steps that agree up to some part of their failures can be put together. -/
theorem mapError_bind_congr {ε ε' α β : Type} {g : ε → ε'} {x y : Except ε α} (h : x.mapError g = y.mapError g)
    {f f' : α → Except ε β} (hf : ∀ a, (f a).mapError g = (f' a).mapError g) :
    (x >>= f).mapError g = (y >>= f').mapError g := by
  cases x with
  | ok a =>
    cases mapError_eq_ok_iff.1 h.symm
    exact hf a
  | error e =>
    cases y with
    | ok b => cases h
    | error e' => exact congrArg Except.error (Except.error.inj h)

section Compiling

variable {source source' : String}

/-- The tokens of sources with the same scan are the same, and so is what stops them. -/
theorem tokenize_unquoted {file : String}
    (h : Scan.ofSource source.toList file = Scan.ofSource source'.toList file) :
    (tokenize source file).1 = (tokenize source' file).1 ∧
      (tokenize source file).2.map Failure.unquoted = (tokenize source' file).2.map Failure.unquoted := by
  simp only [tokenize, h]
  cases (Scan.ofSource source'.toList file).fault with
  | none => exact ⟨rfl, rfl⟩
  | some g => exact ⟨rfl, congrArg some (g.unquoted_failure _ _ _ _)⟩

theorem tokens_unquoted {file : String}
    (h : Scan.ofSource source.toList file = Scan.ofSource source'.toList file) :
    (tokens source file).mapError Failure.unquoted = (tokens source' file).mapError Failure.unquoted := by
  simp only [tokens, tokenize, h]
  cases (Scan.ofSource source'.toList file).fault with
  | none => rfl
  | some g => exact congrArg Except.error (g.unquoted_failure _ _ _ _)

/-- **Sources with the same scan come to the same**, but for the lines that reports show. -/
theorem compile_unquoted {file : String} (h : Scan.ofSource source.toList file = Scan.ofSource source'.toList file)
    (options : Options) :
    (compile options source file).mapError Failure.unquoted =
      (compile options source' file).mapError Failure.unquoted := by
  refine mapError_bind_congr (tokens_unquoted h) fun ts => mapError_bind_congr ?_ fun n => rfl
  simp only [RawNode.ofTokens]
  cases readTokens file ts with
  | ok n => rfl
  | error k => exact congrArg Except.error (k.refusal.unquoted_failure _ _)

theorem compileText_unquoted {file : String}
    (h : Scan.ofSource source.toList file = Scan.ofSource source'.toList file) :
    (compileText source file).mapError Failure.unquoted = (compileText source' file).mapError Failure.unquoted :=
  mapError_bind_congr (compile_unquoted h {}) fun _ => rfl

end Compiling

/-! ## Files -/

theorem compileSourceFile_of_readSource {w : Workspace} {file s : String} {e : FileEntry}
    (hf : w.find? (Path.ofString file) = .ok e) (hr : readSource w (Path.ofString file) = .ok s) (options : Options) :
    compileSourceFile options w file = compile options s file := by
  unfold compileSourceFile
  rw [hf, hr]

/-- Without an output path only the text of the assembly is given. -/
theorem compileFile_none (w : Workspace) (file : String) :
    (compileFile w file none).2 = (compileSourceFile {} w file).map (·.assembly.text) := by
  unfold compileFile
  cases compileSourceFile {} w file <;> rfl

/-- A file that holds a paired text comes to what the text without carriage returns comes to. -/
theorem compileFile_eq {w : Workspace} {file s : String} (hs : Paired s.toList)
    (hf : w.find? (Path.ofString file) = .ok (.file (Text.Utf8.encode s.toList))) :
    (compileFile w file none).2 = compileText (String.ofList (dropReturns s.toList)) file := by
  have hb : w.read? (Path.ofString file) = .ok (Text.Utf8.encode s.toList) := by
    unfold Workspace.read?
    rw [hf]
  have hr : readSource w (Path.ofString file) = .ok (String.ofList (dropReturns s.toList)) := by
    unfold readSource
    rw [hb, ← hs.unifyNewlines_eq]
    simp only [Text.Utf8.decode_encode]
  rw [compileFile_none, compileSourceFile_of_readSource hf hr]
  rfl

/-- **The ends of lines do not matter, and a file comes to what its text comes to.** If every carriage return of a text
stands before a line feed, and a file holds the text as UTF-8, then both have the same assembly, or fail for the same
cause at the same place. With a line feed for every pair, the text has the same tokens at the same places, up to the
same failure. -/
theorem compileFile_eq_compileText {w : Workspace} {file s : String} (hs : Paired s.toList)
    (hf : w.find? (Path.ofString file) = .ok (.file (Text.Utf8.encode s.toList))) :
    (compileFile w file none).2.mapError Failure.unquoted = (compileText s file).mapError Failure.unquoted ∧
      ∀ name, (tokenize s name).1 = (tokenize (String.ofList (joinReturns s.toList)) name).1 ∧
        (tokenize s name).2.map Failure.unquoted =
          (tokenize (String.ofList (joinReturns s.toList)) name).2.map Failure.unquoted := by
  have hscan : ∀ name, Scan.ofSource s.toList name =
      Scan.ofSource (String.ofList (dropReturns s.toList)).toList name := fun name => by
    rw [String.toList_ofList, Scan.ofSource_dropReturns hs]
  rw [compileFile_eq hs hf, hs.joinReturns_eq]
  exact ⟨(compileText_unquoted (hscan file)).symm, fun name => tokenize_unquoted (hscan name)⟩

/-- A source with comments and an operand too many, its lines ended by carriage returns and line feeds. -/
def twoOperands : String := "int f() // one\r\n\x7b return /* two\r\n */ 1 2;\r\n\x7d\r\n"

/-- A working directory with this source in it. -/
def twoOperandsFile : Workspace := ⟨[(⟨"", ["f.c"]⟩, .file (Text.Utf8.encode twoOperands.toList))]⟩

theorem compileFile_eq_compileText_twoOperands :
    Paired twoOperands.toList ∧
      twoOperandsFile.find? (Path.ofString "f.c") = .ok (.file (Text.Utf8.encode twoOperands.toList)) ∧
      (compileFile twoOperandsFile "f.c" none).2.mapError Failure.unquoted =
        .error (.report (.operands "too many operands") (some ⟨"f.c", 3, 7⟩)) ∧
      (compileFile twoOperandsFile "f.c" none).2.mapError Failure.unquoted =
        (compileText twoOperands "f.c").mapError Failure.unquoted ∧
      ∀ name, (tokenize twoOperands name).1 = (tokenize (String.ofList (joinReturns twoOperands.toList)) name).1 ∧
        (tokenize twoOperands name).2.map Failure.unquoted =
          (tokenize (String.ofList (joinReturns twoOperands.toList)) name).2.map Failure.unquoted := by
  have hs : Paired twoOperands.toList := by decide +kernel
  have hf : twoOperandsFile.find? (Path.ofString "f.c") = .ok (.file (Text.Utf8.encode twoOperands.toList)) := by
    decide +kernel
  exact ⟨hs, hf, by decide +kernel, compileFile_eq_compileText hs hf⟩

end TinyArm
