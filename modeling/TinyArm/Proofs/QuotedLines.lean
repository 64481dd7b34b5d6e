import TinyArm.Proofs.Pointing

/-!
# The lines that reports quote

The place of a report counts the lines between line feeds, but the line that a report on the order of tokens quotes is
taken from the lines between any two line boundaries. `Quotes` says what a quoted line promises, and the report keeps
this where the two kinds of lines agree.

* `Text.textLines`: the lines between line feeds, a carriage return just before a line feed aside.
* `Text.getElem?_newlineLines`: the line that a place is in.
* `Text.getElem?_textLines_of_brokenLines`: **the two kinds of lines agree as long as the lines are plain.**
* `quotes_line_of_ofSource`: **the line that is quoted, and when it is the right one.**
-/

namespace TinyArm

namespace Text

/-! ## Lines between line feeds -/

/-- A line without the carriage return at its end, if it has one. -/
def trimReturn (l : List Char) : List Char := if l.getLast? = some '\r' then l.dropLast else l

/-- Lines that end in line feeds, up to the last one, without the carriage returns at their ends. -/
def trimReturns : List (List Char) → List (List Char)
  | l :: m :: ls => trimReturn l :: trimReturns (m :: ls)
  | ls => ls

/-- The lines of a text between line feeds; a carriage return just before a line feed is in no line. -/
def textLines (cs : List Char) : List (List Char) := trimReturns (newlineLines cs)

/-- Line number `n` of a text, counted from one. -/
def lineText (cs : List Char) (n : Nat) : List Char := (textLines cs)[n - 1]?.getD []

/-- A line without a line boundary in it. -/
def IsPlain (l : List Char) : Prop := ∀ c ∈ l, isLineBreak c = false

instance : DecidablePred IsPlain := fun l => List.decidableBAll (fun c => isLineBreak c = false) l

variable {c : Char} {cs l x : List Char} {n : Nat}

theorem newlineLines_newline (cs : List Char) : newlineLines ('\n' :: cs) = [] :: newlineLines cs := rfl

theorem newlineLines_cons (hc : c ≠ '\n') (cs : List Char) : newlineLines (c :: cs) = pushFront c (newlineLines cs) :=
  if_neg hc

theorem exists_newlineLines (cs : List Char) :
    ∃ ls, newlineLines cs = cs.takeWhile (· ≠ '\n') :: ls := by
  induction cs with
  | nil => exact ⟨[], rfl⟩
  | cons c cs ih =>
    by_cases hc : c = '\n'
    · subst hc
      exact ⟨_, rfl⟩
    · obtain ⟨ls, ih⟩ := ih
      exact ⟨ls, by simp [newlineLines_cons hc, ih, pushFront, hc]⟩

/-- A line feed parts the lines before it from those after it. -/
theorem newlineLines_append_newline (cs ds : List Char) :
    newlineLines (cs ++ '\n' :: ds) = newlineLines cs ++ newlineLines ds := by
  induction cs with
  | nil => rfl
  | cons c cs ih =>
    by_cases hc : c = '\n'
    · subst hc
      rw [List.cons_append, newlineLines_newline, newlineLines_newline, ih, List.cons_append]
    · obtain ⟨ls, hl⟩ := exists_newlineLines cs
      rw [List.cons_append, newlineLines_cons hc, newlineLines_cons hc, ih, hl]
      rfl

/-- There is one line more than there are line feeds. -/
theorem length_newlineLines (cs : List Char) : (newlineLines cs).length = cs.count '\n' + 1 := by
  induction cs with
  | nil => rfl
  | cons c cs ih =>
    by_cases hc : c = '\n'
    · subst hc
      rw [newlineLines_newline, List.length_cons, ih, List.count_cons_self]
    · obtain ⟨ls, hl⟩ := exists_newlineLines cs
      rw [hl, List.length_cons] at ih
      rw [newlineLines_cons hc, hl, pushFront, List.length_cons, List.count_cons_of_ne hc]
      exact ih

/-- **The line that a place is in**: what comes after the last line feed before it, up to the next line feed. -/
theorem getElem?_newlineLines (before rest : List Char) :
    (newlineLines (before ++ rest))[before.count '\n']? =
      some (before.rtakeWhile (· ≠ '\n') ++ rest.takeWhile (· ≠ '\n')) := by
  induction before using List.reverseRecOn generalizing rest with
  | nil =>
    obtain ⟨ls, hl⟩ := exists_newlineLines rest
    rw [List.nil_append, hl]
    rfl
  | append_singleton before c ih =>
    rw [List.append_assoc, List.singleton_append]
    by_cases hc : c = '\n'
    · subst hc
      obtain ⟨ls, hl⟩ := exists_newlineLines rest
      rw [newlineLines_append_newline, List.getElem?_append_right (by simp [length_newlineLines]), hl]
      simp [length_newlineLines, List.rtakeWhile_concat_neg]
    · have h := ih (c :: rest)
      simp_all [List.rtakeWhile_concat_pos]

/-! ## Carriage returns before line feeds -/

theorem trimReturn_cons (h : c = '\r' → l ≠ []) : trimReturn (c :: l) = c :: trimReturn l := by
  cases l with
  | nil => simp_all [trimReturn]
  | cons d l =>
    simp only [trimReturn, List.getLast?_cons_cons]
    split <;> rfl

/-- What is trimmed is at the end, behind a text without carriage returns. -/
theorem exists_trimReturn_append (hc : cs ≠ []) (hr : '\r' ∉ cs) (p x : List Char) :
    ∃ y, trimReturn (p ++ (cs ++ x)) = p ++ (cs ++ y) := by
  rcases List.eq_nil_or_concat x with rfl | ⟨x, d, rfl⟩
  · refine ⟨[], if_neg ?_⟩
    rw [List.append_nil, List.getLast?_append_of_ne_nil _ hc]
    exact fun h => hr (List.mem_of_getLast? h)
  · rw [List.concat_eq_append, ← List.append_assoc, ← List.append_assoc, trimReturn]
    split
    · exact ⟨x, by rw [List.dropLast_concat, List.append_assoc]⟩
    · exact ⟨x ++ [d], by simp⟩

theorem getElem?_trimReturns {ls : List (List Char)} (h : ls[n]? = some l) :
    (trimReturns ls)[n]? = some (if n + 1 = ls.length then l else trimReturn l) := by
  induction ls generalizing n with
  | nil => cases h
  | cons m ls ih =>
    cases ls with
    | nil =>
      obtain ⟨rfl, rfl⟩ : n = 0 ∧ m = l := by
        cases n <;> simp_all
      rfl
    | cons m' ls =>
      cases n with
      | zero =>
        cases h
        rfl
      | succ n =>
        rw [trimReturns, List.getElem?_cons_succ, ih h]
        simp

theorem textLines_newline (cs : List Char) : textLines ('\n' :: cs) = [] :: textLines cs := by
  obtain ⟨ls, hl⟩ := exists_newlineLines cs
  rw [textLines, textLines, newlineLines_newline, hl]
  rfl

theorem textLines_return_newline (cs : List Char) : textLines ('\r' :: '\n' :: cs) = [] :: textLines cs := by
  obtain ⟨ls, hl⟩ := exists_newlineLines cs
  rw [textLines, textLines, newlineLines_cons (by decide), newlineLines_newline, hl]
  rfl

theorem textLines_cons (hc : c ≠ '\n') (hr : c = '\r' → ∀ ds, cs ≠ '\n' :: ds) :
    textLines (c :: cs) = pushFront c (textLines cs) := by
  obtain ⟨ls, hl⟩ := exists_newlineLines cs
  rw [textLines, textLines, newlineLines_cons hc, hl, pushFront]
  cases ls with
  | nil => rfl
  | cons m ls =>
    have ht : c = '\r' → cs.takeWhile (· ≠ '\n') ≠ [] := by
      intro he hn
      cases cs with
      | nil => cases hl
      | cons d cs =>
        have hd : d ≠ '\n' := fun e => hr he cs (e ▸ rfl)
        simp [hd] at hn
    rw [trimReturns, trimReturn_cons ht]
    rfl

theorem textLines_ne_nil (cs : List Char) : textLines cs ≠ [] := by
  obtain ⟨ls, hl⟩ := exists_newlineLines cs
  rw [textLines, hl]
  cases ls <;> simp [trimReturns]

/-! ## Lines between any two boundaries -/

theorem IsPlain.tail (h : IsPlain (c :: l)) : IsPlain l := fun d hd => h d (List.mem_cons_of_mem _ hd)

theorem isPlain_of_mem_brokenLines (h : l ∈ brokenLines cs) : IsPlain l := by
  have hnil : IsPlain [] := fun _ hc => absurd hc List.not_mem_nil
  fun_induction brokenLines cs generalizing l with
  | case1 => cases h
  | case2 cs ih | case3 c cs _ hb ih =>
    rcases List.mem_cons.1 h with rfl | h
    · exact hnil
    · exact ih h
  | case4 c cs _ hb ih =>
    have hcons : ∀ {m}, IsPlain m → IsPlain (c :: m) := fun hm =>
      List.forall_mem_cons.2 ⟨by simpa using hb, hm⟩
    cases hl : brokenLines cs with
    | nil =>
      rw [hl] at h
      exact List.mem_singleton.1 h ▸ hcons hnil
    | cons m ms =>
      rw [hl] at h ih
      rcases List.mem_cons.1 h with rfl | h
      · exact hcons (ih List.mem_cons_self)
      · exact ih (List.mem_cons_of_mem _ h)

theorem brokenLines_eq_nil_iff : brokenLines cs = [] ↔ cs = [] := by
  fun_cases brokenLines cs <;> simp [pushFront_ne_nil]

/-- **The two kinds of lines agree as long as the lines are plain.** A line between two boundaries is the line of its
number if neither this nor a line before it has a boundary in it. -/
theorem getElem?_textLines_of_brokenLines (h : (brokenLines cs)[n]? = some x)
    (hp : ∀ l ∈ (textLines cs).take (n + 1), IsPlain l) : (textLines cs)[n]? = some x := by
  fun_induction brokenLines cs generalizing n x with
  | case1 => cases h
  | case2 cs ih =>
    rw [textLines_return_newline] at hp ⊢
    cases n with
    | zero => exact h
    | succ n => exact ih h fun l hl => hp l (List.mem_cons_of_mem _ hl)
  | case3 c cs hr hb ih =>
    by_cases hc : c = '\n'
    · subst hc
      rw [textLines_newline] at hp ⊢
      cases n with
      | zero => exact h
      | succ n => exact ih h fun l hl => hp l (List.mem_cons_of_mem _ hl)
    · -- the boundary would be in the first line
      rw [textLines_cons hc (fun e ds hd => hr ds (by rw [e]) hd)] at hp
      have hm : ∃ l ∈ (pushFront c (textLines cs)).take (n + 1), c ∈ l := by
        cases textLines cs <;> exact ⟨_, List.mem_cons_self, List.mem_cons_self⟩
      obtain ⟨l, hl, hm⟩ := hm
      rw [hp l hl c hm] at hb
      cases hb
  | case4 c cs hr hb ih =>
    have hc : c ≠ '\n' := fun e => hb (e ▸ rfl)
    rw [textLines_cons hc (fun e ds hd => hr ds (by rw [e]) hd)] at hp ⊢
    obtain ⟨m, ms, ht⟩ := List.exists_cons_of_ne_nil (textLines_ne_nil cs)
    rw [ht] at hp ih ⊢
    have hplain : ∀ l ∈ (m :: ms).take (n + 1), IsPlain l := by
      intro l hl
      rcases List.mem_cons.1 hl with rfl | hl
      · exact (hp (c :: l) List.mem_cons_self).tail
      · exact hp l (List.mem_cons_of_mem _ hl)
    cases hl : brokenLines cs with
    | nil =>
      obtain rfl := brokenLines_eq_nil_iff.1 hl
      cases ht
      rwa [hl] at h
    | cons b bs =>
      rw [hl] at h ih
      cases n with
      | zero =>
        cases h
        cases ih rfl hplain
        rfl
      | succ n => exact ih h hplain

end Text

/-! ## Texts of tokens in their lines -/

/-- The text of a token has no blanks. -/
theorem IsTokenText.isBlank {before cs rest : List Char} {k : TokenType × Value} (h : IsTokenText before cs rest k) :
    cs ≠ [] ∧ ∀ c ∈ cs, isBlank c = false := by
  cases h with
  | word hm => exact ⟨hm.holds.ne_nil, fun c hc => isBlank_of_isWordPart (hm.holds.isWordPart c hc)⟩
  | numeral hm => exact ⟨hm.holds.1, fun c hc => isBlank_of_isWordPart (hm.holds.isWordPart c hc)⟩
  | symbol hc => exact ⟨List.cons_ne_nil _ _, List.forall_mem_singleton.2 (class_of_ofSymbol? hc).1⟩

/-- The column of a place, counted from zero. -/
def columnAfter (before : List Char) : Nat := (before.rtakeWhile (· ≠ '\n')).length

/-- Whether the text of a token that stands after `before`, in front of `rest`, is found in a line at the column of the
place. The end of input has no text and comes where the line ends. -/
def Token.ShownIn (t : Token) (before rest line : List Char) : Prop :=
  (∃ cs after, rest = cs ++ after ∧ IsTokenText before cs after t.content ∧
    cs <+: line.drop (columnAfter before)) ∨
  t.content = (.eof, .absent) ∧ rest = [] ∧ line.length = columnAfter before

/-- The line of a place, as the place divides it. -/
theorem Text.lineText_append (before rest : List Char) :
    lineText (before ++ rest) (1 + before.count '\n') =
      if 1 + before.count '\n' = (newlineLines (before ++ rest)).length
      then before.rtakeWhile (· ≠ '\n') ++ rest.takeWhile (· ≠ '\n')
      else trimReturn (before.rtakeWhile (· ≠ '\n') ++ rest.takeWhile (· ≠ '\n')) := by
  rw [lineText, Nat.add_sub_cancel_left, textLines, getElem?_trimReturns (getElem?_newlineLines before rest),
    Option.getD_some, Nat.add_comm]

variable {source file : String}

/-- **The text of a token is in the line of its place**, at its column. -/
theorem TokenAt.shownIn {before rest : List Char} {t : Token} (h : TokenAt source file before rest t) :
    t.ShownIn before rest (Text.lineText (before ++ rest) (1 + before.count '\n')) := by
  rw [Text.lineText_append]
  rcases h.text with ⟨cs, after, rfl, ht⟩ | ⟨ht, rfl⟩
  · obtain ⟨hn, hb⟩ := ht.isBlank
    have hline : (cs ++ after).takeWhile (· ≠ '\n') = cs ++ after.takeWhile (· ≠ '\n') := by
      refine List.takeWhile_append_of_pos fun c hc => ?_
      simp only [ne_eq, decide_not, Bool.not_eq_eq_eq_not, Bool.not_true, decide_eq_false_iff_not]
      rintro rfl
      exact absurd (hb _ hc) (by decide)
    have hr : '\r' ∉ cs := fun hc => absurd (hb _ hc) (by decide)
    refine .inl ⟨cs, after, rfl, ht, ?_⟩
    rw [hline, columnAfter]
    split
    · rw [List.drop_left]
      exact List.prefix_append _ _
    · obtain ⟨y, hy⟩ := Text.exists_trimReturn_append hn hr (before.rtakeWhile (· ≠ '\n'))
        (after.takeWhile (· ≠ '\n'))
      rw [hy, List.drop_left]
      exact List.prefix_append _ _
  · refine .inr ⟨ht, rfl, ?_⟩
    rw [List.append_nil, if_pos (by rw [Text.length_newlineLines, Nat.add_comm]), List.takeWhile_nil, List.append_nil,
      columnAfter]

/-! ## Quoted lines -/

/-- **What a line that a report quotes promises**, where the report is about the token that stands after `before`, in
front of `rest`: it is the line that the place is in, the text of the token is found at the column, and the mark stands
under it. -/
structure Diagnostic.Quotes (d : Diagnostic) (source : String) (before rest : List Char) (t : Token)
    (shown : String) : Prop where
  line : shown.toList = Text.lineText source.toList (1 + before.count '\n')
  text : t.ShownIn before rest shown.toList
  mark : ∃ head advice, d.lines = head :: ("    " ++ shown) ::
    String.ofList (List.replicate (4 + columnAfter before) ' ' ++ ['^']) :: advice

/-- A report with a place and a line marks the column of the place. -/
theorem Diagnostic.exists_mark {d : Diagnostic} {before : List Char} {shown : String}
    (hp : d.location = some (placeAfter file before)) (hs : d.sourceLine = some shown) :
    ∃ head advice, d.lines = head :: ("    " ++ shown) ::
      String.ofList (List.replicate (4 + columnAfter before) ' ' ++ ['^']) :: advice := by
  have h : (0 : Int) < (placeAfter file before).column := by
    simp only [placeAfter]
    omega
  have e : 3 + (placeAfter file before).column.toNat = 4 + columnAfter before := by
    simp only [placeAfter, columnAfter, Int.toNat_natCast]
    omega
  simp only [lines, hp, hs, caret, if_pos h, e]
  exact ⟨_, _, rfl⟩

theorem getElem?_of_sourceLine? {source : String} {n : Nat} {shown : String}
    (h : sourceLine? (quotedLines source) (1 + n : Nat) = some shown) :
    (Text.brokenLines source.toList)[n]? = some shown.toList := by
  have h0 : (0 : Int) < (1 + n : Nat) := by omega
  have e : (((1 + n : Nat) : Int) - 1).toNat = n := by omega
  rw [sourceLine?, if_pos h0, e, quotedLines, List.getElem?_map, Option.map_eq_some_iff] at h
  obtain ⟨l, hl, rfl⟩ := h
  rw [hl, String.toList_ofList]

/-- A report of the scanner is one on the form of the source. -/
theorem area_of_tokens {d : Diagnostic} (h : tokens source file = .error (.diagnostic d)) : d.cause.area = .form := by
  obtain ⟨g, -, hg⟩ := tokens_eq_error_iff.1 h
  rcases g.failure_cases source.toList file (Scan.ofSource source.toList file).stop with ⟨n, rfl⟩ | ⟨d', hd, ha⟩
  · cases hg
  · cases hg.trans hd
    exact ha

/-- **The line that a report on the order of tokens quotes.** It is the line of that number between any two boundaries.
It is the right line, with the token at the column and the mark under it, if no line up to it has another boundary in
it, and only if it has none itself. -/
theorem quotes_line_of_ofSource {d : Diagnostic} {shown : String}
    (h : Tree.ofSource source file = .error (.diagnostic d)) (ha : d.cause.area = .order)
    (hl : d.sourceLine = some shown) :
    ∃ before rest t, source.toList = before ++ rest ∧ d.location = some (placeAfter file before) ∧
      TokenAt source file before rest t ∧
      (Text.brokenLines source.toList)[before.count '\n']? = some shown.toList ∧
      ((∀ l ∈ (Text.textLines source.toList).take (1 + before.count '\n'), Text.IsPlain l) →
        d.Quotes source before rest t shown) ∧
      (d.Quotes source before rest t shown →
        Text.IsPlain (Text.lineText source.toList (1 + before.count '\n'))) := by
  rcases ofSource_eq_error_cases h with ht | ⟨ts, hts, hr⟩
  · exact absurd ha (area_of_tokens ht ▸ nofun)
  · obtain ⟨cause, ls, rest, t, hf, ht, -, hd⟩ := exists_tokenAt_of_ofTokens hts hr
    obtain rfl := Failure.diagnostic.inj hd
    have hs := hf.textOf_append.symm
    have hb := getElem?_of_sourceLine? hl
    refine ⟨textOf ls, rest, t, hs, rfl, ht, hb, fun hp => ?_, fun hq => ?_⟩
    · rw [Nat.add_comm] at hp
      have hline := Text.getElem?_textLines_of_brokenLines hb hp
      have hshown : shown.toList = Text.lineText source.toList (1 + (textOf ls).count '\n') := by
        rw [Text.lineText, Nat.add_sub_cancel_left, hline, Option.getD_some]
      refine ⟨hshown, ?_, Diagnostic.exists_mark rfl hl⟩
      rw [hshown, hs]
      exact ht.shownIn
    · exact hq.line ▸ Text.isPlain_of_mem_brokenLines (List.mem_of_getElem? hb)

/-- A source whose second line has one operand too many; its lines end in carriage returns and line feeds. -/
def operandsOnSecondLine : String := "\r\nint f() \x7b return 1 2; \x7d\r\n"

theorem quotes_line_operandsOnSecondLine : ∃ d, Tree.ofSource operandsOnSecondLine "t.c" = .error (.diagnostic d) ∧
    d.cause.area = .order ∧ d.sourceLine = some "int f() \x7b return 1 2; \x7d" ∧
    ∃ before rest t, d.location = some (placeAfter "t.c" before) ∧
      d.Quotes operandsOnSecondLine before rest t "int f() \x7b return 1 2; \x7d" := by
  have hc : (Tree.ofSource operandsOnSecondLine "t.c").map (fun _ => ()) = .error (.diagnostic
      ⟨.operands "too many operands", some ⟨"t.c", 2, 20⟩, some "int f() \x7b return 1 2; \x7d"⟩) := by
    decide +kernel
  have hp : ∀ l ∈ Text.textLines operandsOnSecondLine.toList, Text.IsPlain l := by
    decide +kernel
  have h := map_eq_error_iff.1 hc
  obtain ⟨before, rest, t, -, hl, -, -, hq, -⟩ := quotes_line_of_ofSource h rfl rfl
  exact ⟨_, h, rfl, rfl, before, rest, t, hl, hq fun l hm => hp l (List.mem_of_mem_take hm)⟩

/-- The same source with a form feed in its first line, and no carriage returns. -/
def operandsAfterFormFeed : String := "\x0c\nint f() \x7b return 1 2; \x7d\n"

/-- An empty line is quoted: the form feed has made the first line two, the second of them empty. -/
theorem not_quotes_operandsAfterFormFeed :
    ∃ d, Tree.ofSource operandsAfterFormFeed "t.c" = .error (.diagnostic d) ∧ d.cause.area = .order ∧
      d.location = some ⟨"t.c", 2, 20⟩ ∧ d.sourceLine = some "" ∧
      Text.lineText operandsAfterFormFeed.toList 2 = "int f() \x7b return 1 2; \x7d".toList ∧
      ∀ before rest t, d.location = some (placeAfter "t.c" before) →
        ¬d.Quotes operandsAfterFormFeed before rest t "" := by
  have hc : (Tree.ofSource operandsAfterFormFeed "t.c").map (fun _ => ()) =
      .error (.diagnostic ⟨.operands "too many operands", some ⟨"t.c", 2, 20⟩, some ""⟩) := by
    decide +kernel
  have ht : Text.lineText operandsAfterFormFeed.toList 2 = "int f() \x7b return 1 2; \x7d".toList := by
    decide +kernel
  refine ⟨_, map_eq_error_iff.1 hc, rfl, rfl, rfl, ht, fun before rest t hl hq => ?_⟩
  have hn : (2 : Int) = (1 + before.count '\n' : Nat) := congrArg Location.line (Option.some.inj hl)
  have hline := hq.line
  rw [show 1 + before.count '\n' = 2 by omega, ht] at hline
  exact absurd hline (by decide)

end TinyArm
