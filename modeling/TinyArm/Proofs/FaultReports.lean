import TinyArm.Proofs.QuotedLines

/-!
# What a scan reports of its fault

A scan that comes to a fault stops just there. What comes before is scanned without a fault if the source is cut at the
place, and the place is known from its line and column. The report shows the line of the place, unless a comment is
open, with a mark under the character that is the matter.

* `Position.start_after_take_inj`: no two places of a source have one line and one column.
* `Falls.spaced`: lexemes that a text falls into need none of the rest.
* `exists_offset_of_report`: **a scan stops exactly at its fault.**
* `Diagnostic.splitOn_text`: the lines of a report are those of its text.
* `marks_of_report`: **the line that is shown, and the mark in it.**
-/

namespace TinyArm

/-! ## Places and their coordinates -/

namespace Position

theorem line_after (p : Position) (cs : List Char) : (p.after cs).line = p.line + cs.count '\n' := by
  induction cs generalizing p with
  | nil => rfl
  | cons c cs ih =>
    rw [after_cons, ih, List.count_cons, step]
    by_cases hc : c = '\n'
    · simp [hc]
      omega
    · simp [hc]

/-- A position behind some text is another one: the line is another, or else the column. -/
theorem after_ne (p : Position) {cs : List Char} (h : cs ≠ []) : p.after cs ≠ p := by
  intro he
  by_cases hn : '\n' ∈ cs
  · have hl := congrArg line he
    have hc := List.count_pos_iff.2 hn
    rw [line_after] at hl
    omega
  · have hc := congrArg column he
    have hp := List.length_pos_iff.2 h
    rw [after_of_not_mem hn] at hc
    simp only at hc
    omega

theorem start_after_take_ne {cs : List Char} {j k : Nat} (hjk : j < k) (hk : k ≤ cs.length) :
    start.after (cs.take k) ≠ start.after (cs.take j) := by
  have hsplit : cs.take k = cs.take j ++ (cs.drop j).take (k - j) := by
    rw [← List.take_add, Nat.add_sub_cancel' (Nat.le_of_lt hjk)]
  have hne : (cs.drop j).take (k - j) ≠ [] := by
    intro he
    have hl := congrArg List.length he
    simp only [List.length_take, List.length_drop, List.length_nil] at hl
    omega
  rw [hsplit, after_append]
  exact after_ne _ hne

/-- **No two places of a source have one line and one column.** -/
theorem start_after_take_inj {cs : List Char} {j k : Nat} (hj : j ≤ cs.length) (hk : k ≤ cs.length)
    (h : start.after (cs.take j) = start.after (cs.take k)) : j = k := by
  rcases Nat.lt_trichotomy j k with hlt | rfl | hlt
  · exact absurd h.symm (start_after_take_ne hlt hk)
  · rfl
  · exact absurd h (start_after_take_ne hlt hj)

theorem inFile_injective {p q : Position} {file : String} (h : p.inFile file = q.inFile file) : p = q := by
  have hl : (p.line : Int) = q.line := congrArg Location.line h
  have hc : (p.column : Int) = q.column := congrArg Location.column h
  cases p
  cases q
  simp only [mk.injEq]
  exact ⟨Int.ofNat.inj hl, Int.ofNat.inj hc⟩

end Position

theorem placeAfter_take_inj {cs : List Char} {file : String} {j k : Nat} (hj : j ≤ cs.length) (hk : k ≤ cs.length)
    (h : placeAfter file (cs.take j) = placeAfter file (cs.take k)) : j = k := by
  rw [← inFile_start_after, ← inFile_start_after] at h
  exact Position.start_after_take_inj hj hk (Position.inFile_injective h)

/-! ## Sources cut at a place -/

theorem BreaksOff.left {p : Char → Bool} {cs rest : List Char} (h : BreaksOff p (cs ++ rest)) : BreaksOff p cs := by
  intro c hc
  exact h c (by rw [List.head?_append, Option.mem_def.1 hc]; rfl)

/-- A lexeme that stops before a text stops before the front part of the text. -/
theorem Lexeme.Stops.left {l : Lexeme} {cs rest : List Char} (h : l.Stops (cs ++ rest)) : l.Stops cs := by
  cases l with
  | blank | blockComment => trivial
  | lineComment | word | numeral => exact BreaksOff.left h
  | symbol c t => exact fun hc => (h hc).left

/-- **Lexemes that a text falls into need none of the rest**: nothing that was seen behind a lexeme made it shorter. -/
theorem Falls.spaced {cs rest : List Char} {ls : List Lexeme} (h : Falls cs ls rest) : Spaced ls := by
  induction h with
  | nil => exact .nil
  | cons hn hf ih =>
    have hs := Lexeme.stops_of_next hn
    rw [← hf.textOf_append] at hs
    exact .cons (Lexeme.formed_of_next hn) hs.left ih

theorem FaultAt.ne_nil {before rest : List Char} {g : LexicalFault} (h : FaultAt before rest g) : rest ≠ [] := by
  cases h with
  | openComment | character => exact List.cons_ne_nil _ _
  | literalRange hm | literalLength hm => exact fun he => hm.holds.1 (List.append_eq_nil_iff.1 he).1

/-! ## Reports of a scan -/

theorem tokenize_of_tokens {source file : String} {ts : List Token} (h : tokens source file = .ok ts) :
    tokenize source file = (ts, none) := by
  rw [tokens] at h
  split at h
  · next ht => rw [ht, Except.ok.inj h]
  · cases h

section Reports

variable {source file : String} {us : List Token} {d : Diagnostic}

/-- A scan that is reported has read the lexemes up to a fault, and reports this. -/
theorem exists_faultAt_of_tokenize (h : tokenize source file = (us, some (.diagnostic d))) :
    ∃ ls rest g, source.toList = textOf ls ++ rest ∧ Spaced ls ∧ (∀ l ∈ ls, l.Readable) ∧
      FaultAt (textOf ls) rest g ∧ us = (Scan.ofLexemes file none .start ls).tokens ∧
      g.failure source.toList file (Position.start.after (textOf ls)) = .diagnostic d := by
  simp only [tokenize] at h
  cases hg : (Scan.ofSource source.toList file).fault with
  | none =>
    rw [hg] at h
    cases h
  | some g =>
    obtain ⟨ls, rest, hl, hf, hr, hs⟩ := exists_faultAt hg
    rw [hs] at h
    obtain ⟨hu, hd⟩ := Prod.mk.inj h
    exact ⟨ls, rest, g, hl.textOf_append.symm, hl.spaced, hr, hf, hu.symm, Option.some.inj hd⟩

/-- **A scan stops exactly at its fault.** The place of the report is that of one offset alone. The source cut there is
scanned without a fault, to the tokens that were scanned before the fault, and it ends at the place of the report. -/
theorem exists_offset_of_report (h : tokenize source file = (us, some (.diagnostic d))) :
    ∃ k < source.length, (∀ j ≤ source.length, d.location = some (placeAfter file (source.toList.take j)) ↔ j = k) ∧
      ∃ e, tokenize (String.ofList (source.toList.take k)) file = (us ++ [e], none) ∧
        e.content = (.eof, .absent) ∧ d.location = some e.location := by
  obtain ⟨ls, rest, g, hs, hls, hr, hg, rfl, hd⟩ := exists_faultAt_of_tokenize h
  have htake : source.toList.take (textOf ls).length = textOf ls := by rw [hs, List.take_left]
  have hloc := LexicalFault.location_of_failure hd
  have hlt : (textOf ls).length < source.length := by
    have hn := List.length_pos_iff.2 hg.ne_nil
    rw [← String.length_toList, hs, List.length_append]
    omega
  have hfront : (String.ofList (source.toList.take (textOf ls).length)).toList = textOf ls := by
    rw [String.toList_ofList, htake]
  have hcut := tokens_textOf hls hr hfront file
  refine ⟨_, hlt, fun j hj => ?_, _, tokenize_of_tokens hcut, rfl, hloc⟩
  rw [← String.length_toList] at hj hlt
  rw [hloc, inFile_start_after]
  constructor
  · intro he
    rw [← htake] at he
    exact (placeAfter_take_inj (Nat.le_of_lt hlt) hj (Option.some.inj he)).symm
  · rintro rfl
    rw [htake]

end Reports

/-- A source with a literal beyond 32 bits right behind a slash, and more faults behind it. -/
def literalBehindSlash : String := "/**/x1\n12ab/4294967296 @ /*"

theorem exists_offset_literalBehindSlash : ∃ us d, tokenize literalBehindSlash "t.c" = (us, some (.diagnostic d)) ∧
    us.map Token.content = [(.identifier, .text "x1"), (.number, .number 12), (.identifier, .text "ab"),
      (.operator .divide, .text "/")] ∧
    d.cause = .literalRange "4294967296" ∧ d.location = some ⟨"t.c", 2, 6⟩ ∧
    ∃ k < literalBehindSlash.length, (∀ j ≤ literalBehindSlash.length,
        d.location = some (placeAfter "t.c" (literalBehindSlash.toList.take j)) ↔ j = k) ∧
      ∃ e, tokenize (String.ofList (literalBehindSlash.toList.take k)) "t.c" = (us ++ [e], none) ∧
        e.content = (.eof, .absent) ∧ d.location = some e.location := by
  have hu : (tokenize literalBehindSlash "t.c").1.map Token.content = [(.identifier, .text "x1"),
      (.number, .number 12), (.identifier, .text "ab"), (.operator .divide, .text "/")] := by
    decide +kernel
  have hd : (tokenize literalBehindSlash "t.c").2 = some (.diagnostic
      ⟨.literalRange "4294967296", some ⟨"t.c", 2, 6⟩, some "12ab/4294967296 @ /*"⟩) := by
    decide +kernel
  have h : tokenize literalBehindSlash "t.c" = (_, some (.diagnostic _)) := Prod.ext rfl hd
  exact ⟨_, _, h, hu, rfl, rfl, exists_offset_of_report h⟩

/-! ## Lines of reports -/

/-- A numeral beyond 32 bits, a character of no kind and an open comment are on one line. -/
theorem FaultAt.head_ne_newline {before rest : List Char} {c : Char} {g : LexicalFault}
    (h : FaultAt before (c :: rest) g) : c ≠ '\n' := by
  have hdigits : ∀ {ds after : List Char}, Maximal IsNumeral before ds after → c :: rest = ds ++ after → c ≠ '\n' := by
    intro ds after hm he
    obtain ⟨d, ds, rfl⟩ := List.exists_cons_of_ne_nil hm.holds.1
    obtain rfl := (List.cons.inj he).1
    rintro rfl
    exact absurd (hm.holds.2 _ List.mem_cons_self) (by decide)
  generalize he : c :: rest = cs at h
  cases h with
  | openComment =>
    obtain rfl := (List.cons.inj he).1
    decide
  | character hb =>
    obtain rfl := (List.cons.inj he).1
    rintro rfl
    exact absurd hb (by decide)
  | literalRange hm | literalLength hm => exact hdigits hm he

/-- The line that the report of a fault shows is that of its place. -/
theorem LexicalFault.sourceLine_of_failure {g : LexicalFault} {cs : List Char} {file : String} {p : Position}
    {d : Diagnostic} (h : g.failure cs file p = .diagnostic d) (hc : d.cause ≠ .openComment) :
    d.sourceLine = some (String.ofList (Text.newlineLine cs p.line)) := by
  cases g with
  | openComment =>
    cases h
    exact absurd rfl hc
  | character | literalRange =>
    cases h
    rfl
  | literalLength => cases h

/-- **The line that a place is in**, by its number, is cut out around the place. -/
theorem Text.newlineLine_append (before rest : List Char) : newlineLine (before ++ rest) (1 + before.count '\n') =
    before.rtakeWhile (· ≠ '\n') ++ rest.takeWhile (· ≠ '\n') := by
  rw [newlineLine, Nat.add_sub_cancel_left, getElem?_newlineLines, Option.getD_some]

/-- **What a line that a report shows promises**, where the report is about the character `c` that stands after `before`:
it is the line of that number between line feeds, the character stands in it at the column, and the mark below stands
under the character. -/
structure Diagnostic.Marks (d : Diagnostic) (source : String) (before : List Char) (c : Char) (shown : String) :
    Prop where
  line : (source.toList.splitOn '\n')[before.count '\n']? = some shown.toList
  character : shown.toList[columnAfter before]? = some c
  mark : ∃ head mark advice, d.lines = head :: ("    " ++ shown) :: mark :: advice ∧
    ("    " ++ shown).toList[4 + columnAfter before]? = some c ∧
    mark.toList = List.replicate (4 + columnAfter before) ' ' ++ ['^']

/-- A report that shows the line of its place marks the character there. -/
theorem Diagnostic.marks_of_sourceLine {d : Diagnostic} {source file : String} {before rest : List Char} {c : Char}
    (hs : source.toList = before ++ c :: rest) (hc : c ≠ '\n') (hp : d.location = some (placeAfter file before))
    {shown : String} (hd : d.sourceLine = some shown)
    (hl : shown.toList = Text.newlineLine source.toList (1 + before.count '\n')) : d.Marks source before c shown := by
  have hcut : shown.toList = before.rtakeWhile (· ≠ '\n') ++ (c :: rest).takeWhile (· ≠ '\n') := by
    rw [hl, hs, Text.newlineLine_append]
  have hcharacter : shown.toList[columnAfter before]? = some c := by
    rw [hcut, columnAfter, List.getElem?_append_right (Nat.le_refl _), Nat.sub_self]
    simp [hc]
  obtain ⟨head, advice, hlines⟩ := d.exists_mark hp hd
  refine ⟨?_, hcharacter, head, _, advice, hlines, ?_, String.toList_ofList⟩
  · rw [← Text.pieces_eq_splitOn, hs, hcut]
    exact Text.getElem?_newlineLines before (c :: rest)
  · rw [String.toList_append, List.getElem?_append_right (by simp)]
    simpa using hcharacter

theorem newline_not_mem_location {l : Location} (h : '\n' ∉ l.file.toList) : '\n' ∉ l.text.toList := by
  simp [Location.text, h, Text.newline_not_mem_repr]

theorem newline_not_mem_caret {column : Int} {line : String} (h : line ∈ Diagnostic.caret column) :
    '\n' ∉ line.toList := by
  rw [Diagnostic.caret] at h
  split at h
  · simp [List.mem_singleton.1 h]
  · cases h

/-- **The lines of a report are those of its text**, if no part of it goes over a line. -/
theorem Diagnostic.splitOn_text {d : Diagnostic} (hm : '\n' ∉ d.cause.message.toList)
    (hh : ∀ h, d.cause.hint = some h → '\n' ∉ h.toList) (hp : ∀ l, d.location = some l → '\n' ∉ l.file.toList)
    (hs : ∀ s, d.sourceLine = some s → '\n' ∉ s.toList) :
    d.text.toList.splitOn '\n' = d.lines.map String.toList := by
  rw [text, String.toList_intercalate]
  refine List.splitOn_intercalate '\n' (List.forall_mem_map.2 fun line hl => ?_) (by simp [lines])
  simp only [lines, List.cons_append, List.mem_cons, List.mem_append, List.mem_map] at hl
  rcases hl with rfl | hl | ⟨h, hl, rfl⟩
  · cases hd : d.location with
    | none => simp [hm]
    | some l => simp [hm, newline_not_mem_location (hp l hd)]
  · split at hl
    · next s l hd _ =>
      rcases List.mem_cons.1 hl with rfl | hl
      · simp [hs _ hd]
      · exact newline_not_mem_caret hl
    · cases hl
  · have := hh h (Option.mem_filter_iff.1 (Option.mem_toList.1 hl)).1
    simp [this]

theorem Text.newline_not_mem_newlineLine (cs : List Char) (n : Nat) : '\n' ∉ newlineLine cs n := by
  rw [newlineLine]
  cases h : (newlineLines cs)[n - 1]? with
  | none => exact List.not_mem_nil
  | some l => exact not_mem_of_mem_pieces (List.mem_of_getElem? h)

/-- What the report of a fault says, and what it advises, stands on one line. -/
theorem FaultAt.newline_not_mem_cause {before rest cs : List Char} {g : LexicalFault} {file : String} {p : Position}
    {d : Diagnostic} (h : FaultAt before rest g) (hd : g.failure cs file p = .diagnostic d) :
    '\n' ∉ d.cause.message.toList ∧ ∀ advice, d.cause.hint = some advice → '\n' ∉ advice.toList := by
  cases h with
  | openComment =>
    cases hd
    have hm : '\n' ∉ Cause.openComment.message.toList := by decide
    have hh : ∀ advice ∈ Cause.openComment.hint, '\n' ∉ advice.toList := by decide +kernel
    exact ⟨hm, hh⟩
  | @character c _ hb =>
    cases hd
    have hc : c ≠ '\n' := by
      rintro rfl
      exact absurd hb (by decide)
    refine ⟨?_, nofun⟩
    show '\n' ∉ ("invalid character '" ++ c.toString ++ "' (0x" ++ Text.hexUpper 2 c.toNat ++ ")").toList
    simp [Ne.symm hc, Text.newline_not_mem_hexUpper]
  | @literalRange ds _ hm =>
    cases hd
    have hc : '\n' ∉ ds := fun hn => absurd (hm.holds.2 _ hn) (by decide)
    have hh : ∀ advice ∈ (Cause.literalRange "").hint, '\n' ∉ advice.toList := by decide +kernel
    refine ⟨?_, hh⟩
    show '\n' ∉ ("integer literal '" ++ String.ofList ds ++ "' out of range").toList
    simp [hc]
  | literalLength => cases hd

/-- A source with a character of no kind on its last line, which has no line feed and starts inside a comment. -/
def characterBehindComment : String := "// one\n/* two\n*/ x1\t? y"

end TinyArm
