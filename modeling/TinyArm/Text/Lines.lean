/-!
# Lines of a text

Two notions of a line are in use.

* `newlineLines` splits at line feeds only and keeps every other character; there is always at least one line, and
  joining the lines with line feeds gives the text back (`intercalate_newlineLines`). Positions count these lines.
* `brokenLines` splits at every line boundary of Unicode (`isLineBreak`), takes a carriage return with a line feed as
  one boundary, and has no line after a final boundary.

`unifyNewlines` turns each carriage return, with the line feed after it if there is one, into a line feed; it leaves
text without carriage returns alone (`unifyNewlines_of_not_mem`). `unlines` ends each of a list of lines by a line
feed.
-/

namespace TinyArm.Text

/-! ## Lines between line feeds -/

/-- A character put in front of the first line. -/
def pushFront (c : Char) : List (List Char) → List (List Char)
  | [] => [[c]]
  | l :: ls => (c :: l) :: ls

/-- The pieces of a text between separators: never none. -/
def pieces (sep : Char) : List Char → List (List Char)
  | [] => [[]]
  | c :: cs => if c = sep then [] :: pieces sep cs else pushFront c (pieces sep cs)

/-- The lines of a text, split at line feeds. -/
def newlineLines (cs : List Char) : List (List Char) := pieces '\n' cs

/-- Line number `n` of a text, counted from one, as split at line feeds. -/
def newlineLine (cs : List Char) (n : Nat) : List Char := (newlineLines cs)[n - 1]?.getD []

theorem pushFront_ne_nil (c : Char) (ls : List (List Char)) : pushFront c ls ≠ [] := by
  cases ls <;> simp [pushFront]

theorem intercalate_pushFront (s : List Char) (c : Char) {ls : List (List Char)} (h : ls ≠ []) :
    s.intercalate (pushFront c ls) = c :: s.intercalate ls := by
  match ls, h with
  | [l], _ => simp [pushFront]
  | l :: l' :: ls, _ => simp [pushFront, List.intercalate_cons_cons]

theorem pieces_ne_nil (sep : Char) (cs : List Char) : pieces sep cs ≠ [] := by
  cases cs with
  | nil => simp [pieces]
  | cons c cs => unfold pieces; split <;> simp [pushFront_ne_nil]

/-- Nothing is lost: the pieces with separators between them are the text. -/
theorem intercalate_pieces (sep : Char) (cs : List Char) : [sep].intercalate (pieces sep cs) = cs := by
  induction cs with
  | nil => simp [pieces]
  | cons c cs ih =>
    unfold pieces
    split
    · next h => rw [List.intercalate_cons_of_ne_nil (pieces_ne_nil sep cs), ih, h]; rfl
    · rw [intercalate_pushFront _ _ (pieces_ne_nil sep cs), ih]

/-- What comes before a separator is a piece. -/
theorem pieces_append_cons {sep : Char} {cs : List Char} (h : sep ∉ cs) (ds : List Char) :
    pieces sep (cs ++ sep :: ds) = cs :: pieces sep ds := by
  induction cs with
  | nil => rw [List.nil_append, pieces, if_pos rfl]
  | cons c cs ih =>
    rw [List.mem_cons, not_or] at h
    rw [List.cons_append, pieces, if_neg (Ne.symm h.1), ih h.2, pushFront]

theorem pieces_of_not_mem {sep : Char} {cs : List Char} (h : sep ∉ cs) : pieces sep cs = [cs] := by
  induction cs with
  | nil => rfl
  | cons c cs ih =>
    rw [List.mem_cons, not_or] at h
    rw [pieces, if_neg (Ne.symm h.1), ih h.2, pushFront]

/-- Pieces that are put together are found again. -/
theorem pieces_intercalate {sep : Char} {ls : List (List Char)} (hn : ls ≠ []) (h : ∀ l ∈ ls, sep ∉ l) :
    pieces sep ([sep].intercalate ls) = ls := by
  induction ls with
  | nil => exact absurd rfl hn
  | cons l ls ih =>
    have hl : sep ∉ l := h l List.mem_cons_self
    by_cases ht : ls = []
    · subst ht
      rw [List.intercalate_singleton, pieces_of_not_mem hl]
    · rw [List.intercalate_cons_of_ne_nil ht, List.append_assoc, List.singleton_append, pieces_append_cons hl,
        ih ht fun m hm => h m (List.mem_cons_of_mem _ hm)]

theorem mem_pushFront {c : Char} {l : List Char} {ls : List (List Char)} (h : l ∈ pushFront c ls) :
    l = [c] ∨ (∃ m ∈ ls, l = c :: m) ∨ l ∈ ls := by
  cases ls with
  | nil => exact .inl (List.mem_singleton.1 h)
  | cons m ms =>
    rcases List.mem_cons.1 h with rfl | h
    · exact .inr (.inl ⟨m, List.mem_cons_self, rfl⟩)
    · exact .inr (.inr (List.mem_cons_of_mem _ h))

/-- No piece has a separator in it. -/
theorem not_mem_of_mem_pieces {sep : Char} {cs l : List Char} (h : l ∈ pieces sep cs) : sep ∉ l := by
  induction cs generalizing l with
  | nil => simp [List.mem_singleton.1 h]
  | cons c cs ih =>
    unfold pieces at h
    split at h
    · rcases List.mem_cons.1 h with rfl | h
      · exact List.not_mem_nil
      · exact ih h
    · next hc =>
      rcases mem_pushFront h with rfl | ⟨m, hm, rfl⟩ | h
      · simpa using Ne.symm hc
      · simpa [Ne.symm hc] using ih hm
      · exact ih h

theorem pieces_eq_splitOn (sep : Char) (cs : List Char) : pieces sep cs = cs.splitOn sep := by
  induction cs with
  | nil => rfl
  | cons c cs ih =>
    rw [pieces, ih, List.splitOn_cons_eq_if_modifyHead]
    simp only [beq_iff_eq]
    split
    · rfl
    · cases hl : cs.splitOn sep with
      | nil => exact absurd hl (List.splitOn_ne_nil sep cs)
      | cons l ls => rfl

theorem intercalate_newlineLines (cs : List Char) : ['\n'].intercalate (newlineLines cs) = cs :=
  intercalate_pieces '\n' cs

/-! ## Lines between any two line boundaries -/

/-- The characters that bound a line: line feed, carriage return, vertical tab, form feed, the three information
separators, next line, and the line and paragraph separators. -/
def isLineBreak (c : Char) : Bool :=
  c = '\n' || c = '\r' || c = '\x0b' || c = '\x0c' || c = '\x1c' || c = '\x1d' || c = '\x1e' || c = '\u0085' ||
    c = '\u2028' || c = '\u2029'

/-- The lines of a text, split at every line boundary. -/
def brokenLines : List Char → List (List Char)
  | [] => []
  | '\r' :: '\n' :: cs => [] :: brokenLines cs
  | c :: cs => if isLineBreak c then [] :: brokenLines cs else pushFront c (brokenLines cs)

/-! ## Newlines made uniform -/

/-- Every carriage return, with the line feed after it if there is one, becomes a line feed. -/
def unifyNewlines : List Char → List Char
  | [] => []
  | '\r' :: '\n' :: cs => '\n' :: unifyNewlines cs
  | c :: cs => (if c = '\r' then '\n' else c) :: unifyNewlines cs

theorem unifyNewlines_of_not_mem {cs : List Char} (h : '\r' ∉ cs) : unifyNewlines cs = cs := by
  fun_induction unifyNewlines cs with
  | case1 => rfl
  | case2 cs ih => exact absurd List.mem_cons_self h
  | case3 c cs hc ih =>
    have hr : c ≠ '\r' := fun e => h (e ▸ List.mem_cons_self)
    rw [if_neg hr, ih fun m => h (List.mem_cons_of_mem _ m)]

/-! ## Lines put together -/

/-- Each line ended by a line feed. -/
def unlines (ls : List String) : String := String.join (ls.map (· ++ "\n"))

theorem unlines_append (ls ms : List String) : unlines (ls ++ ms) = unlines ls ++ unlines ms := by
  simp [unlines, String.join_append]

theorem unlines_flatten (blocks : List (List String)) : unlines blocks.flatten = String.join (blocks.map unlines) := by
  induction blocks with
  | nil => rfl
  | cons b bs ih => rw [List.flatten_cons, unlines_append, ih, List.map_cons, String.join_cons]

/-- Lines without line feeds are found again, and nothing after the last line feed. -/
theorem newlineLines_unlines {ls : List String} (h : ∀ l ∈ ls, '\n' ∉ l.toList) :
    newlineLines (unlines ls).toList = ls.map String.toList ++ [[]] := by
  induction ls with
  | nil => rfl
  | cons l ls ih =>
    have hl : '\n' ∉ l.toList := h l List.mem_cons_self
    have ih := ih fun m hm => h m (List.mem_cons_of_mem _ hm)
    have ht : (unlines (l :: ls)).toList = l.toList ++ '\n' :: (unlines ls).toList := by
      simp [unlines, String.join_cons]
    rw [newlineLines, ht, pieces_append_cons hl, ← newlineLines, ih]
    rfl

/-! ## Numerals on a line -/

theorem newline_not_mem_repr (n : Int) : '\n' ∉ n.repr.toList := by
  have hd : ∀ m : Nat, '\n' ∉ m.repr.toList := by
    intro m hm
    rw [Nat.toList_repr] at hm
    have h := Nat.isDigit_of_mem_toDigits (by decide) (by decide) hm
    revert h
    decide
  cases n with
  | ofNat m => exact hd m
  | negSucc m =>
    have ht : (Int.negSucc m).repr = "-" ++ (m + 1).repr := rfl
    rw [ht, String.toList_append, List.mem_append, not_or]
    exact ⟨by decide, hd (m + 1)⟩

end TinyArm.Text
