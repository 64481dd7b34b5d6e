/-!
# Control sequences

A control sequence tells a terminal how to show text and is no text itself: an escape character and an opening
bracket, then parameters (digits, semicolons and question marks), then one ASCII letter. `plain` leaves out every
sequence of a text, from left to right; what then stands side by side is not looked at again.

* A text without escape characters is plain (`plainChars_of_not_mem`), and nothing but sequences is left out
  (`plainChars_sublist`).
* No sequence contains a line feed, so a text is made plain line by line (`plainChars_append_newline`).
-/

namespace TinyArm.Text

/-- Whether a character may stand among the parameters of a control sequence. -/
def isParameter (c : Char) : Bool := c.isDigit || c = ';' || c = '?'

/-- What follows the control sequence that a text starts with. -/
def afterSequence? : List Char → Option (List Char)
  | '\x1b' :: '[' :: cs =>
    match cs.dropWhile isParameter with
    | [] => none
    | c :: rest => if c.isAlpha then some rest else none
  | _ => none

/-- A control sequence is an escape character, a bracket, parameters and a letter. -/
theorem eq_of_afterSequence? {cs rest : List Char} (h : afterSequence? cs = some rest) :
    ∃ ps c, cs = '\x1b' :: '[' :: (ps ++ c :: rest) ∧ (∀ p ∈ ps, isParameter p = true) ∧ c.isAlpha = true := by
  unfold afterSequence? at h
  split at h
  · next ds =>
    split at h
    · cases h
    · next c r hd =>
      split at h
      · next hc =>
        cases h
        refine ⟨ds.takeWhile isParameter, c, ?_, fun p hp => ?_, hc⟩
        · rw [← hd, List.takeWhile_append_dropWhile]
        · exact List.all_eq_true.1 List.all_takeWhile p hp
      · cases h
  · cases h

theorem length_of_afterSequence? {c : Char} {cs rest : List Char} (h : afterSequence? (c :: cs) = some rest) :
    rest.length ≤ cs.length := by
  obtain ⟨ps, d, he, _, _⟩ := eq_of_afterSequence? h
  have e := congrArg List.length he
  simp only [List.length_cons, List.length_append] at e
  omega

/-- The characters of a text that are in no control sequence. -/
def plainChars : List Char → List Char
  | [] => []
  | c :: cs =>
    match h : afterSequence? (c :: cs) with
    | some rest =>
      have := length_of_afterSequence? h
      plainChars rest
    | none => c :: plainChars cs
termination_by cs => cs.length

/-- A text without its control sequences. -/
def plain (s : String) : String := String.ofList (plainChars s.toList)

theorem plainChars_eq_of_some {cs rest : List Char} (h : afterSequence? cs = some rest) :
    plainChars cs = plainChars rest := by
  match cs, h with
  | c :: cs, h =>
    rw [plainChars]
    split
    · next r hr =>
      cases hr.symm.trans h
      rfl
    · next hr => cases hr.symm.trans h

theorem plainChars_cons_of_none {c : Char} {cs : List Char} (h : afterSequence? (c :: cs) = none) :
    plainChars (c :: cs) = c :: plainChars cs := by
  rw [plainChars]
  split
  · next r hr => cases hr.symm.trans h
  · rfl

theorem plainChars_of_not_mem {cs : List Char} (h : '\x1b' ∉ cs) : plainChars cs = cs := by
  fun_induction plainChars cs with
  | case1 => rfl
  | case2 c cs rest hs _ _ =>
    obtain ⟨ps, d, he, _, _⟩ := eq_of_afterSequence? hs
    exact absurd (he ▸ List.mem_cons_self) h
  | case3 c cs _ ih => rw [ih fun m => h (List.mem_cons_of_mem _ m)]

theorem plainChars_sublist (cs : List Char) : (plainChars cs).Sublist cs := by
  fun_induction plainChars cs with
  | case1 => exact .slnil
  | case2 c cs rest hs _ ih =>
    obtain ⟨ps, d, he, _, _⟩ := eq_of_afterSequence? hs
    rw [he]
    exact ((ih.cons d).trans (List.sublist_append_right ps _)).cons _ |>.cons _
  | case3 c cs _ ih => exact ih.cons_cons c

/-- A line feed ends what could have become a control sequence. -/
theorem afterSequence?_append_newline (cs ds : List Char) :
    afterSequence? (cs ++ '\n' :: ds) = (afterSequence? cs).map (· ++ '\n' :: ds) := by
  match cs with
  | [] => rfl
  | [c] => by_cases h : c = '\x1b' <;> simp_all [afterSequence?]
  | c :: d :: cs =>
    by_cases h : c = '\x1b' ∧ d = '['
    · obtain ⟨rfl, rfl⟩ := h
      simp only [List.cons_append, afterSequence?, List.dropWhile_append]
      cases hd : cs.dropWhile isParameter with
      | nil => simp [isParameter]
      | cons e rest => by_cases he : e.isAlpha <;> simp [he]
    · have none_of : ∀ es, afterSequence? (c :: d :: es) = none := by
        intro es
        unfold afterSequence?
        split
        · next heq => cases heq; exact absurd ⟨rfl, rfl⟩ h
        · rfl
      simp [none_of]

theorem plainChars_append_newline (cs ds : List Char) :
    plainChars (cs ++ '\n' :: ds) = plainChars cs ++ '\n' :: plainChars ds := by
  fun_induction plainChars cs with
  | case1 => exact plainChars_cons_of_none rfl
  | case2 c cs rest hs _ ih =>
    rw [plainChars_eq_of_some ((afterSequence?_append_newline (c :: cs) ds).trans (congrArg _ hs)), ih]
  | case3 c cs hs ih =>
    have hn : afterSequence? (c :: (cs ++ '\n' :: ds)) = none :=
      (afterSequence?_append_newline (c :: cs) ds).trans (congrArg _ hs)
    rw [List.cons_append, plainChars_cons_of_none hn, ih, List.cons_append]

end TinyArm.Text
