import TinyArm.Proofs.Descent
import TinyArm.Proofs.Reports

/-!
# How far a descent looks

A descent through any list of tokens stops, with its cursor at a token of the list, and no further than at the first end
of input. The tokens behind the cursor have no part in what comes of it.

* `exists_break_of_run`: a run that breaks off has taken tokens up to one that is refused.
* `Reader.onward_congr`: **tokens behind the cursor do not matter**.
* `Reader.onward_error`: a refusal is at a token that has been looked at.
* `exists_stopsAt`: **a descent stops safely**, on every list of tokens.
-/

namespace TinyArm

/-! ## The first end of input -/

namespace EndsAt

variable {ts us : List Token} {eof : Token}

theorem takeWhile_eq (h : EndsAt ts us eof) : ts.takeWhile (·.type ≠ .eof) = us := by
  obtain ⟨rest, rfl⟩ := h.split
  rw [List.takeWhile_append_of_pos fun t ht => decide_eq_true (h.proper t ht),
    List.takeWhile_cons_of_neg (by simp [h.type]), List.append_nil]

theorem findIdx_eq (h : EndsAt ts us eof) : ts.findIdx (·.type = .eof) = us.length := by
  obtain ⟨rest, rfl⟩ := h.split
  have hn : us.findIdx (·.type = .eof) = us.length :=
    List.findIdx_eq_length_of_false fun t ht => decide_eq_false (h.proper t ht)
  simp [List.findIdx_append, hn, List.findIdx_cons, h.type]

/-- A list has one first end of input. -/
theorem unique {vs : List Token} {eof' : Token} (h : EndsAt ts us eof) (h' : EndsAt ts vs eof') : us = vs ∧ eof = eof' := by
  obtain rfl : us = vs := h.takeWhile_eq.symm.trans h'.takeWhile_eq
  obtain ⟨rest, rfl⟩ := h.split
  obtain ⟨rest', h'⟩ := h'.split
  exact ⟨rfl, (List.cons.inj (List.append_cancel_left h')).1⟩

/-- A front of a list without an end of input lies before its first one. -/
theorem exists_eq_append (h : EndsAt ts us eof) {front rest : List Token} (ht : ts = front ++ rest)
    (hf : ∀ t ∈ front, t.type ≠ .eof) : ∃ back, us = front ++ back := by
  subst ht
  exact ⟨_, h.takeWhile_eq.symm.trans (List.takeWhile_append_of_pos fun t ht => decide_eq_true (hf t ht))⟩

end EndsAt

theorem endsAt_completed (file : String) (ts : List Token) :
    EndsAt (completed file ts) (properTokens ts) (eofToken file ts) := by
  have hs : ts = properTokens ts ++ ts.dropWhile (·.type ≠ .eof) := List.takeWhile_append_dropWhile.symm
  have hp : ∀ t ∈ properTokens ts, t.type ≠ .eof := by
    intro t ht
    simpa using List.mem_takeWhile_imp (p := fun t : Token => decide (t.type ≠ .eof)) ht
  cases hd : ts.dropWhile (·.type ≠ .eof) with
  | nil =>
    -- no end of input at all: the implied one is added
    rw [hd, List.append_nil] at hs
    have hl : ts.getLast?.any (·.type = .eof) = false := by
      cases hl : ts.getLast? with
      | none => rfl
      | some t => exact decide_eq_false (hp t (hs ▸ List.mem_of_getLast? hl))
    have hi : (impliedEof file ts).type = .eof := by
      rw [impliedEof]
      split <;> rfl
    rw [completed, hl, eofToken, hd]
    exact ⟨⟨[], by rw [← hs]; rfl⟩, hp, hi⟩
  | cons e rest =>
    have he : e.type = .eof := by
      have := List.head?_dropWhile_not (fun t : Token => decide (t.type ≠ .eof)) ts
      rw [hd] at this
      simpa using this
    have hc : ∃ rest', completed file ts = ts ++ rest' := by
      rw [completed]
      split
      · exact ⟨[], (List.append_nil ts).symm⟩
      · exact ⟨_, rfl⟩
    obtain ⟨rest', hc⟩ := hc
    have hf : eofToken file ts = e := by rw [eofToken, hd]; rfl
    rw [hd] at hs
    rw [hf]
    refine ⟨⟨rest ++ rest', ?_⟩, hp, he⟩
    calc completed file ts = ts ++ rest' := hc
      _ = (properTokens ts ++ e :: rest) ++ rest' := congrArg (· ++ rest') hs
      _ = properTokens ts ++ e :: (rest ++ rest') := List.append_assoc ..

/-! ## Runs that break off -/

namespace Reader

variable {m m' : Reader} {ts us vs : List Token} {eof t : Token}

/-- A run that breaks off has taken the tokens up to one that is refused. -/
theorem exists_break_of_run {h : Halt} (hr : m.run us = .error h) :
    ∃ front t back m' s, us = front ++ t :: back ∧ m.run front = .ok m' ∧ m'.step t = .error s := by
  induction us generalizing m with
  | nil => cases hr
  | cons t us ih =>
    simp only [run] at hr
    cases hs : m.step t with
    | error s => exact ⟨[], t, us, m, s, rfl, rfl, hs⟩
    | ok m₁ =>
      rw [hs] at hr
      obtain ⟨front, t', back, m', s, rfl, hf, hs'⟩ := ih hr
      exact ⟨t :: front, t', back, m', s, rfl, (run_cons hs).trans hf, hs'⟩

/-- Where a reader comes to that refuses the token behind a front. -/
theorem onward_of_break {front back : List Token} {s : Stop} (hr : m.run front = .ok m') (hs : m'.step t = .error s) :
    m.onward (front ++ t :: back) eof 0 =
      (.error s.refusal, if s.taken then front.length + 1 else front.length) := by
  rw [onward, List.drop_zero, run_append_of_ok hr]
  simp only [run, hs]
  cases s.taken <;> simp
  omega

/-- A reader comes to the end of input, or refuses a token before it. -/
theorem onward_cases (m : Reader) (us : List Token) (eof : Token) :
    (∃ m', m.run us = .ok m' ∧ m.onward us eof 0 = (m'.finish eof, us.length)) ∨
    ∃ front t back m' s, us = front ++ t :: back ∧ m.run front = .ok m' ∧ m'.step t = .error s ∧
      m.onward us eof 0 = (.error s.refusal, if s.taken then front.length + 1 else front.length) := by
  cases hr : m.run us with
  | ok m' => exact .inl ⟨m', rfl, by simp [onward, hr]⟩
  | error h =>
    obtain ⟨front, t, back, m', s, rfl, hf, hs⟩ := exists_break_of_run hr
    exact .inr ⟨front, t, back, m', s, rfl, hf, hs, onward_of_break hf hs⟩

/-- **Tokens behind the cursor do not matter**: a list that agrees up to the cursor comes to the same. -/
theorem onward_congr {eof' : Token} (h : EndsAt ts us eof) {ts' : List Token} (h' : EndsAt ts' vs eof')
    (hk : ts'.take ((m.onward us eof 0).2 + 1) = ts.take ((m.onward us eof 0).2 + 1)) :
    m.onward vs eof' 0 = m.onward us eof 0 := by
  -- a list that agrees on more than `front` begins with `front`
  have agrees (front rest : List Token) (hf : ts = front ++ rest) (hl : front.length ≤ (m.onward us eof 0).2 + 1) :
      ∃ rest', ts' = front ++ rest' := by
    have hp : front <+: ts.take ((m.onward us eof 0).2 + 1) :=
      List.prefix_take_iff.2 ⟨hf ▸ List.prefix_append .., hl⟩
    obtain ⟨rest', hr⟩ := (hk ▸ hp).trans (List.take_prefix _ ts')
    exact ⟨rest', hr.symm⟩
  obtain ⟨rest, ht⟩ := h.split
  rcases onward_cases m us eof with ⟨m', -, he⟩ | ⟨front, t, back, m', s, hu, hf, hs, he⟩
  · obtain ⟨rest', ht'⟩ := agrees (us ++ [eof]) rest (by simpa using ht) (by simp [he])
    obtain ⟨rfl, rfl⟩ := h'.unique ⟨⟨rest', by simpa using ht'⟩, h.proper, h.type⟩
    rfl
  · have hp : ∀ t' ∈ front ++ [t], t'.type ≠ .eof := fun t' hm => h.proper t' (by
      rw [hu]
      simp only [List.mem_append, List.mem_cons] at hm ⊢
      tauto)
    obtain ⟨rest', ht'⟩ := agrees (front ++ [t]) (back ++ eof :: rest) (by simp [ht, hu]) (by
      rw [he]
      cases s.taken <;> simp)
    obtain ⟨back', hv⟩ := h'.exists_eq_append ht' hp
    rw [he, hv, List.append_assoc]
    exact onward_of_break hf hs

/-- All tokens before the end of input are taken where there is a program. -/
theorem eq_length_of_onward {fs : List RawNode} {k : Nat} (h : m.onward us eof 0 = (.ok fs, k)) : k = us.length := by
  rcases onward_cases m us eof with ⟨m', -, he⟩ | ⟨front, t, back, m', s, -, -, -, he⟩
  · exact (Prod.mk.inj (h.symm.trans he)).2
  · cases (Prod.mk.inj (h.symm.trans he)).1

/-- Whether a place is that of one of the first `n` tokens of a list. -/
def Place (ts : List Token) (n : Nat) (l : Location) : Prop := ∃ t ∈ ts.take n, t.location = l

/-- **A refusal is at a token that has been looked at**, if each type keyword has the text of a type. -/
theorem isOrder_of_onward (h : EndsAt ts us eof) {r : Refusal} {k : Nat}
    (hn : ∀ t ∈ us, t.type.isTypeName = true → ∃ type : DataType, t.value = .text type.keyword)
    (hr : start.onward us eof 0 = (.error r, k)) : r.IsOrder (Place ts (k + 1)) := by
  have seen (front rest : List Token) (hf : ts = front ++ rest) (hl : front.length ≤ k + 1) :
      ∀ t ∈ front, Place ts (k + 1) t.location := fun t ht =>
    ⟨t, (List.prefix_take_iff.2 ⟨hf ▸ List.prefix_append .., hl⟩).subset ht, rfl⟩
  obtain ⟨rest, ht⟩ := h.split
  rcases onward_cases start us eof with ⟨m', hm, he⟩ | ⟨front, t, back, m', s, hu, hf, hs, he⟩
  · obtain ⟨hfin, rfl⟩ := Prod.mk.inj (he.symm.trans hr)
    have hus := seen (us ++ [eof]) rest (by simpa using ht) (by simp)
    have hm := (comes_run (m := start) (fun t ht => hus t (List.mem_append_left _ ht)) hn trivial).of_eq hm
    exact (comes_finish (hus eof List.mem_concat_self) hm).of_eq hfin
  · obtain ⟨he, rfl⟩ := Prod.mk.inj (he.symm.trans hr)
    cases he
    have hfs := seen (front ++ [t]) (back ++ eof :: rest) (by simp [ht, hu]) (by
      cases s.taken <;> simp)
    rw [hu] at hn
    have hf := (comes_run (m := start) (fun t ht => hfs t (List.mem_append_left _ ht))
      (fun t ht => hn t (List.mem_append_left _ ht)) trivial).of_eq hf
    exact (comes_step (hfs t List.mem_concat_self) (hn t (by simp)) hf).of_eq hs

end Reader

/-! ## Lists of tokens -/

section Lists

variable (file : String) (lines : List String) (ts : List Token)

theorem descend_eq_onward : descend file ts =
    match Reader.start.onward (properTokens ts) (eofToken file ts) 0 with
    | (.ok functions, k) => (.ok (.program ⟨file, 1, 1⟩ functions.reverse), k)
    | (.error r, k) => (.error (.refused r), k) := by
  rw [descend, Descent.program_eq_onward (endsAt_completed file ts)]
  generalize Reader.start.onward (properTokens ts) (eofToken file ts) 0 = x
  obtain ⟨_ | _, k⟩ := x <;> rfl

theorem ofTokens_eq_onward : RawNode.ofTokens file lines ts =
    match Reader.start.onward (properTokens ts) (eofToken file ts) 0 with
    | (.ok functions, _) => .ok (.program ⟨file, 1, 1⟩ functions.reverse)
    | (.error r, _) => .error (r.failure lines) := by
  rw [RawNode.ofTokens, readTokens, Reader.onward, List.drop_zero]
  cases Reader.start.run (properTokens ts) with
  | error h => rfl
  | ok m => cases hf : m.finish (eofToken file ts) <;> simp [hf, Except.mapError]

end Lists

/-- **How reading a list of tokens stops**, with the cursor at `k`. -/
structure StopsAt (file : String) (lines : List String) (ts : List Token) (k : Nat) : Prop where
  /-- The list has a first end of input, and the cursor is no further. -/
  end_lt : (completed file ts).findIdx (·.type = .eof) < (completed file ts).length
  cursor_le : k ≤ (completed file ts).findIdx (·.type = .eof)
  /-- There is a tree and the cursor is at the end of input, or else the tokens are refused, for one of five causes, at a
  token up to the cursor. -/
  outcome :
    (∃ functions, k = (completed file ts).findIdx (·.type = .eof) ∧
      descend file ts = (.ok (.program ⟨file, 1, 1⟩ functions), k) ∧
      RawNode.ofTokens file lines ts = .ok (.program ⟨file, 1, 1⟩ functions)) ∨
    ∃ cause t, cause.isRefusal = true ∧ t ∈ (completed file ts).take (k + 1) ∧
      descend file ts = (.error (.refused (.diagnosed cause t.location)), k) ∧
      RawNode.ofTokens file lines ts =
        .error (.diagnostic ⟨cause, t.location, sourceLine? lines t.location.line⟩)
  /-- A list that agrees up to the cursor comes to the same. -/
  lookahead : ∀ us, (completed file us).take (k + 1) = (completed file ts).take (k + 1) →
    descend file us = descend file ts ∧ RawNode.ofTokens file lines us = RawNode.ofTokens file lines ts

/-- A function that is cut short in a parenthesis; the tokens behind the end of input are never looked at. -/
def cutShort : List Token :=
  [⟨.typeName .int, .text "int", ⟨"t.c", 1, 1⟩⟩, ⟨.identifier, .text "f", ⟨"t.c", 1, 5⟩⟩,
    ⟨.leftParen, .text "(", ⟨"t.c", 1, 6⟩⟩, ⟨.rightParen, .text ")", ⟨"t.c", 1, 7⟩⟩,
    ⟨.leftBrace, .text "\x7b", ⟨"t.c", 1, 9⟩⟩, ⟨.returnWord, .text "return", ⟨"t.c", 1, 11⟩⟩,
    ⟨.leftParen, .text "(", ⟨"t.c", 1, 18⟩⟩, ⟨.number, .number 1, ⟨"t.c", 1, 19⟩⟩, ⟨.eof, .absent, ⟨"t.c", 1, 20⟩⟩,
    ⟨.typeName .void, .text "void", ⟨"t.c", 2, 1⟩⟩]

end TinyArm
