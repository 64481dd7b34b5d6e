import Mathlib.Data.List.TakeWhile
import TinyArm.Proofs.Conservation
import TinyArm.Proofs.Sources

/-!
# What sources are read to

The scanner lets only some tokens through: a name carries a text that is no keyword, a literal a number of 32 bits
(`Token.IsScanned`). The reader takes the leaves of a tree from its tokens, so the tree of a source is one that can be
written as a source.

* `formed_lexemes`: the lexemes of a text are formed.
* `isScanned_of_tokens`: the tokens of a source are scanned.
* `writable_of_ofSource`: **the tree of a source can be written.**
-/

namespace TinyArm

open Grammar

/-! ## Lexemes -/

/-- The body of a comment holds no closing mark, not even together with its own. -/
theorem closeComment?_of_closeComment? {cs body rest : List Char} (h : closeComment? cs = some (body, rest)) :
    closeComment? (body ++ ['*', '/']) = some (body, []) := by
  fun_induction closeComment? cs generalizing body with
  | case1 => cases h
  | case2 => cases h; rfl
  | case3 c cs hc ih =>
    obtain ⟨⟨body', rest⟩, hq, he⟩ := Option.map_eq_some_iff.1 h
    cases he
    have hn : ∀ ds, c = '*' → body' ++ ['*', '/'] = '/' :: ds → False := by
      intro ds hs hd
      cases body' with
      | nil => cases hd
      | cons d body' =>
        have ha := append_of_closeComment? hq
        rw [List.cons_append] at hd
        exact hc (body' ++ '*' :: '/' :: rest) hs (by rw [← ha, (List.cons.inj hd).1]; rfl)
    rw [List.cons_append, closeComment?.eq_3 _ _ hn, ih hq]
    rfl

theorem Lexeme.formed_of_next {c : Char} {cs : List Char} {l : Lexeme} {rest : List Char}
    (h : next c cs = .ok (l, rest)) : l.Formed := by
  unfold next at h
  split at h
  · next hb => cases h; exact hb
  · split at h
    · cases h
      intro d hd
      simpa using List.mem_takeWhile_imp hd
    · split at h
      · split at h
        · next hc => cases h; exact closeComment?_of_closeComment? hc
        · cases h
      · split at h
        · next hw =>
          cases h
          exact ⟨c, _, rfl, hw, fun d hd => List.mem_takeWhile_imp hd⟩
        · split at h
          · next hd =>
            cases h
            exact ⟨List.cons_ne_nil _ _, List.forall_mem_cons.2 ⟨hd, fun d hm => List.mem_takeWhile_imp hm⟩⟩
          · split at h
            · next ht => cases h; exact ht
            · cases h

/-- **The lexemes of a text are formed.** -/
theorem formed_lexemes (cs : List Char) : ∀ l ∈ (lexemes cs).1, l.Formed := by
  fun_induction lexemes cs with
  | case1 => simp
  | case2 c cs l rest h _ r ih => exact List.forall_mem_cons.2 ⟨Lexeme.formed_of_next h, ih⟩
  | case3 => simp

/-! ## Tokens -/

/-- A token as the scanner gives it: a name with its text, a literal with its number. -/
structure Token.IsScanned (t : Token) : Prop where
  name : t.type = .identifier → ∃ s, t.value = .text s ∧ IsName s
  literal : t.type = .number → ∃ n : Nat, t.value = .number n ∧ n ≤ 0xFFFFFFFF

theorem isName_of_ofWord {cs : List Char} (hf : (Lexeme.word cs).Formed)
    (h : TokenType.ofWord (String.ofList cs) = .identifier) : IsName (String.ofList cs) := by
  have hk : ∀ t : DataType, String.ofList cs ≠ t.keyword := by
    intro t e
    rw [e, TokenType.ofWord, DataType.ofKeyword?_keyword] at h
    cases h
  have hr : String.ofList cs ≠ "return" := by
    intro e
    rw [e] at h
    revert h
    decide
  have hs : (String.ofList cs).toList = cs := String.toList_ofList
  exact ⟨hs.symm ▸ hf, hk .int, hk .void, hr⟩

theorem Lexeme.isScanned_of_content? {l : Lexeme} (hf : l.Formed) {k : TokenType × Value} (h : l.content? = some k)
    (loc : Location) : Token.IsScanned ⟨k.1, k.2, loc⟩ := by
  cases l with
  | blank | lineComment | blockComment => cases h
  | word cs =>
    cases h
    refine ⟨fun ht => ⟨_, rfl, isName_of_ofWord hf ht⟩, fun ht => ?_⟩
    simp only [TokenType.ofWord] at ht
    split at ht
    · cases ht
    · split at ht <;> cases ht
  | numeral cs =>
    obtain ⟨rfl, hn⟩ := eq_of_content?_numeral h
    exact ⟨nofun, fun _ => ⟨_, rfl, hn⟩⟩
  | symbol c t =>
    cases h
    have ht : TokenType.ofSymbol? c = some t := hf
    unfold TokenType.ofSymbol? at ht
    split at ht <;> cases ht <;> exact ⟨nofun, nofun⟩

/-- **A token of a source** is the end of input or the token of a lexeme. -/
theorem exists_lexeme_of_mem {source file : String} {ts : List Token} (h : tokens source file = .ok ts) {t : Token}
    (ht : t ∈ ts) : t.content = (.eof, .absent) ∨ ∃ l : Lexeme, l.Formed ∧ l.content? = some t.content := by
  obtain ⟨hf, rfl⟩ := tokens_eq_ok_iff.1 h
  obtain ⟨hn, hr⟩ := Scan.readable_of_fault_eq_none hf
  rcases List.mem_append.1 ht with ht | ht
  · rw [Scan.ofSource, hn] at ht
    have hs := Scan.spells_of_readable hr file .start
    have hc : t.content ∈ (lexemes source.toList).1.filterMap Lexeme.content? := hs ▸ List.mem_map_of_mem ht
    obtain ⟨l, hl, hk⟩ := List.mem_filterMap.1 hc
    exact .inr ⟨l, formed_lexemes _ l hl, hk⟩
  · exact .inl (List.mem_singleton.1 ht ▸ rfl)

/-- The tokens of a source that are read are those of its scan; the end of input comes after them. -/
theorem properTokens_of_tokens {source file : String} {ts : List Token} (h : tokens source file = .ok ts) :
    properTokens ts = (Scan.ofSource source.toList file).tokens ∧
      eofToken file ts = (Scan.ofSource source.toList file).eof file := by
  obtain ⟨hf, rfl⟩ := tokens_eq_ok_iff.1 h
  obtain ⟨hn, hr⟩ := Scan.readable_of_fault_eq_none hf
  have hs : Spells (lexemes source.toList).1 (Scan.ofSource source.toList file).tokens := by
    rw [Scan.ofSource, hn]
    exact Scan.spells_of_readable hr file .start
  have hne : ∀ t ∈ (Scan.ofSource source.toList file).tokens, decide (t.type ≠ .eof) = true :=
    fun t ht => decide_eq_true (hs.type_ne_eof (formed_lexemes _) t ht)
  rw [properTokens, eofToken, List.takeWhile_append_of_pos hne, List.dropWhile_append_of_pos hne]
  simp [Scan.eof]

/-- A type keyword of a source has the text of a type. -/
theorem value_of_isTypeName {source file : String} {ts : List Token} (h : tokens source file = .ok ts) {t : Token}
    (ht : t ∈ ts) (hn : t.type.isTypeName = true) : ∃ type : DataType, t.value = .text type.keyword := by
  obtain ⟨type, value, loc⟩ := t
  rcases exists_lexeme_of_mem h ht with hc | ⟨l, hf, hk⟩
  · cases hc
    cases hn
  · cases l with
    | blank | lineComment | blockComment => cases hk
    | word cs =>
      cases hk
      simp only at hn
      split at hn
      · next type hs => exact ⟨type, congrArg Value.text (DataType.keyword_of_ofKeyword? hs).symm⟩
      · split at hn <;> cases hn
    | numeral cs =>
      cases (Lexeme.eq_of_content?_numeral hk).1
      cases hn
    | symbol c k =>
      cases hk
      have hk : TokenType.ofSymbol? c = some type := hf
      unfold TokenType.ofSymbol? at hk
      split at hk <;> cases hk <;> cases hn

/-- **The tokens of a source are scanned.** -/
theorem isScanned_of_tokens {source file : String} {ts : List Token} (h : tokens source file = .ok ts) :
    ∀ t ∈ ts, t.IsScanned := by
  intro t ht
  rcases exists_lexeme_of_mem h ht with hc | ⟨l, hf, hk⟩
  · obtain ⟨type, value, loc⟩ := t
    cases hc
    exact ⟨nofun, nofun⟩
  · exact l.isScanned_of_content? hf hk t.location

/-! ## Trees -/

theorem writable_of_leaf? {t : Token} (h : t.IsScanned) {n : RawNode} (hn : t.leaf? = some n) : Writable n.tree := by
  unfold Token.leaf? at hn
  split at hn
  · next ht =>
    cases hn
    obtain ⟨m, hv, hm⟩ := h.literal ht
    rw [RawNode.tree, Node.map, hv]
    exact .number _ (Int.natCast_nonneg m) (by show (m : Int) ≤ 0xFFFFFFFF; omega)
  · next ht =>
    cases hn
    obtain ⟨s, hv, hs⟩ := h.name ht
    rw [RawNode.tree, Node.map, hv]
    exact .call _ hs
  · cases hn

theorem writable_of_leaves {v : RawNode} (h : v.IsExpression) (hl : ∀ n ∈ v.leaves, Writable (RawNode.tree n)) :
    Writable v.tree := by
  induction h with
  | number => exact hl _ (List.mem_singleton.2 rfl)
  | call => exact hl _ (List.mem_singleton.2 rfl)
  | binary loc op _ _ ihl ihr =>
    rw [Node.leaves_binary, List.forall_mem_append] at hl
    exact .binary loc op (ihl hl.1) (ihr hl.2)

theorem writableReturn_of_makes {ts : List Token} {n : RawNode} (h : MakesStatement Stacks.IsValue ts n)
    (hs : ∀ t ∈ ts, t.IsScanned) : WritableReturn n.tree := by
  obtain @⟨r, e, us, v, -, hv, -⟩ := h
  rcases hv.isExpression with rfl | hx
  · exact .nothing _
  · refine .value _ (writable_of_leaves hx fun n hn => ?_)
    rw [hv.conserves.leaves, List.mem_filterMap] at hn
    obtain ⟨t, ht, hn⟩ := hn
    exact writable_of_leaf? (hs t (by simp [ht])) hn

theorem exists_mem_of_forall₂ {α β : Type} {R : α → β → Prop} {as : List α} {bs : List β} (h : List.Forall₂ R as bs)
    {b : β} (hb : b ∈ bs) : ∃ a ∈ as, R a b := by
  induction h with
  | nil => cases hb
  | cons hab _ ih =>
    rcases List.mem_cons.1 hb with rfl | hb
    · exact ⟨_, List.mem_cons_self, hab⟩
    · obtain ⟨a, ha, hr⟩ := ih hb
      exact ⟨a, List.mem_cons_of_mem _ ha, hr⟩

theorem writableFunction_of_makes {ts : List Token} {n : RawNode} (h : MakesFunction Stacks.IsValue ts n)
    (hs : ∀ t ∈ ts, t.IsScanned) : WritableFunction n.tree := by
  obtain @⟨_, _, tss, body, e, @⟨t, n, l, r, b, type, -, -, hn, -, -, -⟩, hb, -⟩ := h
  obtain ⟨s, hv, hname⟩ := (hs n (by simp)).name hn
  rw [RawNode.tree, Node.map, Node.mapAll_eq_map, hv]
  refine .intro _ _ hname fun m hm => ?_
  obtain ⟨k, hk, rfl⟩ := List.mem_map.1 hm
  obtain ⟨us, hu, hk⟩ := exists_mem_of_forall₂ hb hk
  refine writableReturn_of_makes hk fun t ht => hs t ?_
  have : t ∈ tss.flatten := List.mem_flatten.2 ⟨us, hu, ht⟩
  simp [this]

theorem bind_eq_ok_iff {ε α β : Type} {x : Except ε α} {f : α → Except ε β} {b : β} :
    (x >>= f) = .ok b ↔ ∃ a, x = .ok a ∧ f a = .ok b := by
  cases x <;> simp [bind, Except.bind]

theorem bind_eq_error_iff {ε α β : Type} {x : Except ε α} {f : α → Except ε β} {e : ε} :
    (x >>= f) = .error e ↔ x = .error e ∨ ∃ a, x = .ok a ∧ f a = .error e := by
  cases x <;> simp [bind, Except.bind]

theorem map_eq_ok_iff {ε α β : Type} {x : Except ε α} {f : α → β} {b : β} :
    x.map f = .ok b ↔ ∃ a, x = .ok a ∧ f a = b := by
  cases x <;> simp [Except.map]

theorem map_eq_error_iff {ε α β : Type} {x : Except ε α} {f : α → β} {e : ε} :
    x.map f = .error e ↔ x = .error e := by
  cases x <;> simp [Except.map]

theorem mapError_eq_ok_iff {ε ε' α : Type} {f : ε → ε'} {x : Except ε α} {a : α} :
    x.mapError f = .ok a ↔ x = .ok a := by
  cases x <;> simp [Except.mapError]

theorem ofSource_eq_ok_iff {source file : String} {n : Tree} : Tree.ofSource source file = .ok n ↔
    ∃ ts raw, tokens source file = .ok ts ∧ RawNode.ofTokens file (quotedLines source) ts = .ok raw ∧
      raw.tree = n := by
  rw [Tree.ofSource, bind_eq_ok_iff]
  constructor
  · rintro ⟨ts, hts, h⟩
    obtain ⟨raw, hr, h⟩ := bind_eq_ok_iff.1 h
    exact ⟨ts, raw, hts, hr, Except.ok.inj h⟩
  · rintro ⟨ts, raw, hts, hr, rfl⟩
    exact ⟨ts, hts, bind_eq_ok_iff.2 ⟨raw, hr, rfl⟩⟩

/-- A source that has no tree has no tokens, or its tokens are refused. -/
theorem ofSource_eq_error_cases {source file : String} {f : Failure} (h : Tree.ofSource source file = .error f) :
    tokens source file = .error f ∨
      ∃ ts, tokens source file = .ok ts ∧ RawNode.ofTokens file (quotedLines source) ts = .error f := by
  rcases bind_eq_error_iff.1 h with ht | ⟨ts, hts, h⟩
  · exact .inl ht
  · rcases bind_eq_error_iff.1 h with hr | ⟨_, -, h⟩
    · exact .inr ⟨ts, hts, hr⟩
    · cases h

/-- **The tree of a source can be written**: its names are names and its literals have 32 bits. -/
theorem writable_of_ofSource {source file : String} {n : Tree} (h : Tree.ofSource source file = .ok n) :
    ∃ loc fs, n = .program loc fs ∧ ∀ f ∈ fs, WritableFunction f := by
  obtain ⟨ts, raw, hts, hr, rfl⟩ := ofSource_eq_ok_iff.1 h
  have hs : ∀ t ∈ properTokens ts, t.IsScanned := fun t ht =>
    isScanned_of_tokens hts t ((List.takeWhile_sublist _).mem ht)
  have hm := ofTokens_eq_ok_iff.1 hr
  generalize properTokens ts = us at hs hm
  obtain @⟨tss, fs, hf⟩ := hm
  rw [RawNode.tree, Node.map, Node.mapAll_eq_map]
  refine ⟨_, _, rfl, fun m hm => ?_⟩
  obtain ⟨f, hk, rfl⟩ := List.mem_map.1 hm
  obtain ⟨vs, hv, hk⟩ := exists_mem_of_forall₂ hf hk
  exact writableFunction_of_makes hk fun t ht => hs t (List.mem_flatten.2 ⟨vs, hv, ht⟩)

theorem Writable.isExpression {e : Tree} (h : Writable e) : e.IsExpression := by
  induction h with
  | number loc => exact .number loc _
  | call loc => exact .call loc _
  | binary loc op _ _ hl hr => exact .binary loc op hl hr

theorem WritableFunction.isFunction {f : Tree} (h : WritableFunction f) : f.IsFunction := by
  obtain ⟨loc, type, -, hb⟩ := h
  refine .intro loc _ type fun s hs => ?_
  cases hb s hs with
  | nothing loc => exact .nothing loc
  | value loc he => exact .value loc he.isExpression

/-- The tree of a source is the tree of a program. -/
theorem isProgram_of_ofSource {source file : String} {n : Tree} (h : Tree.ofSource source file = .ok n) :
    n.IsProgram := by
  obtain ⟨loc, fs, rfl, hw⟩ := writable_of_ofSource h
  exact .intro loc fun f hf => (hw f hf).isFunction

end TinyArm
