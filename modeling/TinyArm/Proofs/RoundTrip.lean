import TinyArm.Proofs.Precedence
import TinyArm.Proofs.Sources

/-!
# Trees from their sources

The tokens of a source that was written from a tree denote that tree again: around every operation there are
parentheses, so each expression is a factor whatever stands beside it.

* `exists_denotes_of_spells`: the tokens of an expression denote it.
* `exists_makes_of_spells`: the tokens of a program are laid out as the program.
* `ofSource_programSource`: **the source of a program is read to the program.**
-/

namespace TinyArm

open Grammar

/-! ## Expressions -/

theorem IsName.ofWord {s : String} (h : IsName s) : TokenType.ofWord s = .identifier := by
  simp [TokenType.ofWord, DataType.ofKeyword?, h.ne_int, h.ne_void, h.ne_return]

theorem ofWord_keyword (type : DataType) : TokenType.ofWord type.keyword = .typeName type := by
  simp [TokenType.ofWord, DataType.ofKeyword?_keyword]

theorem ofWord_return : TokenType.ofWord "return" = .returnWord := by
  decide

/-- **The tokens of an expression denote it**, and they are a factor. -/
theorem exists_denotes_of_spells {e : Tree} (h : Writable e) : ∀ ts, Spells (expressionLexemes e) ts →
    ∃ v, Denotes .factor ts v ∧ v.tree.same e = true := by
  induction h with
  | @number loc n h0 hn =>
    intro ts hs
    obtain ⟨m, rfl⟩ := Int.eq_ofNat_of_zero_le h0
    rw [expressionLexemes_number] at hs
    obtain ⟨t, us, rfl, ht, hv, hu⟩ := (spells_cons (content?_digits (by omega))).1 hs
    obtain rfl := spells_nil.1 hu
    refine ⟨_, .number ht, ?_⟩
    simp [RawNode.tree, Node.map, Node.same, hv, Value.toInt]
  | call loc hn =>
    intro ts hs
    obtain ⟨n, us, rfl, ht, hv, hu⟩ := spells_word hs
    obtain ⟨l, us, rfl, hl, hu⟩ := spells_symbol hu
    obtain ⟨r, us, rfl, hr, hu⟩ := spells_symbol hu
    obtain rfl := spells_nil.1 hu
    refine ⟨_, .call (ht.trans hn.ofWord) hl hr, ?_⟩
    simp [RawNode.tree, Node.map, Node.same, hv, Value.spelling]
  | binary loc op _ _ ihl ihr =>
    intro ts hs
    obtain ⟨l, us, rfl, hl, hu⟩ := spells_symbol hs
    obtain ⟨ts₁, us, rfl, h₁, hu⟩ := spells_append.1 hu
    obtain ⟨o, us, rfl, ho, hu⟩ := spells_symbol (spells_blank.1 hu)
    obtain ⟨ts₂, us, rfl, h₂, hu⟩ := spells_append.1 (spells_blank.1 hu)
    obtain ⟨r, us, rfl, hr, hu⟩ := spells_symbol hu
    obtain rfl := spells_nil.1 hu
    obtain ⟨v, hv, ev⟩ := ihl ts₁ h₁
    obtain ⟨w, hw, ew⟩ := ihr ts₂ h₂
    -- both operands are factors, so they are operands of any operator
    have hsum : Denotes .sum (ts₁ ++ o :: ts₂) (.binary o.location (some op) v w) := by
      rcases multiplicative_or_additive op with hop | hop
      · exact .sum (.multiplicative (.product hv) ho hop hw)
      · exact .additive (.sum (.product hv)) ho hop (.product hw)
    refine ⟨_, by simpa using Denotes.group hl hsum hr, ?_⟩
    simp only [RawNode.tree] at ev ew
    simp [RawNode.tree, Node.map, Node.same, ev, ew]

/-! ## Whole programs -/

theorem exists_makesStatement_of_spells {s : Tree} (h : WritableReturn s) {ts : List Token}
    (hs : Spells (statementLexemes s) ts) :
    ∃ n, MakesStatement Grammar.IsValue ts n ∧ n.tree.same s = true := by
  cases h with
  | nothing =>
    obtain ⟨r, us, rfl, hr, _, hu⟩ := spells_word hs
    obtain ⟨e, us, rfl, he, hu⟩ := spells_symbol hu
    obtain rfl := spells_nil.1 hu
    have hv : Grammar.IsValue [] .absent := .inl ⟨rfl, rfl⟩
    exact ⟨_, .intro (hr.trans ofWord_return) hv he, rfl⟩
  | value loc hw =>
    rw [statementLexemes.eq_2 _ _ hw.ne_absent] at hs
    obtain ⟨r, us, rfl, hr, _, hu⟩ := spells_word hs
    obtain ⟨ts, us, rfl, hts, hu⟩ := spells_append.1 (spells_blank.1 hu)
    obtain ⟨e, us, rfl, he, hu⟩ := spells_symbol hu
    obtain rfl := spells_nil.1 hu
    obtain ⟨v, hv, ev⟩ := exists_denotes_of_spells hw ts hts
    exact ⟨_, .intro (hr.trans ofWord_return) (.inr (.sum (.product hv))) he, ev⟩

/-- The tokens of items with blanks after each are the tokens of one item after the other. -/
theorem exists_forall₂_of_spells {gap : String} {L : Tree → List Lexeme} {M : List Token → RawNode → Prop}
    {items : List Tree}
    (h : ∀ i ∈ items, ∀ ts, Spells (L i) ts → ∃ n, M ts n ∧ n.tree.same i = true) :
    ∀ ts, Spells (eachLexemes gap L items) ts → ∃ tss ns, ts = tss.flatten ∧ List.Forall₂ M tss ns ∧
      Node.sameAll (Node.mapAll Value.spelling Value.toInt ns) items = true := by
  induction items with
  | nil => exact fun ts hs => ⟨[], [], spells_nil.1 hs, .nil, rfl⟩
  | cons i items ih =>
    intro ts hs
    rw [eachLexemes, List.flatMap_cons] at hs
    obtain ⟨ts, us, rfl, hi, hu⟩ := spells_append.1 hs
    obtain ⟨n, hn, en⟩ := h i List.mem_cons_self ts (spells_append_blanks.1 hi)
    obtain ⟨tss, ns, rfl, hns, es⟩ := ih (fun j hj => h j (List.mem_cons_of_mem _ hj)) us hu
    have en' : (n.map Value.spelling Value.toInt).same i = true := en
    exact ⟨ts :: tss, n :: ns, by simp, .cons hn hns, by simp [Node.mapAll, Node.sameAll, en', es]⟩

theorem exists_makesFunction_of_spells {gap : String} {f : Tree} (h : WritableFunction f) {ts : List Token}
    (hs : Spells (functionLexemes gap f) ts) :
    ∃ n, MakesFunction Grammar.IsValue ts n ∧ n.tree.same f = true := by
  obtain ⟨loc, type, hn, hb⟩ := h
  obtain ⟨t, us, rfl, ht, hv, hu⟩ := spells_word hs
  obtain ⟨n, us, rfl, hname, hnv, hu⟩ := spells_word (spells_blank.1 hu)
  obtain ⟨l, us, rfl, hl, hu⟩ := spells_symbol hu
  obtain ⟨r, us, rfl, hr, hu⟩ := spells_symbol hu
  obtain ⟨b, us, rfl, hbrace, hu⟩ := spells_symbol (spells_blank.1 hu)
  obtain ⟨ts, us, rfl, hts, hu⟩ := spells_append.1 (spells_blanks_append.1 hu)
  obtain ⟨e, us, rfl, he, hu⟩ := spells_symbol hu
  obtain rfl := spells_nil.1 hu
  obtain ⟨tss, ns, rfl, hns, es⟩ :=
    exists_forall₂_of_spells (fun s hs ts h => exists_makesStatement_of_spells (hb s hs) h) ts hts
  have hfront : IsFront [t, n, l, r, b] ⟨t.location, type, n.value⟩ :=
    .intro (by rw [ht, ofWord_keyword]; rfl) hv (hname.trans hn.ofWord) hl hr hbrace
  refine ⟨_, by simpa using MakesFunction.intro hfront hns he, ?_⟩
  simp [RawNode.tree, Node.map, Node.same, hnv, Value.spelling, es]

/-- The tokens of a program are laid out as the program. -/
theorem exists_makes_of_spells {gap : String} {fs : List Tree} (h : ∀ f ∈ fs, WritableFunction f) {ts : List Token}
    (hs : Spells (programLexemes gap fs) ts) (file : String) (loc : Location) :
    ∃ n, Makes Grammar.IsValue file ts n ∧ n.tree.same (.program loc fs) = true := by
  obtain ⟨tss, ns, rfl, hns, es⟩ :=
    exists_forall₂_of_spells (fun f hf ts h' => exists_makesFunction_of_spells (h f hf) h') ts hs
  exact ⟨_, .intro hns, es⟩

/-- **The source of a program is read to the program**, whatever blanks stand between its parts. -/
theorem ofSource_programSource {fs : List Tree} (h : ∀ f ∈ fs, WritableFunction f) {gap : String}
    (hg : ∀ c ∈ gap.toList, isBlank c = true) (file : String) (loc : Location) :
    ∃ n, Tree.ofSource (programSource gap fs) file = .ok n ∧ n.same (.program loc fs) = true := by
  obtain ⟨ts, e, htokens, hspells, hts, he⟩ := exists_tokens_programSource h hg file
  have hproper : properTokens (ts ++ [e]) = ts := by
    rw [properTokens, List.takeWhile_append_of_pos (by simpa using hts)]
    simp [he]
  obtain ⟨n, hn, en⟩ := exists_makes_of_spells h hspells file loc
  rw [← hproper] at hn
  refine ⟨n.tree, ?_, en⟩
  rw [Tree.ofSource, htokens]
  show (RawNode.ofTokens file (quotedLines (programSource gap fs)) (ts ++ [e]) >>= fun n => pure n.tree) = .ok n.tree
  rw [ofTokens_of_makes hn]
  rfl

/-- The program `int f() { return (1 - (f() * 4294967295)); } void _g1() { return; }`, placed anywhere. -/
def differenceAndNothing (loc : Location) : List Tree :=
  [.function loc "f" .int [.ret loc (.binary loc (some .subtract) (.number loc 1)
      (.binary loc (some .multiply) (.call loc "f") (.number loc 4294967295)))],
    .function loc "_g1" .void [.ret loc .absent]]

theorem ofSource_differenceAndNothing :
    (∀ f ∈ differenceAndNothing ⟨"", 0, 0⟩, WritableFunction f) ∧ (∀ c ∈ "\n".toList, isBlank c = true) ∧
      ∃ n, Tree.ofSource (programSource "\n" (differenceAndNothing ⟨"", 0, 0⟩)) "t.c" = .ok n ∧
        n.same (.program ⟨"", 0, 0⟩ (differenceAndNothing ⟨"", 0, 0⟩)) = true := by
  have hf : IsName "f" := ⟨⟨'f', [], rfl, rfl, List.all_eq_true.1 rfl⟩, by decide, by decide, by decide⟩
  have hg : IsName "_g1" := ⟨⟨'_', ['g', '1'], rfl, rfl, List.all_eq_true.1 rfl⟩, by decide, by decide, by decide⟩
  have h : ∀ f ∈ differenceAndNothing ⟨"", 0, 0⟩, WritableFunction f := by
    refine List.forall_mem_cons.2 ⟨.intro _ _ hf ?_, List.forall_mem_singleton.2 (.intro _ _ hg ?_)⟩
    · refine List.forall_mem_singleton.2 (.value _ (.binary _ _ (.number _ ?_ ?_) (.binary _ _ (.call _ hf)
        (.number _ ?_ ?_)))) <;> decide
    · exact List.forall_mem_singleton.2 (.nothing _)
  have hb : ∀ c ∈ "\n".toList, isBlank c = true := List.all_eq_true.1 rfl
  exact ⟨h, hb, ofSource_programSource h hb "t.c" ⟨"", 0, 0⟩⟩

end TinyArm
