import TinyArm.Proofs.Accepted
import TinyArm.Proofs.Partition
import TinyArm.Proofs.Relocation

/-!
# Sources one after the other

Two sources with a line feed between them have the lexemes of the one and then those of the other: no comment and no
word of the first goes on into the second. So each function is read, checked and coded as in its own source, but for
its place.

* `Spaced.newline`: spaced lexemes stay spaced with a line feed and other spaced lexemes after them.
* `exists_functions_of_content`: what tokens are read to does not depend on where they stand.
* `exists_ofSource_concat`: **the functions of both sources**, moved.
* `Accepted.append`: accepted programs whose functions have different names.
* `compileText_concat`: **the assembly of the whole** is the assembly of the parts, put together.
-/

namespace TinyArm

open Grammar

/-! ## Lexemes -/

theorem BreaksOff.newline {p : Char → Bool} (hp : p '\n' = false) {rest : List Char} (h : BreaksOff p rest)
    (more : List Char) : BreaksOff p (rest ++ '\n' :: more) := by
  cases rest with
  | nil => exact breaksOff_cons hp
  | cons c cs => exact breaksOff_cons (h c rfl)

/-- A lexeme that stops before the end of a text also stops before a line feed there. -/
theorem Lexeme.Stops.newline {l : Lexeme} {rest : List Char} (h : l.Stops rest) (more : List Char) :
    l.Stops (rest ++ '\n' :: more) := by
  cases l with
  | blank | blockComment => trivial
  | lineComment | word | numeral => exact BreaksOff.newline (by decide) h more
  | symbol c t => exact fun hc => BreaksOff.newline (by decide) (h hc) more

/-- **Spaced lexemes stay spaced** with a line feed and other spaced lexemes after them. -/
theorem Spaced.newline {ls ms : List Lexeme} (h : Spaced ls) (h' : Spaced ms) : Spaced (ls ++ .blank '\n' :: ms) := by
  induction h with
  | nil => exact h'.blank rfl
  | @cons l ls hf hs _ ih =>
    have hn := hs.newline (textOf ms)
    refine .cons hf ?_ ih
    show l.Stops (textOf (ls ++ .blank '\n' :: ms))
    rwa [textOf_append]

/-- A source with tokens is a text of spaced lexemes, and its tokens spell them. -/
theorem exists_spaced_of_tokens {source file : String} {ts : List Token} (h : tokens source file = .ok ts) :
    ∃ ls, Spaced ls ∧ (∀ l ∈ ls, l.Readable) ∧ source.toList = textOf ls ∧ Spells ls (properTokens ts) := by
  rw [(properTokens_of_tokens h).1]
  obtain ⟨hn, hr⟩ := Scan.readable_of_fault_eq_none (tokens_eq_ok_iff.1 h).1
  obtain ⟨hs, ht⟩ := spaced_lexemes hn
  refine ⟨_, hs, hr, ht.symm, ?_⟩
  rw [Scan.ofSource, hn]
  exact Scan.spells_of_readable hr file .start

/-! ## Functions -/

/-- **Tokens that make functions make them wherever they stand.** -/
theorem exists_functions_of_content {tss : List (List Token)} {fs : List RawNode}
    (h : List.Forall₂ (MakesFunction Stacks.IsValue) tss fs) {us : List Token}
    (hu : us.map Token.content = tss.flatten.map Token.content) :
    ∃ uss gs, us = uss.flatten ∧ List.Forall₂ (MakesFunction Stacks.IsValue) uss gs ∧
      gs.map (Node.relocate .forget) = fs.map (Node.relocate .forget) := by
  have hf := Reader.run_forget (m := .start) rfl hu
  rw [Reader.start, Reader.run_of_makesFunctions h []] at hf
  cases hr : Reader.run ⟨[], .outside⟩ us with
  | error e => rw [hr] at hf; cases hf
  | ok m =>
    rw [hr] at hf
    obtain ⟨gs, q⟩ := m
    obtain ⟨hg, hq⟩ := Reader.mk.inj (Except.ok.inj hf)
    have hq : q = .outside := by cases q <;> first | rfl | cases hq
    subst hq
    obtain ⟨uss, gs', hm, rfl, he⟩ := Reader.exists_functions_of_run rfl hr
    obtain ⟨rfl, -⟩ := Reader.mk.inj he
    simp only [List.append_nil, List.map_reverse, List.reverse_inj] at hg
    exact ⟨uss, gs', rfl, hm, hg⟩

/-- What the source of a program is made of: the texts of its tokens, and functions that these make. -/
theorem exists_makes_of_ofSource {source file : String} {loc : Location} {fs : List Tree}
    (h : Tree.ofSource source file = .ok (.program loc fs)) :
    ∃ ls tss gs, Spaced ls ∧ (∀ l ∈ ls, l.Readable) ∧ source.toList = textOf ls ∧ Spells ls tss.flatten ∧
      List.Forall₂ (MakesFunction Stacks.IsValue) tss gs ∧ gs.map RawNode.tree = fs := by
  obtain ⟨ts, raw, hts, hr, he⟩ := ofSource_eq_ok_iff.1 h
  obtain ⟨ls, hs, hl, hsource, hsp⟩ := exists_spaced_of_tokens hts
  have hm := ofTokens_eq_ok_iff.1 hr
  generalize properTokens ts = us at hsp hm
  obtain @⟨tss, gs, hg⟩ := hm
  rw [RawNode.tree, Node.map, Node.mapAll_eq_map] at he
  cases he
  exact ⟨ls, tss, gs, hs, hl, hsource, hsp, hg, rfl⟩

/-- **The functions of two sources with a line feed between them** are those of the one and then those of the other,
moved. -/
theorem exists_ofSource_concat {source₁ file₁ source₂ file₂ : String} {loc₁ loc₂ : Location} {fs₁ fs₂ : List Tree}
    (h₁ : Tree.ofSource source₁ file₁ = .ok (.program loc₁ fs₁))
    (h₂ : Tree.ofSource source₂ file₂ = .ok (.program loc₂ fs₂)) (file : String) :
    ∃ fs, Tree.ofSource (source₁ ++ "\n" ++ source₂) file = .ok (.program ⟨file, 1, 1⟩ fs) ∧
      fs.map (Node.relocate .forget) = (fs₁ ++ fs₂).map (Node.relocate .forget) := by
  obtain ⟨ls₁, tss₁, gs₁, hs₁, hl₁, e₁, hsp₁, hg₁, rfl⟩ := exists_makes_of_ofSource h₁
  obtain ⟨ls₂, tss₂, gs₂, hs₂, hl₂, e₂, hsp₂, hg₂, rfl⟩ := exists_makes_of_ofSource h₂
  -- the tokens of the whole have the contents of the tokens of the parts
  have hr : ∀ l ∈ ls₁ ++ .blank '\n' :: ls₂, l.Readable := by
    rw [List.forall_mem_append, List.forall_mem_cons]
    exact ⟨hl₁, Lexeme.readable_blank _, hl₂⟩
  have ht : (source₁ ++ "\n" ++ source₂).toList = textOf (ls₁ ++ .blank '\n' :: ls₂) := by
    simp [e₁, e₂, Lexeme.text]
  obtain ⟨ts, e, hts, hsp, hne, he⟩ := exists_tokens_textOf (hs₁.newline hs₂) hr ht file
  obtain ⟨us, vs, rfl, hu, hv⟩ := spells_append.1 hsp
  rw [spells_blank] at hv
  obtain ⟨uss, ks₁, rfl, hk₁, hm₁⟩ := exists_functions_of_content hg₁ (hu.trans hsp₁.symm)
  obtain ⟨vss, ks₂, rfl, hk₂, hm₂⟩ := exists_functions_of_content hg₂ (hv.trans hsp₂.symm)
  have hp : properTokens (uss.flatten ++ vss.flatten ++ [e]) = (uss ++ vss).flatten := by
    rw [properTokens, List.takeWhile_append_of_pos fun t ht => decide_eq_true (hne t ht), List.flatten_append]
    simp [he]
  have hmakes : Makes Stacks.IsValue file (properTokens (uss.flatten ++ vss.flatten ++ [e]))
      (.program ⟨file, 1, 1⟩ (ks₁ ++ ks₂)) := by
    rw [hp]
    exact .intro (List.rel_append hk₁ hk₂)
  refine ⟨(ks₁ ++ ks₂).map RawNode.tree, ofSource_eq_ok_iff.2 ⟨_, _, hts, ofTokens_eq_ok_iff.2 hmakes, ?_⟩, ?_⟩
  · rw [RawNode.tree, Node.map, Node.mapAll_eq_map]
    rfl
  · have htree : ∀ gs : List RawNode, (gs.map RawNode.tree).map (Node.relocate .forget) =
        (gs.map (Node.relocate .forget)).map RawNode.tree := by
      intro gs
      simp only [List.map_map]
      exact List.map_congr_left fun n _ => (RawNode.tree_relocate .forget n).symm
    rw [htree, List.map_append, hm₁, hm₂, ← List.map_append, ← htree, List.map_append]

/-! ## Accepted programs -/

section Mono

variable {declared declared' : List Signature}

theorem HasType.mono (hs : declared ⊆ declared') {κ : Type} {e : Node String κ} {t : DataType}
    (h : HasType declared e t) : HasType declared' e t := by
  induction h with
  | number loc value => exact .number loc value
  | absent => exact .absent
  | call loc hm => exact .call loc (hs hm)
  | binary loc op _ _ ihl ihr => exact .binary loc op ihl ihr

/-- More names may be declared than a function needs. -/
theorem WellTyped.mono (hs : declared ⊆ declared') {κ : Type} {f : Node String κ} (h : WellTyped declared f) :
    WellTyped declared' f := by
  obtain ⟨loc, name, hb⟩ := h
  refine .intro loc name fun s hm => ?_
  obtain ⟨l, hv⟩ := hb s hm
  exact .intro l (hv.mono hs)

end Mono

/-- The names that the functions of a tree declare. -/
def Node.functionNames {κ : Type} (n : Node String κ) : List String := (signatures n.functions).map Prod.fst

/-- **Accepted programs whose functions have different names are accepted together**: the functions of the second are
checked with more names declared, and none of these is one of theirs. -/
theorem Accepted.append {fs gs : List Tree} {a b : Assembly} (h : Accepted fs a) (h' : Accepted gs b)
    (hd : List.Disjoint ((signatures fs).map Prod.fst) ((signatures gs).map Prod.fst)) :
    Accepted (fs ++ gs) (a ++ b) where
  writable := List.forall_mem_append.2 ⟨h.writable, h'.writable⟩
  nodup := by
    rw [signatures_append, List.map_append]
    exact h.nodup.append h'.nodup hd
  wellTyped i f hf := by
    by_cases hi : i < fs.length
    · rw [List.getElem?_append_left hi] at hf
      rw [List.take_append_of_le_length hi]
      exact h.wellTyped i f hf
    · rw [List.getElem?_append_right (by omega)] at hf
      have ht : (fs ++ gs).take (i + 1) = fs ++ gs.take (i - fs.length + 1) := by
        rw [List.take_append, List.take_of_length_le (by omega)]
        congr 2
        omega
      rw [ht, signatures_append]
      exact (h'.wellTyped _ f hf).mono (List.subset_append_right _ _)
  blocks := List.rel_append h.blocks h'.blocks

/-- An accepted program passes analysis and has its blocks as code. -/
theorem Accepted.compiles {fs : List Tree} {a : Assembly} (h : Accepted fs a) (loc : Location) :
    (analyze (.program loc fs)).2 = .ok () ∧ generate (.program loc fs) = .ok a := by
  have h0 : (([] : List Signature).map Prod.fst).Nodup := List.nodup_nil
  exact ⟨(checkFunctions_declaring_eq_ok_iff h0).2 ⟨h.nodup, h.wellTyped⟩, functionBlocks_eq_ok_iff.2 h.blocks⟩

/-- Whether a program passes analysis, and its code, do not depend on where its parts stand. -/
theorem compiles_of_forget {n m : Tree} (h : n.relocate .forget = m.relocate .forget) {a : Assembly}
    (hm : (analyze m).2 = .ok () ∧ generate m = .ok a) : (analyze n).2 = .ok () ∧ generate n = .ok a := by
  have ha := congrArg (fun k => (analyze k).2) h
  have hg := congrArg generate h
  simp only [analyze_relocate] at ha
  rw [generate_relocate, generate_relocate] at hg
  exact ⟨mapError_eq_ok_iff.1 (ha.trans (mapError_eq_ok_iff.2 hm.1)),
    mapError_eq_ok_iff.1 (hg.trans (mapError_eq_ok_iff.2 hm.2))⟩

theorem compileText_of_ofSource {source file : String} {n : Tree} (h : Tree.ofSource source file = .ok n)
    {a : Assembly} (hn : (analyze n).2 = .ok () ∧ generate n = .ok a) : compileText source file = .ok a.text := by
  obtain ⟨ts, raw, hts, hr, rfl⟩ := ofSource_eq_ok_iff.1 h
  rw [compileText, compile_eq_ok_iff.2 ⟨ts, raw, a, hts, hr, hn.1, hn.2, rfl⟩]
  rfl

/-- **Compilation distributes over putting sources one after the other**: if two sources compile and no function of
the one has the name of a function of the other, then both compile together, with a line feed between them, and the
assembly is the assembly of the one and then that of the other. -/
theorem compileText_concat {options₁ options₂ : Options} {source₁ file₁ source₂ file₂ : String} {c₁ c₂ : Compiled}
    (h₁ : compile options₁ source₁ file₁ = .ok c₁) (h₂ : compile options₂ source₂ file₂ = .ok c₂)
    (hd : List.Disjoint c₁.tree.functionNames c₂.tree.functionNames) (file : String) :
    compileText (source₁ ++ "\n" ++ source₂) file = .ok (c₁.assembly.text ++ c₂.assembly.text) := by
  obtain ⟨hs₁, loc₁, fs₁, e₁, ha₁⟩ := accepted_of_compile h₁
  obtain ⟨hs₂, loc₂, fs₂, e₂, ha₂⟩ := accepted_of_compile h₂
  rw [e₁] at hs₁ hd
  rw [e₂] at hs₂ hd
  obtain ⟨fs, hs, hf⟩ := exists_ofSource_concat hs₁ hs₂ file
  have hn : (Node.program ⟨file, 1, 1⟩ fs : Tree).relocate .forget =
      (Node.program ⟨file, 1, 1⟩ (fs₁ ++ fs₂) : Tree).relocate .forget := by
    rw [Node.relocate, Node.relocate, Node.relocateAll_eq_map, Node.relocateAll_eq_map, hf]
  rw [compileText_of_ofSource hs (compiles_of_forget hn ((ha₁.append ha₂ hd).compiles _)), Assembly.text_append]

/-- A source that ends within a comment to the end of the line. -/
def commentedConstant : String := "int g() \x7b return 1; \x7d // one"

/-- A source whose function calls itself. -/
def selfCall : String := "void f() \x7b return f(); \x7d"

/-- Two sources that compile together, and one of them with no source at all. -/
theorem compileText_concat_selfCall : ∃ c₁ c₂ c₃, compile {} commentedConstant "g.c" = .ok c₁ ∧
    compile {} selfCall "f.c" = .ok c₂ ∧ compile {} "" "e.c" = .ok c₃ ∧
    List.Disjoint c₁.tree.functionNames c₂.tree.functionNames ∧
    compileText (commentedConstant ++ "\n" ++ selfCall) "t.c" = .ok (c₁.assembly.text ++ c₂.assembly.text) ∧
    compileText ("" ++ "\n" ++ selfCall) "t.c" = .ok (c₃.assembly.text ++ c₂.assembly.text) := by
  have names : ∀ source file ns, (compile {} source file).map (·.tree.functionNames) = .ok ns →
      ∃ c, compile {} source file = .ok c ∧ c.tree.functionNames = ns := fun _ _ _ => map_eq_ok_iff.1
  obtain ⟨c₁, h₁, hg⟩ := names commentedConstant "g.c" ["g"] (by decide +kernel)
  obtain ⟨c₂, h₂, hf⟩ := names selfCall "f.c" ["f"] (by decide +kernel)
  obtain ⟨c₃, h₃, he⟩ := names "" "e.c" [] (by decide +kernel)
  have hd : List.Disjoint c₁.tree.functionNames c₂.tree.functionNames := by
    rw [hg, hf]
    simp
  have hd' : List.Disjoint c₃.tree.functionNames c₂.tree.functionNames := by
    rw [he]
    exact List.disjoint_nil_left _
  exact ⟨c₁, c₂, c₃, h₁, h₂, h₃, hd, compileText_concat h₁ h₂ hd "t.c", compileText_concat h₃ h₂ hd' "t.c"⟩

end TinyArm
