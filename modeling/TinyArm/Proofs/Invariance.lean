import TinyArm.Proofs.Encoding
import TinyArm.Proofs.Precedence
import TinyArm.Proofs.Printing
import TinyArm.Proofs.SourceTrees

/-!
# Layout does not matter

What tokens come to is decided by their types and values. Their places, the name of the file and the lines that failures
quote from go into trees and reports, and nothing else depends on them.

* `ofTokens_forget`: reading token lists of one content, up to places.
* `ofTree_tree_of_makes`: the tree that the compiler works on has all that was read, if the values fit.
* `ofTokens_agree`: **token lists of one content come to the same**, from the tree to its outline, code and analysis, or
  are refused for the same cause.
-/

namespace TinyArm

open Grammar

/-! ## Failures without places -/

/-- A failure without its place and the line that it shows: of a report, the cause with its wording is left. -/
def Failure.unplaced : Failure → Failure
  | diagnostic d => report d.cause none
  | f => f

@[simp] theorem Failure.unplaced_relocate (g : Location → Location) (f : Failure) :
    (f.relocate g).unplaced = f.unplaced := by
  cases f <;> rfl

theorem Failure.unplaced_failure (g : Location → Location) (lines : List String) (r : Refusal) :
    (r.failure lines).unplaced = ((r.relocate g).failure []).unplaced := by
  cases r <;> rfl

/-! ## Reading -/

/-- Outcomes that are read alike are both results or both failures. -/
theorem bimap_eq_cases {ε ε' α α' : Type} {f : ε → ε'} {h : α → α'} {x y : Except ε α}
    (he : bimap f h x = bimap f h y) :
    (∃ a b, x = .ok a ∧ y = .ok b ∧ h a = h b) ∨ ∃ e e', x = .error e ∧ y = .error e' ∧ f e = f e' := by
  cases x with
  | ok a =>
    cases y with
    | ok b => exact .inl ⟨a, b, rfl, rfl, Except.ok.inj he⟩
    | error e' => cases he
  | error e =>
    cases y with
    | ok b => cases he
    | error e' => exact .inr ⟨e, e', rfl, rfl, Except.error.inj he⟩

theorem properTokens_content {ts us : List Token} (h : ts.map Token.content = us.map Token.content) :
    (properTokens ts).map Token.content = (properTokens us).map Token.content := by
  have hp : ∀ vs : List Token, (properTokens vs).map Token.content =
      (vs.map Token.content).takeWhile (·.1 ≠ .eof) := by
    intro vs
    rw [properTokens, List.takeWhile_map]
    rfl
  rw [hp, hp, h]

/-- Readers that stand alike end alike: of the end of input only the place counts. -/
theorem Reader.finish_forget {m m' : Reader} (h : m.relocate .forget = m'.relocate .forget) (e e' : Token) :
    bimap (Refusal.relocate .forget) (List.map (Node.relocate .forget)) (m.finish e) =
      bimap (Refusal.relocate .forget) (List.map (Node.relocate .forget)) (m'.finish e') := by
  rw [← finish_relocate, ← finish_relocate, h]
  rfl

/-- Reading token lists of one content comes to the same tree or breaks off for the same cause, up to places. -/
theorem readTokens_forget {ts us : List Token} (h : ts.map Token.content = us.map Token.content)
    (file file' : String) :
    bimap (fun k => k.refusal.relocate .forget) (Node.relocate .forget) (readTokens file ts) =
      bimap (fun k => k.refusal.relocate .forget) (Node.relocate .forget) (readTokens file' us) := by
  simp only [readTokens]
  rcases bimap_eq_cases (Reader.run_forget (m := .start) rfl (properTokens_content h)) with
    ⟨m, m', ht, hu, hm⟩ | ⟨k, k', ht, hu, hk⟩
  · rw [ht, hu]
    rcases bimap_eq_cases (Reader.finish_forget hm (eofToken file ts) (eofToken file' us)) with
      ⟨fs, gs, hf, hg, he⟩ | ⟨e, e', hf, hg, he⟩
    · simp only [hf, hg, bimap, Node.relocate, Node.relocateAll_eq_map, List.map_reverse, he]
      rfl
    · simp only [hf, hg, bimap, he]
  · rw [ht, hu]
    exact congrArg Except.error (congrArg Reader.Halt.refusal hk)

/-- **Reading token lists of one content** comes to the same tree or to the same failure, up to places. -/
theorem ofTokens_forget {ts us : List Token} (h : ts.map Token.content = us.map Token.content)
    (file file' : String) (lines lines' : List String) :
    bimap Failure.unplaced (Node.relocate .forget) (RawNode.ofTokens file lines ts) =
      bimap Failure.unplaced (Node.relocate .forget) (RawNode.ofTokens file' lines' us) := by
  simp only [RawNode.ofTokens]
  rcases bimap_eq_cases (readTokens_forget h file file') with ⟨n, m, ht, hu, hn⟩ | ⟨k, k', ht, hu, hk⟩
  · rw [ht, hu]
    exact congrArg Except.ok hn
  · rw [ht, hu]
    refine congrArg Except.error ?_
    rw [Failure.unplaced_failure .forget lines, hk, ← Failure.unplaced_failure .forget lines']

/-! ## Values that fit -/

/-- A token whose value fits its type as far as trees hold values: a name is text and a literal a number. -/
structure Token.Fits (t : Token) : Prop where
  name : t.type = .identifier → ∃ s, t.value = .text s
  literal : t.type = .number → ∃ n, t.value = .number n

/-- Whether values fit is decided by the contents of tokens. -/
theorem fits_of_content {ts us : List Token} (h : ts.map Token.content = us.map Token.content)
    (ht : ∀ t ∈ ts, t.Fits) : ∀ u ∈ us, u.Fits := by
  intro u hu
  have hm : u.content ∈ ts.map Token.content := h ▸ List.mem_map_of_mem hu
  obtain ⟨t, htm, hc⟩ := List.mem_map.1 hm
  obtain ⟨type, value, loc⟩ := u
  obtain ⟨hty, hv⟩ := Prod.mk.inj hc
  exact ⟨fun e => hv ▸ (ht t htm).name (hty.trans e), fun e => hv ▸ (ht t htm).literal (hty.trans e)⟩

/-- The values of the tokens of a source fit. -/
theorem Token.IsScanned.fits {t : Token} (h : t.IsScanned) : t.Fits where
  name ht := by
    obtain ⟨s, hv, -⟩ := h.name ht
    exact ⟨s, hv⟩
  literal ht := by
    obtain ⟨n, hv, -⟩ := h.literal ht
    exact ⟨n, hv⟩

/-- A tree with its names and literals as tokens carry them. -/
def RawNode.ofTree (n : Tree) : RawNode := n.map Value.text Value.number

theorem ofTree_tree_of_leaf? {t : Token} (h : t.Fits) {n : RawNode} (hn : t.leaf? = some n) :
    RawNode.ofTree n.tree = n := by
  unfold Token.leaf? at hn
  split at hn
  · next ht =>
    cases hn
    obtain ⟨k, hv⟩ := h.literal ht
    rw [hv]
    rfl
  · next ht =>
    cases hn
    obtain ⟨s, hv⟩ := h.name ht
    rw [hv]
    rfl
  · cases hn

theorem ofTree_tree_of_leaves {v : RawNode} (h : v.IsExpression)
    (hl : ∀ n ∈ v.leaves, RawNode.ofTree (RawNode.tree n) = n) : RawNode.ofTree v.tree = v := by
  induction h with
  | number => exact hl _ (List.mem_singleton.2 rfl)
  | call => exact hl _ (List.mem_singleton.2 rfl)
  | @binary loc op left right _ _ ihl ihr =>
    rw [Node.leaves_binary, List.forall_mem_append] at hl
    exact congrArg₂ (Node.binary loc (some op)) (ihl hl.1) (ihr hl.2)

theorem ofTree_tree_of_makesStatement {ts : List Token} {n : RawNode} (h : MakesStatement Stacks.IsValue ts n)
    (hs : ∀ t ∈ ts, t.Fits) : RawNode.ofTree n.tree = n := by
  obtain @⟨r, e, us, v, -, hv, -⟩ := h
  refine congrArg (Node.ret r.location) ?_
  rcases hv.isExpression with rfl | hx
  · rfl
  · refine ofTree_tree_of_leaves hx fun n hn => ?_
    rw [hv.conserves.leaves, List.mem_filterMap] at hn
    obtain ⟨t, ht, hn⟩ := hn
    exact ofTree_tree_of_leaf? (hs t (by simp [ht])) hn

theorem ofTree_tree_of_makesFunction {ts : List Token} {n : RawNode} (h : MakesFunction Stacks.IsValue ts n)
    (hs : ∀ t ∈ ts, t.Fits) : RawNode.ofTree n.tree = n := by
  obtain @⟨_, _, tss, body, e, @⟨t, n, l, r, b, type, -, -, hn, -, -, -⟩, hb, -⟩ := h
  obtain ⟨s, hv⟩ := (hs n (by simp)).name hn
  simp only [RawNode.ofTree, RawNode.tree, Node.map, Node.mapAll_eq_map, hv, Value.spelling, List.map_map]
  congr 1
  refine (List.map_congr_left (g := id) fun k hk => ?_).trans (List.map_id body)
  obtain ⟨us, hu, hk⟩ := exists_mem_of_forall₂ hb hk
  refine ofTree_tree_of_makesStatement hk fun t ht => hs t ?_
  have : t ∈ tss.flatten := List.mem_flatten.2 ⟨us, hu, ht⟩
  simp [this]

/-- **The tree that the compiler works on** has all that was read, if the values of the tokens fit. -/
theorem ofTree_tree_of_makes {file : String} {ts : List Token} {n : RawNode} (h : Makes Stacks.IsValue file ts n)
    (hs : ∀ t ∈ ts, t.Fits) : RawNode.ofTree n.tree = n := by
  obtain @⟨tss, fs, hf⟩ := h
  simp only [RawNode.ofTree, RawNode.tree, Node.map, Node.mapAll_eq_map, List.map_map]
  congr 1
  refine (List.map_congr_left (g := id) fun k hk => ?_).trans (List.map_id fs)
  obtain ⟨us, hu, hk⟩ := exists_mem_of_forall₂ hf hk
  exact ofTree_tree_of_makesFunction hk fun t ht => hs t (List.mem_flatten.2 ⟨us, hu, ht⟩)

/-! ## What trees come to -/

theorem isReturn_of_makes {ts : List Token} {n : RawNode} (h : MakesStatement Stacks.IsValue ts n) : n.IsReturn := by
  obtain @⟨r, e, us, v, -, hv, -⟩ := h
  rcases hv.isExpression with rfl | hx
  · exact .nothing _
  · exact .value _ hx

theorem isFunction_of_makes {ts : List Token} {n : RawNode} (h : MakesFunction Stacks.IsValue ts n) :
    n.IsFunction := by
  obtain ⟨-, hb, -⟩ := h
  refine .intro _ _ _ fun s hs => ?_
  obtain ⟨us, -, hs⟩ := exists_mem_of_forall₂ hb hs
  exact isReturn_of_makes hs

/-- Tokens are read to a program. -/
theorem isProgram_of_makes {file : String} {ts : List Token} {n : RawNode} (h : Makes Stacks.IsValue file ts n) :
    n.IsProgram := by
  obtain ⟨hf⟩ := h
  refine .intro _ fun f hm => ?_
  obtain ⟨us, -, hm⟩ := exists_mem_of_forall₂ hf hm
  exact isFunction_of_makes hm

/-- **Programs that are equal but for their places** have the same outline and the same code, and are analysed alike. -/
theorem agree_of_forget {n m : RawNode} (hn : n.IsProgram) (h : n.relocate .forget = m.relocate .forget) :
    (∃ s, n.print = .ok s ∧ m.print = .ok s) ∧ (∃ a, generate n.tree = .ok a ∧ generate m.tree = .ok a) ∧
      (analyze n.tree).2.mapError Failure.unplaced = (analyze m.tree).2.mapError Failure.unplaced := by
  have ht : n.tree.relocate .forget = m.tree.relocate .forget := by
    rw [← RawNode.tree_relocate, h, RawNode.tree_relocate]
  refine ⟨⟨_, hn.print_eq, ?_⟩, ?_, ?_⟩
  · rw [← hn.print_eq, ← Node.print_relocate .forget m, ← h, Node.print_relocate]
  · obtain ⟨a, ha⟩ := exists_generate_iff.2 (hn.map Value.spelling Value.toInt)
    have hg := congrArg generate ht
    rw [generate_relocate, generate_relocate] at hg
    exact ⟨a, ha, mapError_eq_ok_iff.1 (hg.symm.trans (mapError_eq_ok_iff.2 ha))⟩
  · have ha := congrArg (fun k => (analyze k).2.mapError Failure.unplaced) ht
    simp only [analyze_relocate] at ha
    have hu : ∀ x : Except Failure Unit, (x.mapError (Failure.relocate .forget)).mapError Failure.unplaced =
        x.mapError Failure.unplaced := by
      intro x
      cases x <;> simp [Except.mapError]
    rwa [hu, hu] at ha

/-- **Layout and file names never influence the result.** Token lists that agree in types and values, whatever their
places, the name of the file and the lines to quote from, are refused for the same cause, or read to trees that agree
in everything but their places. If the values fit, these trees have the same outline and the same code, and analysis
accepts both or rejects both for the same cause. -/
theorem ofTokens_agree {ts us : List Token} (h : ts.map Token.content = us.map Token.content)
    (file file' : String) (lines lines' : List String) :
    (∃ n m, RawNode.ofTokens file lines ts = .ok n ∧ RawNode.ofTokens file' lines' us = .ok m ∧ n.same m = true ∧
      ((∀ t ∈ ts, t.Fits) → ∃ p q : Tree, n = .ofTree p ∧ m = .ofTree q ∧
        (∃ s, n.print = .ok s ∧ m.print = .ok s) ∧ (∃ a, generate p = .ok a ∧ generate q = .ok a) ∧
        (analyze p).2.mapError Failure.unplaced = (analyze q).2.mapError Failure.unplaced)) ∨
    ∃ e e', RawNode.ofTokens file lines ts = .error e ∧ RawNode.ofTokens file' lines' us = .error e' ∧
      e.unplaced = e'.unplaced := by
  rcases bimap_eq_cases (ofTokens_forget h file file' lines lines') with ⟨n, m, hn, hm, he⟩ | hf
  · refine .inl ⟨n, m, hn, hm, (Node.same_iff n m).2 he, fun ht => ?_⟩
    have hn := ofTokens_eq_ok_iff.1 hn
    have hm := ofTokens_eq_ok_iff.1 hm
    have hu := fits_of_content h ht
    exact ⟨RawNode.tree n, RawNode.tree m, (ofTree_tree_of_makes hn fun t h => ht t ((List.takeWhile_sublist _).mem h)).symm,
      (ofTree_tree_of_makes hm fun t h => hu t ((List.takeWhile_sublist _).mem h)).symm,
      agree_of_forget (isProgram_of_makes hn) he⟩
  · exact .inr hf

/-- A function on one line, without blanks where none are needed. -/
def closeSelfCall : String := "int f()\x7breturn 1-f();\x7d"

/-- The same function on several lines, with comments. -/
def wideSelfCall : String := "int f() // one less\r\n\x7b\n\n  return 1 - /* of f */ f();\n\x7d\n"

/-- The types and values of both. -/
def selfCallContent : List (TokenType × Value) :=
  [(.typeName .int, .text "int"), (.identifier, .text "f"), (.leftParen, .text "("), (.rightParen, .text ")"),
    (.leftBrace, .text "\x7b"), (.returnWord, .text "return"), (.number, .number 1),
    (.operator .subtract, .text "-"), (.identifier, .text "f"), (.leftParen, .text "("), (.rightParen, .text ")"),
    (.semicolon, .text ";"), (.rightBrace, .text "\x7d"), (.eof, .absent)]

theorem ofTokens_agree_selfCall : ∃ ts us n m, tokens closeSelfCall "a.c" = .ok ts ∧
    tokens wideSelfCall "b.c" = .ok us ∧ ts.map Token.content = us.map Token.content ∧ (∀ t ∈ ts, t.Fits) ∧
    RawNode.ofTokens "a.c" (quotedLines closeSelfCall) ts = .ok n ∧
    RawNode.ofTokens "b.c" (quotedLines wideSelfCall) us = .ok m ∧ n.same m = true ∧
    ∃ p q : Tree, n = .ofTree p ∧ m = .ofTree q ∧ (∃ s, n.print = .ok s ∧ m.print = .ok s) ∧
      (∃ a, generate p = .ok a ∧ generate q = .ok a) ∧
      (analyze p).2.mapError Failure.unplaced = (analyze q).2.mapError Failure.unplaced := by
  have content : ∀ source file, (tokens source file).map (List.map Token.content) = .ok selfCallContent →
      ∃ ts, tokens source file = .ok ts ∧ ts.map Token.content = selfCallContent := fun _ _ => map_eq_ok_iff.1
  obtain ⟨ts, hts, ht⟩ := content closeSelfCall "a.c" (by decide +kernel)
  obtain ⟨us, hus, hu⟩ := content wideSelfCall "b.c" (by decide +kernel)
  have hf : ∀ t ∈ ts, t.Fits := fun t h => (isScanned_of_tokens hts t h).fits
  have hc := ht.trans hu.symm
  rcases ofTokens_agree hc "a.c" "b.c" (quotedLines closeSelfCall) (quotedLines wideSelfCall) with
    ⟨n, m, hn, hm, hs, hr⟩ | ⟨e, e', he, -⟩
  · exact ⟨ts, us, n, m, hts, hus, hc, hf, hn, hm, hs, hr hf⟩
  · have ok : (Tree.ofSource closeSelfCall "a.c").map (fun _ => ()) = .ok () := by decide +kernel
    obtain ⟨k, hk, -⟩ := map_eq_ok_iff.1 ok
    obtain ⟨ts', raw, hts', hr, -⟩ := ofSource_eq_ok_iff.1 hk
    cases hts.symm.trans hts'
    cases he.symm.trans hr

end TinyArm
