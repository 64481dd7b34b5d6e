import TinyArm.Proofs.Acceptance
import TinyArm.Proofs.Printing
import TinyArm.Proofs.RoundTrip
import TinyArm.Proofs.SourceTrees

/-!
# Programs from their outlines

The outline of a program tells the program. The text of an expression is a source of it with parentheses around every
operation, so reading the text gives the expression back. The lines of `return`s stand deeper than those of functions,
so the bodies are found again between the functions.

* `exists_tokens_expressionText`: the text of an expression is read to the expression.
* `same_of_expressionText`: **the text of an expression tells the expression.**
* `sameAll_of_outline_body`, `sameAll_of_outline`: the lines of a program tell its bodies and its functions.
* `newline_not_mem_outline`: an outline has the lines that it was put together from.
* `print_eq_iff_same`: **programs have the same outline exactly if they agree in everything but their places.**
-/

namespace TinyArm

/-! ## Expressions -/

/-- **The text of an expression is read to the expression.** -/
theorem exists_tokens_expressionText {e : Tree} (h : Writable e) : ∃ ts t v,
    tokens e.expressionText "" = .ok (ts ++ [t]) ∧ Stacks.IsValue ts v ∧ v.tree.same e = true := by
  have hs : Spaced (expressionLexemes e) := by
    simpa using spaced_expression h [] .nil nofun
  obtain ⟨ts, t, ht, hspells, -, -⟩ :=
    exists_tokens_textOf hs (readable_expression h) (toList_expressionText h) ""
  obtain ⟨v, hv, hsame⟩ := exists_denotes_of_spells h ts hspells
  exact ⟨ts, t, v, ht, isValue_of_grammar (.inr (.sum (.product hv))), hsame⟩

/-- **The text of an expression tells the expression**, since reading is determined. -/
theorem same_of_expressionText {e e' : Tree} (h : Writable e) (h' : Writable e')
    (ht : e.expressionText = e'.expressionText) : e.same e' = true := by
  obtain ⟨ts, t, v, hts, hv, hsame⟩ := exists_tokens_expressionText h
  obtain ⟨ts', t', v', hts', hv', hsame'⟩ := exists_tokens_expressionText h'
  rw [ht, hts'] at hts
  obtain ⟨rfl, -⟩ := List.append_inj' (Except.ok.inj hts) rfl
  obtain rfl := hv.unique hv'
  rw [Node.same_iff] at hsame hsame' ⊢
  exact hsame.symm.trans hsame'

/-! ## Lines of outlines -/

theorem indented_injective (d : Nat) : Function.Injective (Node.indented d) := by
  intro s t h
  exact (String.append_right_inj _).1 h

theorem Writable.outline_ret {e : Tree} (h : Writable e) (loc : Location) (d : Nat) :
    Node.outline d (.ret loc e) = [Node.indented d ("Return " ++ e.expressionText)] :=
  Node.outline.eq_4 d loc e h.ne_absent

/-- The line of a `return`. -/
theorem WritableReturn.exists_outline {s : Tree} (h : WritableReturn s) (d : Nat) :
    ∃ rest, Node.outline d s = [Node.indented d ("Return" ++ rest)] := by
  cases h with
  | nothing => exact ⟨"", rfl⟩
  | @value loc e he =>
    refine ⟨" " ++ e.expressionText, ?_⟩
    rw [he.outline_ret, ← String.append_assoc]
    rfl

/-- The line of a `return` tells the `return`. -/
theorem same_of_outline_return {s t : Tree} (hs : WritableReturn s) (ht : WritableReturn t) {d : Nat}
    (h : Node.outline d s = Node.outline d t) : s.same t = true := by
  have hne : ∀ e : Tree, "Return" ≠ "Return " ++ e.expressionText := by
    intro e he
    simpa using congrArg String.toList he
  cases hs with
  | nothing =>
    cases ht with
    | nothing => rfl
    | value _ he =>
      rw [he.outline_ret] at h
      exact absurd (indented_injective d (List.cons.inj h).1) (hne _)
  | value _ he =>
    rw [he.outline_ret] at h
    cases ht with
    | nothing => exact absurd (indented_injective d (List.cons.inj h).1).symm (hne _)
    | value _ he' =>
      rw [he'.outline_ret] at h
      have htext := (String.append_right_inj _).1 (indented_injective d (List.cons.inj h).1)
      rw [Node.same]
      exact same_of_expressionText he he' htext

/-- The line of a function. -/
def headline (type : DataType) (name : String) : String :=
  Node.indented 1 ("Function: " ++ type.keyword ++ " " ++ name ++ "()")

theorem outline_function (loc : Location) (name : String) (type : DataType) (body : List Tree) :
    Node.outline 1 (.function loc name type body : Tree) = headline type name :: body.flatMap (Node.outline 2) := by
  rw [Node.outline, Node.outlineAll_eq_flatMap]
  rfl

theorem headline_inj {type type' : DataType} {name name' : String} (h : headline type name = headline type' name') :
    type = type' ∧ name = name' := by
  have h := congrArg String.toList (indented_injective 1 h)
  cases type <;> cases type' <;> simp [DataType.keyword, String.toList_inj] at h
  all_goals exact ⟨rfl, h⟩

theorem headline_ne_return (type : DataType) (name rest : String) :
    headline type name ≠ Node.indented 2 ("Return" ++ rest) := by
  -- the third character is a letter on one side and a blank on the other
  intro h
  have h := congrArg String.toList h
  simp [headline, Node.indented, List.replicate] at h

/-! ## Bodies and functions -/

/-- Lines that come after a body: there are none, or they go on with a function. -/
def AfterBody (ls : List String) : Prop := ∀ l ∈ ls.head?, ∃ type name, l = headline type name

theorem AfterBody.not_outline {ls : List String} (h : AfterBody ls) {s : Tree} (hs : WritableReturn s)
    (rest : List String) : ls ≠ Node.outline 2 s ++ rest := by
  rintro rfl
  obtain ⟨r, hr⟩ := hs.exists_outline 2
  obtain ⟨type, name, hl⟩ := h _ (by rw [hr]; rfl)
  exact headline_ne_return type name r hl.symm

theorem afterBody_functions {fs : List Tree} (h : ∀ f ∈ fs, WritableFunction f) :
    AfterBody (fs.flatMap (Node.outline 1)) := by
  cases fs with
  | nil => exact nofun
  | cons f fs =>
    obtain @⟨loc, type, name, body, -, -⟩ := h f List.mem_cons_self
    rw [List.flatMap_cons, outline_function]
    rintro l ⟨⟩
    exact ⟨type, name, rfl⟩

/-- **The lines of a body tell the body**, whatever functions come after it. -/
theorem sameAll_of_outline_body {b c : List Tree} (hb : ∀ s ∈ b, WritableReturn s) (hc : ∀ s ∈ c, WritableReturn s)
    {ls ms : List String} (hl : AfterBody ls) (hm : AfterBody ms)
    (h : b.flatMap (Node.outline 2) ++ ls = c.flatMap (Node.outline 2) ++ ms) :
    Node.sameAll b c = true ∧ ls = ms := by
  induction b generalizing c with
  | nil =>
    cases c with
    | nil => exact ⟨rfl, h⟩
    | cons t c =>
      rw [List.flatMap_cons, List.append_assoc] at h
      exact absurd h (hl.not_outline (hc t List.mem_cons_self) _)
  | cons s b ih =>
    obtain ⟨hs, hb⟩ := List.forall_mem_cons.1 hb
    rw [List.flatMap_cons, List.append_assoc] at h
    cases c with
    -- the other body has come to its end, and a function would have to begin with the line of `s`
    | nil => exact absurd h.symm (hm.not_outline hs _)
    | cons t c =>
      obtain ⟨ht, hc⟩ := List.forall_mem_cons.1 hc
      rw [List.flatMap_cons, List.append_assoc] at h
      have hlen : (Node.outline 2 s).length = (Node.outline 2 t).length := by
        obtain ⟨_, es⟩ := hs.exists_outline 2
        obtain ⟨_, et⟩ := ht.exists_outline 2
        rw [es, et]
        rfl
      obtain ⟨hline, h⟩ := List.append_inj h hlen
      obtain ⟨hsame, hrest⟩ := ih hb hc h
      exact ⟨by rw [Node.sameAll, same_of_outline_return hs ht hline, hsame]; rfl, hrest⟩

/-- **The lines of functions tell the functions.** -/
theorem sameAll_of_outline {fs gs : List Tree} (hf : ∀ f ∈ fs, WritableFunction f) (hg : ∀ g ∈ gs, WritableFunction g)
    (h : fs.flatMap (Node.outline 1) = gs.flatMap (Node.outline 1)) : Node.sameAll fs gs = true := by
  induction fs generalizing gs with
  | nil =>
    cases gs with
    | nil => rfl
    | cons g gs =>
      obtain ⟨loc, type, -, -⟩ := hg g List.mem_cons_self
      rw [List.flatMap_cons, outline_function] at h
      cases h
  | cons f fs ih =>
    cases gs with
    | nil =>
      obtain ⟨loc, type, -, -⟩ := hf f List.mem_cons_self
      rw [List.flatMap_cons, outline_function] at h
      cases h
    | cons g gs =>
      rw [List.forall_mem_cons] at hf hg
      obtain ⟨⟨loc, type, -, hb⟩, hfs⟩ := hf
      obtain ⟨⟨loc', type', -, hc⟩, hgs⟩ := hg
      rw [List.flatMap_cons, List.flatMap_cons, outline_function, outline_function] at h
      obtain ⟨hhead, hrest⟩ := List.cons.inj h
      obtain ⟨rfl, rfl⟩ := headline_inj hhead
      obtain ⟨hbody, hrest⟩ :=
        sameAll_of_outline_body hb hc (afterBody_functions hfs) (afterBody_functions hgs) hrest
      simp [Node.sameAll, Node.same, hbody, ih hfs hgs hrest]

/-! ## Outlines as texts -/

theorem newline_not_mem_expressionText {e : Tree} (h : Writable e) : '\n' ∉ e.expressionText.toList := by
  induction h with
  | @number loc n => simpa [Node.expressionText] using Text.newline_not_mem_repr n
  | @call loc name hn =>
    have hname : '\n' ∉ (toString name).toList := hn.newline_not_mem
    simp [Node.expressionText, hname]
  | binary loc op _ _ hl hr => cases op <;> simp [Node.expressionText, Node.operatorText, Operator.symbol, hl, hr]

theorem newline_not_mem_indented {d : Nat} {s : String} (h : '\n' ∉ s.toList) : '\n' ∉ (Node.indented d s).toList := by
  simp [Node.indented, h]

theorem newline_not_mem_outline_return {s : Tree} (h : WritableReturn s) {d : Nat} :
    ∀ l ∈ Node.outline d s, '\n' ∉ l.toList := by
  cases h with
  | nothing => exact List.forall_mem_singleton.2 (newline_not_mem_indented (by decide))
  | value loc he =>
    rw [he.outline_ret]
    exact List.forall_mem_singleton.2 (newline_not_mem_indented (by simp [newline_not_mem_expressionText he]))

/-- No line of an outline has a line feed in it. -/
theorem newline_not_mem_outline {loc : Location} {fs : List Tree} (h : ∀ f ∈ fs, WritableFunction f) :
    ∀ l ∈ Node.outline 0 (.program loc fs : Tree), '\n' ∉ l.toList := by
  rw [Node.outline, Node.outlineAll_eq_flatMap]
  refine List.forall_mem_cons.2 ⟨by decide, fun l hl => ?_⟩
  obtain ⟨f, hf, hl⟩ := List.mem_flatMap.1 hl
  obtain @⟨_, type, name, body, hn, hb⟩ := h f hf
  rw [outline_function, List.mem_cons] at hl
  rcases hl with rfl | hl
  · refine newline_not_mem_indented ?_
    cases type <;> simp [DataType.keyword, hn.newline_not_mem]
  · obtain ⟨s, hs, hl⟩ := List.mem_flatMap.1 hl
    exact newline_not_mem_outline_return (hb s hs) l hl

/-- A text tells the lines that it was put together from. -/
theorem intercalate_newline_inj {ls ms : List String} (hl : ls ≠ []) (hm : ms ≠ []) (hls : ∀ l ∈ ls, '\n' ∉ l.toList)
    (hms : ∀ l ∈ ms, '\n' ∉ l.toList) : "\n".intercalate ls = "\n".intercalate ms ↔ ls = ms := by
  have hp : ∀ ns : List String, ns ≠ [] → (∀ l ∈ ns, '\n' ∉ l.toList) →
      Text.pieces '\n' ("\n".intercalate ns).toList = ns.map String.toList := by
    intro ns hn h
    rw [String.toList_intercalate]
    exact Text.pieces_intercalate (by simpa using hn) (List.forall_mem_map.2 h)
  constructor
  · intro h
    have h := congrArg (fun s => Text.pieces '\n' s.toList) h
    simp only [hp ls hl hls, hp ms hm hms] at h
    exact List.map_injective_iff.2 (fun _ _ => String.toList_injective) h
  · rintro rfl
    rfl

/-! ## Programs -/

/-- **Programs have the same outline exactly if they agree in everything but their places.** -/
theorem print_eq_iff_same {source source' file file' : String} {p q : Tree} (hp : Tree.ofSource source file = .ok p)
    (hq : Tree.ofSource source' file' = .ok q) :
    ∃ x y, p.print = .ok x ∧ q.print = .ok y ∧ (x = y ↔ p.same q = true) := by
  refine ⟨_, _, (isProgram_of_ofSource hp).print_eq, (isProgram_of_ofSource hq).print_eq, ?_⟩
  obtain ⟨loc, fs, rfl, hf⟩ := writable_of_ofSource hp
  obtain ⟨loc', gs, rfl, hg⟩ := writable_of_ofSource hq
  have hne : ∀ (l : Location) (ns : List Tree), Node.outline 0 (.program l ns) ≠ [] := fun _ _ => List.cons_ne_nil _ _
  rw [intercalate_newline_inj (hne loc fs) (hne loc' gs) (newline_not_mem_outline hf) (newline_not_mem_outline hg)]
  constructor
  · intro h
    rw [Node.outline, Node.outline, Node.outlineAll_eq_flatMap, Node.outlineAll_eq_flatMap] at h
    exact sameAll_of_outline hf hg (List.cons.inj h).2
  · intro h
    have h := congrArg (Node.outline 0) ((Node.same_iff _ _).1 h)
    rwa [Node.outline_relocate, Node.outline_relocate] at h

/-- A program on one line. -/
def differenceOnOneLine : String := "int f() \x7b return 1 - 2 * f(); return; \x7d"

/-- The program on several lines, with a comment and more parentheses. -/
def differenceOnManyLines : String :=
  "int f()\n\x7b\n  // from right to left\n  return (1 - (2 * f()));\n  return;\n\x7d\n"

theorem print_differenceOnLines : ∃ p q, Tree.ofSource differenceOnOneLine "t.c" = .ok p ∧
    Tree.ofSource differenceOnManyLines "u.c" = .ok q ∧
    p.print = .ok "Program\n  Function: int f()\n    Return (1 - (2 * f()))\n    Return" ∧
    ∃ x y, p.print = .ok x ∧ q.print = .ok y ∧ (x = y ↔ p.same q = true) := by
  have hp : (Tree.ofSource differenceOnOneLine "t.c" >>= Node.print) = .ok
      "Program\n  Function: int f()\n    Return (1 - (2 * f()))\n    Return" := by
    decide +kernel
  have hq : (Tree.ofSource differenceOnManyLines "u.c").map (fun _ => ()) = .ok () := by
    decide +kernel
  obtain ⟨p, hp, hprint⟩ := bind_eq_ok_iff.1 hp
  obtain ⟨q, hq, -⟩ := map_eq_ok_iff.1 hq
  exact ⟨p, q, hp, hq, hprint, print_eq_iff_same hp hq⟩

end TinyArm
