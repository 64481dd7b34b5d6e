import TinyArm.Proofs.Accepted
import TinyArm.Proofs.Blocks

/-!
# Labels

The labels of an assembly as its lines show them: a line can define a label, export one, or call one. The text of a
compiled program links.

* `filterMap_definedLabel?_lines`, `filterMap_exportedLabel?_lines`: each block defines and exports its own label.
* `exists_block_of_split`: the block that a line stands in.
* `links_of_compileText`: **every label is defined and exported once, and every call goes to the function that it stands
  in or to one before it.**
-/

namespace TinyArm

/-! ## Lines with labels -/

/-- The label that a line defines. -/
def definedLabel? (line : List Char) : Option (List Char) :=
  if line.head? = some '_' ∧ line.getLast? = some ':' then some line.dropLast else none

/-- The label that a line exports. -/
def exportedLabel? (line : List Char) : Option (List Char) := line.dropPrefix? ".globl ".toList

/-- The label that a line calls. -/
def calledLabel? (line : List Char) : Option (List Char) := line.dropPrefix? "    bl ".toList

/-- **Lines that link**, for functions of the given names. A line stands in the block of function `i` if the labels of
the functions up to `i` are defined before it. -/
structure Links (names : List String) (lines : List (List Char)) : Prop where
  nodup : (lines.filterMap definedLabel?).Nodup
  defined : lines.filterMap definedLabel? = names.map fun n => (label n).toList
  exported : lines.filterMap exportedLabel? = names.map fun n => (label n).toList
  called : ∀ before line after x, lines = before ++ line :: after → calledLabel? line = some x →
    ∃ i j name, (before.filterMap definedLabel?).length = i + 1 ∧ j ≤ i ∧ names[j]? = some name ∧
      x = (label name).toList ∧ (lines.filterMap definedLabel?).count x = 1

theorem toList_label (name : String) : (label name).toList = '_' :: name.toList := by
  simp [label]

theorem label_injective {m n : String} (h : (label m).toList = (label n).toList) : m = n := by
  rw [toList_label, toList_label] at h
  exact String.toList_injective (List.cons.inj h).2

/-! ## Lines of instructions -/

/-- Only a call shows the label that it calls. -/
theorem exists_call_of_calledLabel? {i : Instruction} {x : List Char}
    (h : calledLabel? ("    " ++ i.text).toList = some x) : ∃ g, i = .call g ∧ x = (label g).toList := by
  cases i with
  | call g =>
    refine ⟨g, rfl, ?_⟩
    simpa [calledLabel?, Instruction.text, List.dropPrefix?, eq_comm] using h
  | combine op => cases op <;> simp [calledLabel?, Instruction.text, Operator.mnemonic, List.dropPrefix?] at h
  | _ => simp [calledLabel?, Instruction.text, List.dropPrefix?] at h

/-! ## Lines of blocks -/

/-- The characters of the lines of a block. -/
theorem map_toList_lines (b : Block) : b.lines.map String.toList =
    (".globl ".toList ++ (label b.name).toList) :: ((label b.name).toList ++ [':']) ::
      (b.code.map (fun i => ("    " ++ i.text).toList) ++ [[]]) := by
  simp only [Block.lines, List.map_append, List.map_cons, List.map_nil, List.cons_append, List.nil_append,
    List.map_map]
  rw [String.toList_append, String.toList_append]
  rfl

theorem definedLabel?_label (name : String) :
    definedLabel? ((label name).toList ++ [':']) = some (label name).toList := by
  have hl : ((label name).toList ++ [':']).getLast? = some ':' := List.getLast?_concat
  have hh : ((label name).toList ++ [':']).head? = some '_' := by rw [toList_label]; rfl
  rw [definedLabel?, if_pos ⟨hh, hl⟩, List.dropLast_concat]

/-- A line that is set in defines no label and exports none. -/
theorem labels_indented (s : String) :
    definedLabel? ("    " ++ s).toList = none ∧ exportedLabel? ("    " ++ s).toList = none := by
  constructor
  · simp [definedLabel?]
  · simp [exportedLabel?, List.dropPrefix?]

theorem filterMap_definedLabel?_lines (b : Block) :
    (b.lines.map String.toList).filterMap definedLabel? = [(label b.name).toList] := by
  have hg : definedLabel? (".globl ".toList ++ (label b.name).toList) = none := by simp [definedLabel?]
  have he : definedLabel? [] = none := by simp [definedLabel?]
  have hc : (b.code.map fun i => ("    " ++ i.text).toList).filterMap definedLabel? = [] := by
    rw [List.filterMap_map, List.filterMap_eq_nil_iff]
    exact fun i _ => (labels_indented i.text).1
  rw [map_toList_lines, List.filterMap_cons_none hg, List.filterMap_cons_some (definedLabel?_label _),
    List.filterMap_append, hc, List.nil_append, List.filterMap_cons_none he, List.filterMap_nil]

theorem filterMap_exportedLabel?_lines (b : Block) :
    (b.lines.map String.toList).filterMap exportedLabel? = [(label b.name).toList] := by
  have hg : exportedLabel? (".globl ".toList ++ (label b.name).toList) = some (label b.name).toList := by
    simp [exportedLabel?, List.dropPrefix?]
  have hl : exportedLabel? ((label b.name).toList ++ [':']) = none := by
    simp [exportedLabel?, toList_label, List.dropPrefix?]
  have he : exportedLabel? [] = none := by simp [exportedLabel?, List.dropPrefix?]
  have hc : (b.code.map fun i => ("    " ++ i.text).toList).filterMap exportedLabel? = [] := by
    rw [List.filterMap_map, List.filterMap_eq_nil_iff]
    exact fun i _ => (labels_indented i.text).2
  rw [map_toList_lines, List.filterMap_cons_some hg, List.filterMap_cons_none hl, List.filterMap_append, hc,
    List.nil_append, List.filterMap_cons_none he, List.filterMap_nil]

theorem calledLabel?_nil : calledLabel? [] = none := by
  simp [calledLabel?, List.dropPrefix?]

/-- The lines that a block starts with call nothing. -/
theorem calledLabel?_directives (name : String) : calledLabel? (".globl ".toList ++ (label name).toList) = none ∧
    calledLabel? ((label name).toList ++ [':']) = none := by
  constructor
  · simp [calledLabel?, List.dropPrefix?]
  · simp [calledLabel?, toList_label, List.dropPrefix?]

theorem exists_call_of_mem_lines {b : Block} {line x : List Char} (hl : line ∈ b.lines.map String.toList)
    (hx : calledLabel? line = some x) : ∃ g, .call g ∈ b.code ∧ x = (label g).toList := by
  obtain ⟨hglobl, hlabel⟩ := calledLabel?_directives b.name
  rw [map_toList_lines, List.mem_cons, List.mem_cons, List.mem_append, List.mem_map, List.mem_singleton] at hl
  rcases hl with rfl | rfl | ⟨i, hi, rfl⟩ | rfl
  · rw [hglobl] at hx
    cases hx
  · rw [hlabel] at hx
    cases hx
  · obtain ⟨g, rfl, rfl⟩ := exists_call_of_calledLabel? hx
    exact ⟨g, hi, rfl⟩
  · rw [calledLabel?_nil] at hx
    cases hx

/-- The label of a block comes before its calls. -/
theorem filterMap_definedLabel?_before {b : Block} {before after : List (List Char)} {line x : List Char}
    (h : b.lines.map String.toList = before ++ line :: after) (hx : calledLabel? line = some x) :
    before.filterMap definedLabel? = [(label b.name).toList] := by
  obtain ⟨hglobl, hlabel⟩ := calledLabel?_directives b.name
  have hd := filterMap_definedLabel?_lines b
  rw [h, List.filterMap_append, List.append_eq_singleton_iff] at hd
  rcases hd with ⟨he, -⟩ | ⟨he, -⟩
  · -- the first two lines call nothing, so the label is among the lines before
    rw [map_toList_lines] at h
    match before, h with
    | [], h =>
      rw [← (List.cons.inj h).1, hglobl] at hx
      cases hx
    | [_], h =>
      rw [← (List.cons.inj (List.cons.inj h).2).1, hlabel] at hx
      cases hx
    | _ :: l :: _, h =>
      have hl : (label b.name).toList ++ [':'] = l := (List.cons.inj (List.cons.inj h).2).1
      have hn := List.filterMap_eq_nil_iff.1 he l (List.mem_cons_of_mem _ List.mem_cons_self)
      rw [← hl, definedLabel?_label] at hn
      cases hn
  · exact he

/-- **The block that a line stands in.** -/
theorem exists_block_of_split {α β : Type} {f : β → List α} {bs : List β} {before after : List α} {x : α}
    (h : bs.flatMap f = before ++ x :: after) : ∃ i b l₁ l₂, bs[i]? = some b ∧ f b = l₁ ++ x :: l₂ ∧
      before = (bs.take i).flatMap f ++ l₁ := by
  induction bs generalizing before with
  | nil => simp at h
  | cons b bs ih =>
    rw [List.flatMap_cons, List.append_eq_append_iff] at h
    rcases h with ⟨l, rfl, h⟩ | ⟨l, hb, h⟩
    · obtain ⟨i, c, l₁, l₂, hi, hc, rfl⟩ := ih h
      exact ⟨i + 1, c, l₁, l₂, hi, hc, by simp⟩
    · cases l with
      | nil =>
        have h' : bs.flatMap f = [] ++ x :: after := h.symm
        obtain ⟨i, c, l₁, l₂, hi, hc, he⟩ := ih h'
        refine ⟨i + 1, c, l₁, l₂, hi, hc, ?_⟩
        rw [List.take_succ_cons, List.flatMap_cons, List.append_assoc, ← he, hb, List.append_nil, List.append_nil]
      | cons y l =>
        obtain ⟨rfl, -⟩ := List.cons.inj h
        exact ⟨0, b, before, l, rfl, hb, by simp⟩

/-! ## Whole assemblies -/

theorem filterMap_lines {d : List Char → Option (List Char)}
    (hd : ∀ b : Block, (b.lines.map String.toList).filterMap d = [(label b.name).toList]) (a : Assembly) :
    (a.flatMap fun b => b.lines.map String.toList).filterMap d =
      (a.map Block.name).map fun n => (label n).toList := by
  induction a with
  | nil => rfl
  | cons b a ih => rw [List.flatMap_cons, List.filterMap_append, hd, ih]; rfl

/-- The lines of the text of an accepted program are those of its blocks. -/
theorem Accepted.newlineLines_text {fs : List Tree} {a : Assembly} (h : Accepted fs a) :
    Text.newlineLines a.text.toList = (a.flatMap fun b => b.lines.map String.toList) ++ [[]] := by
  rw [newlineLines_text_of_blocks h.writable h.blocks, Assembly.lines, List.map_flatMap]

/-- What is not the last item of a list stands before it. -/
theorem exists_eq_append_of_concat {α : Type} {l before after : List α} {x y : α}
    (h : l ++ [y] = before ++ x :: after) (hx : x ≠ y) : ∃ after', l = before ++ x :: after' := by
  rcases List.eq_nil_or_concat after with rfl | ⟨after', z, rfl⟩
  · exact absurd (List.append_inj' h rfl).2 fun e => hx (List.cons.inj e).1.symm
  · rw [List.concat_eq_append, ← List.cons_append, ← List.append_assoc] at h
    exact ⟨after', (List.append_inj' h rfl).1⟩

/-- **Accepted programs link.** -/
theorem Accepted.links {fs : List Tree} {a : Assembly} (h : Accepted fs a) :
    Links (a.map Block.name) (Text.newlineLines a.text.toList) := by
  have hd := filterMap_lines filterMap_definedLabel?_lines
  have hlines := h.newlineLines_text
  have hdef : (Text.newlineLines a.text.toList).filterMap definedLabel? =
      (a.map Block.name).map fun n => (label n).toList := by
    rw [hlines, List.filterMap_append, hd]
    simp [definedLabel?]
  have hnodup : ((Text.newlineLines a.text.toList).filterMap definedLabel?).Nodup := by
    rw [hdef]
    exact h.nodup_names.map fun m n e => label_injective e
  refine ⟨hnodup, hdef, ?_, fun before line after x hsplit hx => ?_⟩
  · rw [hlines, List.filterMap_append, filterMap_lines filterMap_exportedLabel?_lines]
    simp [exportedLabel?, List.dropPrefix?]
  · -- the empty last line calls nothing, so the line stands in a block
    have hne : line ≠ [] := by
      rintro rfl
      rw [calledLabel?_nil] at hx
      cases hx
    obtain ⟨after, hsplit⟩ := exists_eq_append_of_concat (hlines.symm.trans hsplit) hne
    obtain ⟨i, b, l₁, l₂, hb, hl, rfl⟩ := exists_block_of_split hsplit
    have hbefore := filterMap_definedLabel?_before hl hx
    obtain ⟨g, hg, rfl⟩ := exists_call_of_mem_lines (hl ▸ List.mem_append_right _ List.mem_cons_self) hx
    obtain ⟨j, hj, hname⟩ := h.exists_le_of_mem_code hb hg
    refine ⟨i, j, g, ?_, hj, hname, rfl, ?_⟩
    · have hi : i < a.length := (List.getElem?_eq_some_iff.1 hb).1
      rw [List.filterMap_append, hd, hbefore]
      simp only [List.length_append, List.length_map, List.length_take, List.length_singleton]
      omega
    · refine List.count_eq_one_of_mem hnodup ?_
      rw [hdef]
      exact List.mem_map_of_mem (List.mem_of_getElem? hname)

/-- **The assembly of a source links**: each of its functions has a label of its own, which is exported, and calls only
itself and functions before it. -/
theorem links_of_compileText {source file text : String} (h : compileText source file = .ok text) :
    ∃ loc fs, Tree.ofSource source file = .ok (.program loc fs) ∧
      Links ((signatures fs).map Prod.fst) (Text.newlineLines text.toList) := by
  obtain ⟨c, hc, rfl⟩ : ∃ c, compile {} source file = .ok c ∧ c.assembly.text = text := by
    rw [compileText] at h
    cases hc : compile {} source file with
    | error f => rw [hc] at h; cases h
    | ok c => rw [hc] at h; exact ⟨c, rfl, Except.ok.inj h⟩
  obtain ⟨hn, loc, fs, e, ha⟩ := accepted_of_compile hc
  rw [e] at hn
  refine ⟨loc, fs, hn, ?_⟩
  rw [← ha.map_name]
  exact ha.links

/-- The assembly of two functions, the second of which calls the first and itself. -/
theorem links_differenceOfCalls :
    ∃ text, text = Text.unlines
      [".globl _g", "_g:", "    mov w0, 1", "    ret", "",
        ".globl _f", "_f:", "    stp x29, x30, [sp, #-16]!", "    bl _g", "    ldp x29, x30, [sp], #16",
        "    mov w1, w0", "    mov w0, 2", "    sub w0, w0, w1", "    ret",
        "    stp x29, x30, [sp, #-16]!", "    bl _f", "    ldp x29, x30, [sp], #16", "    ret", ""] ∧
      compileText differenceOfCalls "t.c" = .ok text ∧
      ∃ loc fs, Tree.ofSource differenceOfCalls "t.c" = .ok (.program loc fs) ∧
        Links ((signatures fs).map Prod.fst) (Text.newlineLines text.toList) := by
  refine ⟨_, rfl, ?compiled, links_of_compileText ?compiled⟩
  decide +kernel

end TinyArm
