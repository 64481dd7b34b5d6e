import TinyArm.Compilation
import TinyArm.Proofs.Encoding
import TinyArm.Proofs.SourceTrees
import TinyArm.Proofs.TypeRules

/-!
# Accepted programs

What is known of a program that is compiled: its functions can be written as a source, they obey the rules of typing,
and each has its block of code (`Accepted`).

* `accepted_of_compile`: **a compiled source is an accepted program.**
* `Accepted.map_name`: the blocks bear the names of the functions.
* `Accepted.exists_le_of_call`: a function calls only itself and functions before it.
-/

namespace TinyArm

/-- Functions that are accepted, with their blocks. -/
structure Accepted (fs : List Tree) (a : Assembly) : Prop where
  writable : ∀ f ∈ fs, WritableFunction f
  nodup : ((signatures fs).map Prod.fst).Nodup
  wellTyped : ∀ i f, fs[i]? = some f → WellTyped (signatures (fs.take (i + 1))) f
  blocks : List.Forall₂ (fun f b => functionBlock f = .ok b) fs a

/-- A source compiles if all stages come to a result. -/
theorem compile_eq_ok_iff {options : Options} {source file : String} {c : Compiled} :
    compile options source file = .ok c ↔ ∃ ts raw a, tokens source file = .ok ts ∧
      RawNode.ofTokens file (quotedLines source) ts = .ok raw ∧ (analyze raw.tree).2 = .ok () ∧
      generate raw.tree = .ok a ∧
      c = ⟨file, if options.keepTokens then ts else [], ts.length, raw.tree, a⟩ := by
  constructor
  · intro h
    obtain ⟨ts, hts, h⟩ := bind_eq_ok_iff.1 h
    obtain ⟨raw, hr, h⟩ := bind_eq_ok_iff.1 h
    obtain ⟨⟨⟩, ha, h⟩ := bind_eq_ok_iff.1 h
    obtain ⟨a, hg, h⟩ := bind_eq_ok_iff.1 h
    exact ⟨ts, raw, a, hts, hr, ha, hg, (Except.ok.inj h).symm⟩
  · rintro ⟨ts, raw, a, hts, hr, ha, hg, rfl⟩
    exact bind_eq_ok_iff.2 ⟨ts, hts, bind_eq_ok_iff.2 ⟨raw, hr, bind_eq_ok_iff.2 ⟨(), ha,
      bind_eq_ok_iff.2 ⟨a, hg, rfl⟩⟩⟩⟩

/-- **A compiled source is an accepted program.** -/
theorem accepted_of_compile {options : Options} {source file : String} {c : Compiled}
    (h : compile options source file = .ok c) :
    Tree.ofSource source file = .ok c.tree ∧ ∃ loc fs, c.tree = .program loc fs ∧ Accepted fs c.assembly := by
  obtain ⟨ts, raw, a, hts, hr, ha, hg, rfl⟩ := compile_eq_ok_iff.1 h
  have hn : Tree.ofSource source file = .ok raw.tree := ofSource_eq_ok_iff.2 ⟨ts, raw, hts, hr, rfl⟩
  obtain ⟨loc, fs, e, hw⟩ := writable_of_ofSource hn
  rw [e] at ha hg
  have h0 : (([] : List Signature).map Prod.fst).Nodup := List.nodup_nil
  obtain ⟨hd, ht⟩ := (checkFunctions_declaring_eq_ok_iff h0).1 ha
  exact ⟨hn, loc, fs, e, hw, hd, ht, functionBlocks_eq_ok_iff.1 hg⟩

/-- A source of two functions; the second calls the first, and then itself. -/
def differenceOfCalls : String := "int g() \x7b return 1; \x7d int f() \x7b return 2 - g(); return f(); \x7d"

/-- Blocks bear the names that their functions declare. -/
theorem map_name_of_forall₂ {fs : List Tree} {a : Assembly}
    (h : List.Forall₂ (fun f b => functionBlock f = .ok b) fs a) :
    a.map Block.name = (signatures fs).map Prod.fst := by
  induction h with
  | nil => rfl
  | cons hb _ ih =>
    obtain ⟨loc, type, body, code, rfl, -, -⟩ := functionBlock_eq_ok_iff.1 hb
    rw [List.map_cons, ih]
    rfl

/-- Every name that a typed value calls is declared. -/
theorem HasType.exists_mem_of_call {declared : List Signature} {e : Tree} {t : DataType} (h : HasType declared e t)
    {loc : Location} {g : String} (hg : .call loc g ∈ e.leaves) : ∃ u, (g, u) ∈ declared := by
  induction h with
  | number => simp at hg
  | absent => simp [Node.leaves] at hg
  | call l hm =>
    rw [Node.leaves_call, List.mem_singleton] at hg
    cases hg
    exact ⟨_, hm⟩
  | binary l op _ _ ihl ihr =>
    rw [Node.leaves_binary, List.mem_append] at hg
    exact hg.elim ihl ihr

namespace Accepted

variable {fs : List Tree} {a : Assembly}

theorem map_name (h : Accepted fs a) : a.map Block.name = (signatures fs).map Prod.fst :=
  map_name_of_forall₂ h.blocks

theorem nodup_names (h : Accepted fs a) : (a.map Block.name).Nodup := by
  rw [h.map_name]
  exact h.nodup

/-- Functions and blocks stand at the same places. -/
theorem exists_function (h : Accepted fs a) {i : Nat} {b : Block} (hb : a[i]? = some b) :
    ∃ f, fs[i]? = some f ∧ functionBlock f = .ok b := by
  obtain ⟨hl, hr⟩ := List.forall₂_iff_get.1 h.blocks
  obtain ⟨hi, rfl⟩ := List.getElem?_eq_some_iff.1 hb
  have hi' : i < fs.length := by omega
  exact ⟨fs[i], List.getElem?_eq_getElem hi', hr i hi' hi⟩

/-- **A function calls only itself and functions before it.** -/
theorem exists_le_of_call (h : Accepted fs a) {i : Nat} {f : Tree} (hf : fs[i]? = some f) {loc l : Location} {v : Tree}
    {g : String} (hs : .ret loc v ∈ f.items) (hg : .call l g ∈ v.leaves) :
    ∃ j ≤ i, (a.map Block.name)[j]? = some g := by
  have hw := h.wellTyped i f hf
  obtain @⟨l, name, type, body, hb⟩ := hw
  obtain ⟨-, ht⟩ := hb _ hs
  obtain ⟨u, hu⟩ := ht.exists_mem_of_call hg
  -- the declared names are those of the first blocks
  have hn := map_name_of_forall₂ (List.forall₂_take (i + 1) h.blocks)
  have hm : g ∈ (a.take (i + 1)).map Block.name := by
    rw [hn]
    exact List.mem_map_of_mem (f := Prod.fst) hu
  rw [List.map_take] at hm
  obtain ⟨j, hj, e⟩ := List.mem_take_iff_getElem.1 hm
  exact ⟨j, by omega, by rw [← e]; exact List.getElem?_eq_getElem _⟩

/-- What a block calls is a block up to itself. -/
theorem exists_le_of_mem_code (h : Accepted fs a) {i : Nat} {b : Block} (hb : a[i]? = some b) {g : String}
    (hg : .call g ∈ b.code) : ∃ j ≤ i, (a.map Block.name)[j]? = some g := by
  obtain ⟨f, hf, hfb⟩ := h.exists_function hb
  rcases eq_ret_or_of_mem_code hfb hg with hg | ⟨loc, v, c, hs, hv, hg⟩
  · cases hg
  · obtain ⟨l, hl⟩ := hv.exists_call_mem hg
    exact h.exists_le_of_call hf hs hl

end Accepted

end TinyArm
