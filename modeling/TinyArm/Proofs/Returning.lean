import TinyArm.Proofs.Accepted
import TinyArm.Proofs.Machine

/-!
# Calls return

A call goes to the function itself or to one before it, and only the first `return` of a function runs. So a function
comes back if no function that calls itself there can be reached from it: the calls lead strictly back in the source.

* `Node.callGraph`: the functions of a program with what their first `return` calls.
* `Accepted.returns`: induction on the place of a function in the source.
* `returns_of_compile`: **a function of a compiled source comes back to its caller**, with the stack as it was.
-/

namespace TinyArm

/-! ## The calls of a program -/

namespace Node

/-- The function that a call calls. -/
def callee? : Tree → Option String
  | call _ g => some g
  | _ => none

/-- The functions that the first `return` of a function calls. -/
def firstCallees (f : Tree) : List String := ((f.items.find? isReturn).elim [] leaves).filterMap callee?

/-- The functions of a program, each with those that its first `return` calls. -/
def callGraph (t : Tree) : List (String × List String) :=
  t.functions.filterMap fun f => f.signature?.map fun s => (s.1, f.firstCallees)

/-- Calls from the first `return` of one function to another. -/
def Calls (t : Tree) (f g : String) : Prop := ∃ gs, (f, gs) ∈ t.callGraph ∧ g ∈ gs

end Node

/-- A call in the value that a function returns first. -/
theorem calls_of_head? {loc : Location} {fs : List Tree} {f : Tree} {b : Block} (hf : f ∈ fs)
    (hb : functionBlock f = .ok b) {l k : Location} {v : Tree} {g : String} (hs : f.items.head? = some (.ret l v))
    (hg : .call k g ∈ v.leaves) : Node.Calls (.program loc fs) b.name g := by
  obtain ⟨m, type, body, code, rfl, -, -⟩ := functionBlock_eq_ok_iff.1 hb
  refine ⟨Node.firstCallees (.function m b.name type body), List.mem_filterMap.2 ⟨_, hf, rfl⟩, ?_⟩
  obtain ⟨rest, hbody⟩ : ∃ rest, body = .ret l v :: rest := by
    cases body with
    | nil => cases hs
    | cons s rest =>
      cases hs
      exact ⟨rest, rfl⟩
  rw [Node.firstCallees, List.mem_filterMap]
  refine ⟨.call k g, ?_, rfl⟩
  rw [Node.items, hbody, List.find?_cons_of_pos rfl, Option.elim_some, Node.leaves_ret]
  exact hg

/-- The call graph has the functions of the program, in order. -/
theorem map_fst_callGraph (loc : Location) (fs : List Tree) :
    (Node.callGraph (.program loc fs)).map Prod.fst = (signatures fs).map Prod.fst := by
  rw [Node.callGraph, signatures, Node.functions, List.map_filterMap, List.map_filterMap]
  simp only [Option.map_map]
  rfl

/-! ## Functions that return -/

namespace Accepted

variable {loc : Location} {fs : List Tree} {a : Assembly}

/-- Unless a function calls itself in its first `return`, what it calls there comes before it. -/
theorem exists_lt_of_first_call (h : Accepted fs a) {i : Nat} {f : Tree} {b : Block} (hb : a[i]? = some b)
    (hf : fs[i]? = some f) (hfb : functionBlock f = .ok b) {l k : Location} {v : Tree} {g : String}
    (hs : f.items.head? = some (.ret l v)) (hg : .call k g ∈ v.leaves)
    (hself : ¬Node.Calls (.program loc fs) b.name b.name) :
    Node.Calls (.program loc fs) b.name g ∧ ∃ j < i, ∃ b', a[j]? = some b' ∧ b'.name = g := by
  have hcalls : Node.Calls (.program loc fs) b.name g := calls_of_head? (List.mem_of_getElem? hf) hfb hs hg
  obtain ⟨j, hj, hname⟩ := h.exists_le_of_call hf (List.mem_of_head? hs) hg
  rw [List.getElem?_map, Option.map_eq_some_iff] at hname
  obtain ⟨b', hb', rfl⟩ := hname
  have hne : j ≠ i := by
    rintro rfl
    rw [hb] at hb'
    cases hb'
    exact hself hcalls
  exact ⟨hcalls, j, by omega, b', hb', rfl⟩

/-- **A function comes back** if no function that calls itself can be reached from it. -/
theorem returns (h : Accepted fs a) {i : Nat} {b : Block} (hb : a[i]? = some b)
    (hr : ∀ g, Relation.ReflTransGen (Node.Calls (.program loc fs)) b.name g →
      ¬Node.Calls (.program loc fs) g g) : Returns a b.name := by
  induction i using Nat.strong_induction_on generalizing b with
  | _ i ih =>
    obtain ⟨f, hf, hfb⟩ := h.exists_function hb
    obtain ⟨c, rest, hcode, hc⟩ := exists_code_of_functionBlock hfb
    have hpass : Passes a c := by
      rcases hc with ⟨-, rfl⟩ | ⟨l, v, hs, hv⟩
      · exact passes_nil
      · cases hv with
        | absent => exact passes_nil
        | expression hv =>
          refine hv.passes fun g hg => ?_
          obtain ⟨k, hk⟩ := hv.exists_call_mem hg
          obtain ⟨hcalls, j, hj, b', hb', rfl⟩ := h.exists_lt_of_first_call hb hf hfb hs hk (hr _ .refl)
          exact ih j hj hb' fun g' hg' => hr g' (.head hcalls hg')
    -- after that code stands the return instruction
    obtain ⟨p, hp, hstands⟩ := Assembly.exists_entryPoint? h.nodup_names (List.mem_of_getElem? hb)
    refine ⟨p, hp, fun fs m hm => ?_⟩
    rw [hcode, ← hm] at hstands
    obtain ⟨m', hrun, hpc, hlink, hk⟩ := hpass b.name fs m hstands.left
    have hret : a.Stands b.name m'.pc (.ret :: rest) := by
      rw [hpc]
      exact hstands.right
    exact ⟨{ m' with pc := m'.link }, hrun.tail (hret.advances rfl fs), hlink, hk.sp, hk.frame, hk.memory⟩

end Accepted

/-- **A function of a compiled source comes back to its caller**, with the stack as it was, and no step leaves the block
of a function but by a call or a return, unless a function that calls itself can be reached from it. -/
theorem returns_of_compile {options : Options} {source file : String} {c : Compiled}
    (h : compile options source file = .ok c) {f : String} (hf : f ∈ c.tree.callGraph.map Prod.fst)
    (hr : ∀ g, Relation.ReflTransGen c.tree.Calls f g → ¬c.tree.Calls g g) :
    ∃ p, c.assembly.entryPoint? f = some p ∧ ∀ m : Machine, m.pc = p →
      ∃ m', Relation.ReflTransGen (Advances c.assembly) ([f], m) ([], m') ∧ m'.pc = m.link ∧ m'.sp = m.sp ∧
        m'.frame = m.frame ∧ ∀ q, m.sp ≤ q → m'.memory q = m.memory q := by
  obtain ⟨-, loc, fs, e, ha⟩ := accepted_of_compile h
  rw [e] at hf hr
  rw [map_fst_callGraph, ← ha.map_name] at hf
  obtain ⟨b, hb, rfl⟩ := List.mem_map.1 hf
  obtain ⟨i, hi⟩ := List.getElem?_of_mem hb
  obtain ⟨p, hp, hret⟩ := ha.returns hi hr
  refine ⟨p, hp, fun m hm => ?_⟩
  obtain ⟨m', hrun, hpc, hk⟩ := hret [] m hm
  exact ⟨m', hrun, hpc, hk.sp, hk.frame, hk.memory⟩

/-- The second function would call itself in its second `return` only. -/
theorem returns_differenceOfCalls : ∃ c, compile {} differenceOfCalls "t.c" = .ok c ∧
    "f" ∈ c.tree.callGraph.map Prod.fst ∧
    (∀ g, Relation.ReflTransGen c.tree.Calls "f" g → ¬c.tree.Calls g g) ∧
    ∃ p, c.assembly.entryPoint? "f" = some p ∧ ∀ m : Machine, m.pc = p →
      ∃ m', Relation.ReflTransGen (Advances c.assembly) (["f"], m) ([], m') ∧ m'.pc = m.link ∧ m'.sp = m.sp ∧
        m'.frame = m.frame ∧ ∀ q, m.sp ≤ q → m'.memory q = m.memory q := by
  have hgraph : (compile {} differenceOfCalls "t.c").map (fun c => c.tree.callGraph) =
      .ok [("g", []), ("f", ["g"])] := by
    decide +kernel
  cases hc : compile {} differenceOfCalls "t.c" with
  | error e =>
    rw [hc] at hgraph
    cases hgraph
  | ok c =>
    rw [hc] at hgraph
    have hg : c.tree.callGraph = [("g", []), ("f", ["g"])] := Except.ok.inj hgraph
    have hf : "f" ∈ c.tree.callGraph.map Prod.fst := by
      rw [hg]
      decide
    have hr : ∀ g, Relation.ReflTransGen c.tree.Calls "f" g → ¬c.tree.Calls g g := by
      rintro g - ⟨gs, hgs, hself⟩
      rw [hg, List.mem_cons, List.mem_singleton] at hgs
      rcases hgs with hgs | hgs
      · cases hgs
        cases hself
      · cases hgs
        revert hself
        decide
    exact ⟨c, rfl, hf, hr, returns_of_compile hc hf hr⟩

end TinyArm
