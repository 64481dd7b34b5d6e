import TinyArm.Node.Printer
import TinyArm.Proofs.Relocation

/-!
# Outlines of trees

Printing looks at no location, and it fails only where an item is missing, which no tree of a program has.

* `print_relocate`: **the outline of a moved tree** is the outline of the tree.
* `IsProgram.print_eq`: **the tree of a program is printed**, whatever its names and literals are.
-/

namespace TinyArm.Node

variable {ν κ : Type}

/-! ## Moved trees -/

section Relocation

variable (g : Location → Location)

theorem expressionText_relocate [ToString ν] [ToString κ] (n : Node ν κ) :
    (n.relocate g).expressionText = n.expressionText := by
  induction n using induct with
  | binary loc op left right ihl ihr => simp only [relocate, expressionText, ihl, ihr]
  | bare loc kind => cases kind <;> rfl
  | _ => rfl

theorem outlineAll_eq_flatMap [ToString ν] [ToString κ] (d : Nat) (ns : List (Node ν κ)) :
    outlineAll d ns = ns.flatMap (outline d) := by
  induction ns with
  | nil => rfl
  | cons n ns ih => rw [outlineAll, ih, List.flatMap_cons]

theorem outlineAll_relocate [ToString ν] [ToString κ] {ns : List (Node ν κ)}
    (h : ∀ n ∈ ns, ∀ d, outline d (n.relocate g) = outline d n) (d : Nat) :
    outlineAll d (relocateAll g ns) = outlineAll d ns := by
  rw [relocateAll_eq_map, outlineAll_eq_flatMap, outlineAll_eq_flatMap, List.flatMap_map]
  exact List.flatMap_congr fun n hn => h n hn d

theorem outline_relocate [ToString ν] [ToString κ] (n : Node ν κ) : ∀ d, outline d (n.relocate g) = outline d n := by
  induction n using induct with
  | program loc fs ih => intro d; rw [relocate, outline, outline, outlineAll_relocate g ih]
  | function loc name type body ih => intro d; rw [relocate, outline, outline, outlineAll_relocate g ih]
  | ret loc value _ =>
    intro d
    by_cases hv : value = absent
    · subst hv; rfl
    · rw [relocate, outline.eq_4 _ _ _ hv, outline.eq_4 _ _ _ (mt (relocate_eq_absent_iff g).1 hv),
        expressionText_relocate]
  | binary loc op left right ihl ihr => intro d; rw [relocate, outline, outline, ihl, ihr]
  | _ => intro d; rfl

theorem walkAll_relocate {stop : Node ν κ → Bool} {ns : List (Node ν κ)}
    (h : ∀ n ∈ ns, ∀ d, (n.relocate g).walk stop d = (n.walk stop d).map (Prod.map id (relocate g))) (d : Nat) :
    walkAll stop d (relocateAll g ns) = (walkAll stop d ns).map (Prod.map id (relocate g)) := by
  induction ns with
  | nil => rfl
  | cons n ns ih =>
    rw [relocateAll, walkAll, walkAll, List.map_append, h n List.mem_cons_self,
      ih fun m hm => h m (List.mem_cons_of_mem _ hm)]

/-- A walk that does not ask where nodes stand meets the moved nodes of the tree. -/
theorem walk_relocate {stop : Node ν κ → Bool} (hs : ∀ n, stop (relocate g n) = stop n) (n : Node ν κ) :
    ∀ d, (n.relocate g).walk stop d = (n.walk stop d).map (Prod.map id (relocate g)) := by
  have stopped (m : Node ν κ) {k k' : List (Nat × Node ν κ)} (hk : k' = k.map (Prod.map id (relocate g))) :
      (if stop (relocate g m) then [] else k') = (if stop m then [] else k).map (Prod.map id (relocate g)) := by
    rw [hs, hk]
    split <;> rfl
  induction n using induct with
  | program loc fs ih =>
    intro d
    exact congrArg _ (stopped (program loc fs) (walkAll_relocate g ih (d + 1)))
  | function loc name type body ih =>
    intro d
    exact congrArg _ (stopped (function loc name type body) (walkAll_relocate g ih (d + 1)))
  | ret loc value ih =>
    intro d
    exact congrArg _ (stopped (ret loc value) (ih (d + 1)))
  | binary loc op left right ihl ihr =>
    intro d
    refine congrArg _ (stopped (binary loc op left right) ?_)
    rw [ihl, ihr, List.map_append]
  | _ => intro d; rfl

theorem hasHole_relocate (n : Node ν κ) : (n.relocate g).hasHole = n.hasHole := by
  have hi : ∀ m : Node ν κ, (m.relocate g).items.any isAbsent = m.items.any isAbsent := by
    intro m
    rw [items_relocate, List.any_map]
    congr 1
    funext k
    exact isAbsent_relocate g k
  simp only [hasHole, isAbsent_relocate, walk_relocate g (isReturn_relocate g), List.any_map, Function.comp_def,
    Prod.map_snd, hi]

/-- **The outline of a moved tree** is the outline of the tree. -/
theorem print_relocate [ToString ν] [ToString κ] (n : Node ν κ) : (n.relocate g).print = n.print := by
  rw [print, print, hasHole_relocate, outline_relocate]

end Relocation

/-! ## Trees of programs -/

theorem IsReturn.isAbsent {n : Node ν κ} (h : IsReturn n) : n.isAbsent = false := by
  cases h <;> rfl

theorem IsFunction.isAbsent {n : Node ν κ} (h : IsFunction n) : n.isAbsent = false := by
  cases h; rfl

theorem mem_walkAll {stop : Node ν κ → Bool} {d : Nat} {ns : List (Node ν κ)} {m : Nat × Node ν κ} :
    m ∈ walkAll stop d ns ↔ ∃ n ∈ ns, m ∈ n.walk stop d := by
  induction ns with
  | nil => simp [walkAll]
  | cons n ns ih => simp [walkAll, ih]

/-- A `return` is the only node that a walk down to the `return`s meets in it. -/
theorem IsReturn.walk_isReturn {n : Node ν κ} (h : IsReturn n) (d : Nat) : n.walk isReturn d = [(d, n)] := by
  cases h <;> simp [walk, isReturn]

theorem IsReturn.items {n : Node ν κ} (h : IsReturn n) : n.items = [] := by
  cases h <;> rfl

/-- No item of a program or of one of its functions is missing. -/
theorem IsProgram.hasHole {n : Node ν κ} (h : IsProgram n) : n.hasHole = false := by
  obtain ⟨loc, hf⟩ := h
  simp only [Node.hasHole, Node.isAbsent, Bool.false_or, List.any_eq_false]
  intro m hm
  rw [walk, List.mem_cons] at hm
  rcases hm with rfl | hm
  · simpa [Node.items] using fun f hm => (hf f hm).isAbsent
  · rw [if_neg (by simp [isReturn]), mem_walkAll] at hm
    obtain ⟨f, hm', hm⟩ := hm
    obtain ⟨l, name, type, hb⟩ := hf f hm'
    rw [walk, List.mem_cons] at hm
    rcases hm with rfl | hm
    · simpa [Node.items] using fun s hm => (hb s hm).isAbsent
    · rw [if_neg (by simp [isReturn]), mem_walkAll] at hm
      obtain ⟨s, hs, hm⟩ := hm
      rw [(hb s hs).walk_isReturn, List.mem_singleton] at hm
      subst hm
      simp [(hb s hs).items]

/-- **The tree of a program is printed**: its outline has no hole. -/
theorem IsProgram.print_eq [ToString ν] [ToString κ] {n : Node ν κ} (h : IsProgram n) :
    n.print = .ok ("\n".intercalate (outline 0 n)) := by
  rw [print, h.hasHole]
  rfl

end TinyArm.Node
