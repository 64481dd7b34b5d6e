import TinyArm.Proofs.Declarations
import TinyArm.Proofs.Nodes

/-!
# What programs are rejected for

Analysis rejects a program at a part of it: a call, an operation, a `return` or a function. `RejectedFor` lists the
causes with these parts.

* `exists_of_typeOf_eq_error`: an expression is at fault in a call or in an operation.
* `Settles.rejectedFor`: functions that are not accepted are rejected for a part of one of them.
* `rejectedFor_of_analyze`: **what analysis rejects a program for.**
-/

namespace TinyArm

variable {κ : Type}

/-- **What functions are rejected for.** A `return` calls a name that is not declared, has an operation with operands of
different types, or is not of the type of its function; a function has the name of one before it. -/
inductive RejectedFor (fs : List (Node String κ)) : Failure → Prop where
  | undefined {l loc : Location} {v : Node String κ} {name : String} : .ret l v ∈ fs.flatMap Node.items →
      .call loc name ∈ v.leaves → RejectedFor fs (.report (.undefined name) loc)
  | mismatch {l loc : Location} {v : Node String κ} {op : Option Operator} {left right : Option DataType} :
      .ret l v ∈ fs.flatMap Node.items → (loc, op) ∈ v.operations →
      RejectedFor fs (.report (.mismatch left right) loc)
  | returnType {loc : Location} {v : Node String κ} {expected found : Option DataType} :
      .ret loc v ∈ fs.flatMap Node.items → RejectedFor fs (.report (.returnType expected found) loc)
  | duplicate {before after body : List (Node String κ)} {loc : Location} {name : String} {type : DataType} :
      fs = before ++ .function loc name type body :: after → name ∈ (signatures before).map Prod.fst →
      RejectedFor fs (.report (.duplicate name) loc)

variable {table : SymbolTable} {f : Failure} {fs : List (Node String κ)}

/-! ## Statements -/

/-- The parts of an expression are nodes of it, and expressions. -/
theorem Node.IsExpression.of_mem_postorder {e n : Node String κ} (he : e.IsExpression) (hn : n ∈ e.postorder) :
    n ∈ e.nodes ∧ n.IsExpression := by
  induction he with
  | number loc value =>
    obtain rfl := List.mem_singleton.1 hn
    exact ⟨List.mem_singleton_self _, .number loc value⟩
  | call loc name =>
    obtain rfl := List.mem_singleton.1 hn
    exact ⟨List.mem_singleton_self _, .call loc name⟩
  | @binary loc op left right hl hr ihl ihr =>
    rw [Node.nodes_binary]
    rw [Node.postorder, List.mem_append, List.mem_append, List.mem_singleton] at hn
    rcases hn with (hn | hn) | rfl
    · exact ⟨List.mem_cons_of_mem _ (List.mem_append_left _ (ihl hn).1), (ihl hn).2⟩
    · exact ⟨List.mem_cons_of_mem _ (List.mem_append_right _ (ihr hn).1), (ihr hn).2⟩
    · exact ⟨List.mem_cons_self, .binary loc op hl hr⟩

/-- An expression is at fault in a call or in an operation. -/
theorem exists_of_typeOf_eq_error {e : Node String κ} (he : e.IsExpression) (h : typeOf table e = .error f) :
    (∃ (loc : Location) (name : String), .call loc name ∈ e.leaves ∧ f = .report (.undefined name) loc) ∨
    ∃ (loc : Location) (op : Option Operator) (left right : Option DataType), (loc, op) ∈ e.operations ∧
      f = .report (.mismatch left right) loc := by
  obtain ⟨before, n, after, hp, -, hn⟩ := firstFails_of_typeOf h
  obtain ⟨hm, hx⟩ := he.of_mem_postorder (n := n) (by simp [hp])
  cases hn with
  | undefined => exact .inl ⟨_, _, List.mem_filter.2 ⟨hm, rfl⟩, rfl⟩
  | unsupported hu => cases hx <;> cases hu
  | mismatch => exact .inr ⟨_, _, _, _, List.mem_filterMap.2 ⟨_, hm, rfl⟩, rfl⟩

theorem rejectedFor_of_checkStatement {type : DataType} {s : Node String κ} (hs : s.IsReturn)
    (hm : s ∈ fs.flatMap Node.items) (h : checkStatement table type s = .error f) : RejectedFor fs f := by
  have hv : ∀ loc value, .ret loc value ∈ fs.flatMap Node.items →
      (∀ e, typeOf table value = .error e → RejectedFor fs e) →
      checkStatement table type (.ret loc value : Node String κ) = .error f → RejectedFor fs f := by
    intro loc value hm hv h
    rw [checkStatement] at h
    split at h
    · next he => cases h; exact hv _ he
    · split at h
      · cases h
      · cases h; exact .returnType hm
  cases hs with
  | nothing loc => exact hv loc .absent hm (fun _ he => by cases he) h
  | value loc hx =>
    refine hv loc _ hm (fun e he => ?_) h
    rcases exists_of_typeOf_eq_error hx he with ⟨l, name, hl, rfl⟩ | ⟨l, op, a, b, hl, rfl⟩
    · exact .undefined hm hl
    · exact .mismatch hm hl

theorem rejectedFor_of_checkBody {type : DataType} {body : List (Node String κ)} (hb : ∀ s ∈ body, s.IsReturn)
    (hm : ∀ s ∈ body, s ∈ fs.flatMap Node.items) (h : checkBody table type body = .error f) : RejectedFor fs f := by
  induction body with
  | nil => cases h
  | cons s rest ih =>
    rw [List.forall_mem_cons] at hb hm
    rw [checkBody] at h
    split at h
    · exact ih hb.2 hm.2 h
    · next hs => cases h; exact rejectedFor_of_checkStatement hb.1 hm.1 hs

/-! ## Functions -/

/-- Functions that are not accepted are rejected for a part of one of them. -/
theorem Settles.rejectedFor {r : Outcome SymbolTable} (h : Settles fs r) (hf : ∀ g ∈ fs, g.IsFunction)
    (hr : r.2 = .error f) : RejectedFor fs f := by
  cases h with
  | accepted => cases hr
  | @body before after body loc name type _ hfs _ _ hc _ =>
    cases hr
    have hm : .function loc name type body ∈ fs := hfs ▸ List.mem_append_right before List.mem_cons_self
    obtain @⟨_, _, _, _, hb⟩ := hf _ hm
    exact rejectedFor_of_checkBody hb (fun s hs => List.mem_flatMap.2 ⟨_, hm, hs⟩) hc
  | duplicate hfs _ _ hn =>
    cases hr
    exact .duplicate hfs hn
  | foreign hfs _ _ hn =>
    obtain ⟨⟩ := hf _ (hfs ▸ List.mem_append_right _ List.mem_cons_self)
    cases hn

/-- **What analysis rejects a program for.** -/
theorem rejectedFor_of_analyze {n : Node String κ} (hn : n.IsProgram) (h : (analyze n).2 = .error f) :
    RejectedFor n.functions f := by
  obtain ⟨loc, hf⟩ := hn
  exact (settles_checkFunctions _).rejectedFor hf h

end TinyArm
