import Mathlib.Data.List.Basic
import TinyArm.Node.Walk

/-!
# The nodes of a tree

`Node.children` are the children of a node, and `Node.nodes` lists all nodes of a tree, each before its children and the
children in order; there is a rule for every form of tree. `leaves`, `operations`, `returns` and `heads` pick out the
nodes of one kind.

* `map_snd_walk_eq`: a walk goes on to the children of a node that it does not stop at.
* `IsExpression.length_leaves`: an expression has one leaf more than operations.
* `IsExpression.returns`, `IsExpression.heads`: it has nothing else.
-/

namespace TinyArm.Node

variable {ν κ : Type}

/-! ## Children -/

/-- The children of a node in the order of the source, the absent ones among them. -/
def children : Node ν κ → List (Node ν κ)
  | program _ fs => fs
  | function _ _ _ body => body
  | ret _ value => [value]
  | binary _ _ left right => [left, right]
  | _ => []

/-- Induction on trees by their children, whatever the form of the tree. -/
@[elab_as_elim]
theorem induct_children {motive : Node ν κ → Prop} (h : ∀ n, (∀ c ∈ n.children, motive c) → motive n)
    (n : Node ν κ) : motive n := by
  induction n using induct with
  | program loc fs ih => exact h _ ih
  | function loc name type body ih => exact h _ ih
  | ret loc value ih => exact h _ (by simpa [children] using ih)
  | binary loc op left right ihl ihr => exact h _ (by simpa [children] using ⟨ihl, ihr⟩)
  | _ => exact h _ (by simp [children])

/-! ## All nodes -/

/-- All nodes of a tree. -/
def nodes (n : Node ν κ) : List (Node ν κ) := n.preorder.map Prod.snd

theorem map_snd_walkAll {stop : Node ν κ → Bool} {ns : List (Node ν κ)}
    (h : ∀ n ∈ ns, ∀ d, (n.walk stop d).map Prod.snd = (n.walk stop 0).map Prod.snd) (d : Nat) :
    (walkAll stop d ns).map Prod.snd = ns.flatMap fun n => (n.walk stop 0).map Prod.snd := by
  induction ns with
  | nil => rfl
  | cons m ms ih =>
    simp only [walkAll, List.map_append, List.flatMap_cons, h m List.mem_cons_self d,
      ih fun k hk => h k (List.mem_cons_of_mem _ hk)]

/-- The depth that a walk starts at does not matter for the nodes it meets. -/
theorem map_snd_walk (stop : Node ν κ → Bool) (n : Node ν κ) :
    ∀ d, (n.walk stop d).map Prod.snd = (n.walk stop 0).map Prod.snd := by
  induction n using induct with
  | program loc fs ih => intro d; simp only [walk]; split <;> simp [map_snd_walkAll ih]
  | function loc name type body ih => intro d; simp only [walk]; split <;> simp [map_snd_walkAll ih]
  | ret loc value ih => intro d; simp only [walk]; split <;> simp [ih (d + 1), ih 1]
  | binary loc op left right ihl ihr =>
    intro d
    simp only [walk]
    split <;> simp [ihl (d + 1), ihl 1, ihr (d + 1), ihr 1]
  | _ => intro d; simp [walk]

/-- **A walk goes on to the children** of a node that it does not stop at. -/
theorem map_snd_walk_eq (stop : Node ν κ → Bool) {n : Node ν κ} (h : n ≠ absent) :
    (n.walk stop 0).map Prod.snd =
      n :: if stop n then [] else n.children.flatMap fun c => (c.walk stop 0).map Prod.snd := by
  cases n with
  | absent => exact absurd rfl h
  | program loc fs =>
    simp only [walk, children, List.map_cons, apply_ite (List.map Prod.snd), List.map_nil,
      map_snd_walkAll fun m _ => map_snd_walk stop m]
  | function loc name type body =>
    simp only [walk, children, List.map_cons, apply_ite (List.map Prod.snd), List.map_nil,
      map_snd_walkAll fun m _ => map_snd_walk stop m]
  | ret loc value =>
    simp only [walk, children, List.map_cons, apply_ite (List.map Prod.snd), List.map_nil, List.flatMap_singleton,
      map_snd_walk stop value 1]
  | binary loc op left right =>
    simp only [walk, children, List.map_cons, apply_ite (List.map Prod.snd), List.map_nil, List.map_append,
      List.flatMap_cons, List.flatMap_nil, List.append_nil, map_snd_walk stop left 1, map_snd_walk stop right 1]
  | _ => simp [walk, children]

/-- The nodes of a tree are its root and the nodes of its children. -/
theorem nodes_eq {n : Node ν κ} (h : n ≠ absent) : n.nodes = n :: n.children.flatMap nodes := map_snd_walk_eq _ h

@[simp] theorem nodes_absent : (absent : Node ν κ).nodes = [] := rfl

@[simp] theorem nodes_program (loc : Location) (fs : List (Node ν κ)) :
    (program loc fs).nodes = program loc fs :: fs.flatMap nodes :=
  nodes_eq nofun

@[simp] theorem nodes_function (loc : Location) (name : ν) (type : DataType) (body : List (Node ν κ)) :
    (function loc name type body).nodes = function loc name type body :: body.flatMap nodes :=
  nodes_eq nofun

@[simp] theorem nodes_ret (loc : Location) (value : Node ν κ) :
    (ret loc value).nodes = ret loc value :: value.nodes := by
  have h := nodes_eq (n := ret loc value) nofun
  rwa [children, List.flatMap_singleton] at h

@[simp] theorem nodes_number (loc : Location) (value : κ) :
    (number loc value : Node ν κ).nodes = [number loc value] := rfl

@[simp] theorem nodes_call (loc : Location) (name : ν) : (call loc name : Node ν κ).nodes = [call loc name] := rfl

@[simp] theorem nodes_binary (loc : Location) (op : Option Operator) (left right : Node ν κ) :
    (binary loc op left right).nodes = binary loc op left right :: (left.nodes ++ right.nodes) := by
  have h := nodes_eq (n := binary loc op left right) nofun
  rwa [children, List.flatMap_cons, List.flatMap_singleton] at h

theorem isAbsent_eq_false_iff {n : Node ν κ} : n.isAbsent = false ↔ n ≠ absent := by
  cases n <;> simp [isAbsent]

/-! ## Nodes of one kind -/

/-- Whether a node is a literal or a call. -/
def isLeaf : Node ν κ → Bool
  | number .. | call .. => true
  | _ => false

/-- The place and the operator of an operation. -/
def operation? : Node ν κ → Option (Location × Option Operator)
  | binary loc op _ _ => some (loc, op)
  | _ => none

/-- The place and the type of a function. -/
def head? : Node ν κ → Option (Location × DataType)
  | function loc _ type _ => some (loc, type)
  | _ => none

/-- The literals and calls of a tree, from left to right. -/
def leaves (n : Node ν κ) : List (Node ν κ) := n.nodes.filter isLeaf

/-- The operations of a tree. -/
def operations (n : Node ν κ) : List (Location × Option Operator) := n.nodes.filterMap operation?

/-- The `return`s of a tree, in order. -/
def returns (n : Node ν κ) : List (Node ν κ) := n.nodes.filter isReturn

/-- The places and types of the functions of a tree, in order. -/
def heads (n : Node ν κ) : List (Location × DataType) := n.nodes.filterMap head?

section Rules

@[simp] theorem leaves_number (loc : Location) (value : κ) :
    (number loc value : Node ν κ).leaves = [number loc value] := rfl

@[simp] theorem leaves_call (loc : Location) (name : ν) : (call loc name : Node ν κ).leaves = [call loc name] := rfl

@[simp] theorem leaves_binary (loc : Location) (op : Option Operator) (left right : Node ν κ) :
    (binary loc op left right).leaves = left.leaves ++ right.leaves := by
  simp [leaves, isLeaf]

@[simp] theorem leaves_ret (loc : Location) (value : Node ν κ) : (ret loc value).leaves = value.leaves := by
  simp [leaves, isLeaf]

@[simp] theorem operations_number (loc : Location) (value : κ) : (number loc value : Node ν κ).operations = [] := rfl

@[simp] theorem operations_call (loc : Location) (name : ν) : (call loc name : Node ν κ).operations = [] := rfl

@[simp] theorem operations_binary (loc : Location) (op : Option Operator) (left right : Node ν κ) :
    (binary loc op left right).operations = (loc, op) :: (left.operations ++ right.operations) := by
  simp [operations, operation?]

@[simp] theorem operations_ret (loc : Location) (value : Node ν κ) :
    (ret loc value).operations = value.operations := by
  simp [operations, operation?, List.filterMap_cons]

@[simp] theorem returns_ret (loc : Location) (value : Node ν κ) :
    (ret loc value).returns = ret loc value :: value.returns := by
  simp [returns, isReturn, List.filter_cons]

@[simp] theorem heads_ret (loc : Location) (value : Node ν κ) : (ret loc value).heads = value.heads := by
  simp [heads, head?, List.filterMap_cons]

variable (loc : Location) (name : ν) (type : DataType) (body fs : List (Node ν κ))

@[simp] theorem leaves_function : (function loc name type body).leaves = body.flatMap leaves := by
  simp only [leaves, nodes_function, List.filter_cons, isLeaf, Bool.false_eq_true, if_false, List.filter_flatMap]
  rfl

@[simp] theorem operations_function : (function loc name type body).operations = body.flatMap operations := by
  simp only [operations, nodes_function, List.filterMap_cons, operation?, List.filterMap_flatMap]
  rfl

@[simp] theorem returns_function : (function loc name type body).returns = body.flatMap returns := by
  simp only [returns, nodes_function, List.filter_cons, isReturn, Bool.false_eq_true, if_false, List.filter_flatMap]
  rfl

@[simp] theorem heads_function : (function loc name type body).heads = (loc, type) :: body.flatMap heads := by
  simp only [heads, nodes_function, List.filterMap_cons, head?, List.filterMap_flatMap]
  rfl

@[simp] theorem leaves_program : (program loc fs).leaves = fs.flatMap leaves := by
  simp only [leaves, nodes_program, List.filter_cons, isLeaf, Bool.false_eq_true, if_false, List.filter_flatMap]
  rfl

@[simp] theorem operations_program : (program loc fs).operations = fs.flatMap operations := by
  simp only [operations, nodes_program, List.filterMap_cons, operation?, List.filterMap_flatMap]
  rfl

@[simp] theorem returns_program : (program loc fs).returns = fs.flatMap returns := by
  simp only [returns, nodes_program, List.filter_cons, isReturn, Bool.false_eq_true, if_false, List.filter_flatMap]
  rfl

@[simp] theorem heads_program : (program loc fs).heads = fs.flatMap heads := by
  simp only [heads, nodes_program, List.filterMap_cons, head?, List.filterMap_flatMap]
  rfl

end Rules

/-! ## Leaves read anew -/

section Map

variable {ν' κ' : Type} (f : ν → ν') (g : κ → κ')

/-- Reading the leaves of a tree anew reads those of its nodes anew. -/
theorem nodes_map (n : Node ν κ) : (n.map f g).nodes = n.nodes.map (map f g) := by
  induction n using induct with
  | program loc fs ih =>
    simp only [map, mapAll_eq_map, nodes_program, List.flatMap_map, List.map_cons, List.map_flatMap]
    exact congrArg _ (List.flatMap_congr ih)
  | function loc name type body ih =>
    simp only [map, mapAll_eq_map, nodes_function, List.flatMap_map, List.map_cons, List.map_flatMap]
    exact congrArg _ (List.flatMap_congr ih)
  | ret loc value ih => simp only [map, nodes_ret, List.map_cons, ih]
  | binary loc op left right ihl ihr => simp only [map, nodes_binary, List.map_cons, List.map_append, ihl, ihr]
  | _ => rfl

@[simp] theorem leaves_map (n : Node ν κ) : (n.map f g).leaves = n.leaves.map (map f g) := by
  have h : isLeaf ∘ map f g = isLeaf := by
    funext m
    cases m <;> rfl
  rw [leaves, nodes_map, List.filter_map, h, leaves]

@[simp] theorem operations_map (n : Node ν κ) : (n.map f g).operations = n.operations := by
  have h : operation? ∘ map f g = operation? := by
    funext m
    cases m <;> rfl
  rw [operations, nodes_map, List.filterMap_map, h, operations]

@[simp] theorem items_map (n : Node ν κ) : (n.map f g).items = n.items.map (map f g) := by
  cases n <;> simp [map, items, mapAll_eq_map]

end Map

/-! ## Expressions -/

theorem IsExpression.ne_absent {n : Node ν κ} (h : IsExpression n) : n ≠ absent := by
  rintro rfl
  cases h

/-- An expression has one leaf more than operations. -/
theorem IsExpression.length_leaves {n : Node ν κ} (h : IsExpression n) :
    n.leaves.length = n.operations.length + 1 := by
  induction h with
  | number => rfl
  | call => rfl
  | binary loc op _ _ ihl ihr =>
    simp only [leaves_binary, operations_binary, List.length_append, List.length_cons]
    omega

theorem IsExpression.returns {n : Node ν κ} (h : IsExpression n) : n.returns = [] := by
  induction h with
  | number => rfl
  | call => rfl
  | binary loc op _ _ ihl ihr =>
    simp only [Node.returns] at ihl ihr
    simp [Node.returns, isReturn, -List.filter_eq_nil_iff, ihl, ihr]

theorem IsExpression.heads {n : Node ν κ} (h : IsExpression n) : n.heads = [] := by
  induction h with
  | number => rfl
  | call => rfl
  | binary loc op _ _ ihl ihr =>
    simp only [Node.heads] at ihl ihr
    simp [Node.heads, head?, List.filterMap_cons, -List.filterMap_eq_nil_iff, ihl, ihr]

end TinyArm.Node
