import TinyArm.Failure
import TinyArm.Node

/-!
# Walks through a tree

A walk lists the nodes of a tree with their depths, each node before its children and the children from left to right.
It does not go below the nodes that `stop` holds of; children that are absent are no nodes.

A visitor goes through a tree without knowing its forms. What it does at a node hangs on the kind of the node: if it has
a handler by the name of that kind, the handler deals with the node and goes no further; at any other node the visitor
looks through the fields, in order, and goes to each node that it finds there, on its own or in a row. It passes over
whatever else a field holds, and over nodes that are absent.
-/

namespace TinyArm

/-! ## Walks -/

namespace Node

variable {ν κ : Type}

mutual

/-- The nodes of a tree at depth `d` that are not below a node where the walk stops. -/
def walk (stop : Node ν κ → Bool) (d : Nat) : Node ν κ → List (Nat × Node ν κ)
  | absent => []
  | program loc fs => (d, program loc fs) :: if stop (program loc fs) then [] else walkAll stop (d + 1) fs
  | function loc name type body =>
    (d, function loc name type body) :: if stop (function loc name type body) then [] else walkAll stop (d + 1) body
  | ret loc value => (d, ret loc value) :: if stop (ret loc value) then [] else walk stop (d + 1) value
  | number loc value => [(d, number loc value)]
  | call loc name => [(d, call loc name)]
  | binary loc op left right =>
    (d, binary loc op left right) ::
      if stop (binary loc op left right) then [] else walk stop (d + 1) left ++ walk stop (d + 1) right
  | bare loc kind => [(d, bare loc kind)]

/-- The walks through the trees of a list, one after the other. -/
def walkAll (stop : Node ν κ → Bool) (d : Nat) : List (Node ν κ) → List (Nat × Node ν κ)
  | [] => []
  | n :: ns => walk stop d n ++ walkAll stop d ns

end

/-- All nodes of a tree with their depths. -/
def preorder (n : Node ν κ) : List (Nat × Node ν κ) := n.walk (fun _ => false) 0

end Node

/-! ## Fields -/

/-- What a field of a node holds. -/
inductive Node.Field (ν κ : Type) where
  | location (loc : Location)
  | name (name : ν)
  | type (type : DataType)
  | value (value : κ)
  | operator (op : Option Operator)
  /-- A node on its own; it may be absent. -/
  | node (n : Node ν κ)
  /-- Nodes in a row; some may be absent. -/
  | row (ns : List (Node ν κ))

namespace Node

variable {ν κ : Type}

/-- The fields of a node, in order. -/
def fields : Node ν κ → List (Field ν κ)
  | absent => []
  | program loc fs => [.location loc, .row fs]
  | function loc name type body => [.location loc, .name name, .type type, .row body]
  | ret loc value => [.location loc, .node value]
  | number loc value => [.location loc, .value value]
  | call loc name => [.location loc, .name name]
  | binary loc op left right => [.location loc, .operator op, .node left, .node right]
  | bare loc _ => [.location loc]

/-- The nodes that a field holds. -/
def Field.nodes : Field ν κ → List (Node ν κ)
  | node n => [n]
  | row ns => ns
  | _ => []

/-- The nodes that the fields of a node hold are smaller than the node. -/
theorem sizeOf_lt_of_mem_fields {n m : Node ν κ} (h : m ∈ n.fields.flatMap Field.nodes) : sizeOf m < sizeOf n := by
  cases n with
  | program loc fs =>
    have hm : m ∈ fs := by simpa [fields, Field.nodes] using h
    have := List.sizeOf_lt_of_mem hm
    simp only [program.sizeOf_spec]
    omega
  | function loc name type body =>
    have hm : m ∈ body := by simpa [fields, Field.nodes] using h
    have := List.sizeOf_lt_of_mem hm
    simp only [function.sizeOf_spec]
    omega
  | ret loc value =>
    obtain rfl : m = value := by simpa [fields, Field.nodes] using h
    simp only [ret.sizeOf_spec]
    omega
  | binary loc op left right =>
    obtain rfl | rfl : m = left ∨ m = right := by simpa [fields, Field.nodes] using h
    all_goals simp only [binary.sizeOf_spec]; omega
  | _ => simp [fields, Field.nodes] at h

end Node

/-! ## Visitors -/

/-- A visitor, by the names of the handlers that it has. -/
structure Visitor where
  handlers : List String

namespace Visitor

variable {ν κ : Type}

/-- The name of the handler for the nodes of a kind. -/
def handlerName (kind : String) : String := "visit_" ++ kind

/-- The visitor that handles the nodes of some kinds. -/
def handling (kinds : List String) : Visitor := ⟨kinds.map handlerName⟩

/-- Whether a visitor has a handler for a node. -/
def handles (v : Visitor) (n : Node ν κ) : Bool := v.handlers.contains (handlerName n.kindName)

/-- The nodes that a visitor comes to from a node on, that node first. -/
def visit (v : Visitor) (n : Node ν κ) : List (Node ν κ) :=
  n :: if v.handles n then [] else
    (n.fields.flatMap Node.Field.nodes).attach.flatMap fun m => if m.1.isAbsent then [] else visit v m.1
termination_by sizeOf n
decreasing_by exact Node.sizeOf_lt_of_mem_fields m.2

/-- What a visitor notes at a node: its kind, and that it handled the node if it did. -/
def notes (v : Visitor) (n : Node ν κ) : List String :=
  n.kindName :: if v.handles n then ["handled " ++ n.kindName] else []

end Visitor

namespace Node

variable {ν κ : Type}

/-- The nodes that a visitor comes to which handles the nodes of some kinds. -/
def visited (handled : List String) (n : Node ν κ) : List (Node ν κ) := (Visitor.handling handled).visit n

/-- What the visitor notes on its way. It has to handle a tree that is absent, as that has no fields to look through. -/
def visitLog (handled : List String) (n : Node ν κ) : Except Failure (List String) :=
  if n.isAbsent && !(Visitor.handling handled).handles n then .error (.lacks n.kindName "__dict__")
  else .ok ((n.visited handled).flatMap (Visitor.handling handled).notes)

end Node

end TinyArm
