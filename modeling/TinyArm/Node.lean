import TinyArm.DataType
import TinyArm.Location
import TinyArm.Operator

/-!
# Syntax trees

`Node ν κ` is the type of all syntax trees, with names in `ν` and literals in `κ`: trees read from tokens carry
whatever the tokens carry, and the compiler works on `Tree`, where names are text and literals integers. Any node may
stand in any place, as in trees made by hand; `IsExpression`, `IsReturn`, `IsFunction` and `IsProgram` single out the
trees that programs have. `absent` stands for a child that is not there.

* `Node.map` reads the leaves of a tree anew; it keeps the well-formed trees well-formed.
* `Node.same` compares trees without their locations.
* `Node.induct` is induction on trees, with the hypothesis for every item of a list.
-/

namespace TinyArm

/-! ## The type of trees -/

/-- The general kinds that nodes made by hand may have. -/
inductive BareKind where
  | statement
  | expression
  | node
  deriving DecidableEq

/-- A syntax tree. -/
inductive Node (ν κ : Type) where
  /-- No tree. -/
  | absent
  | program (loc : Location) (functions : List (Node ν κ))
  | function (loc : Location) (name : ν) (type : DataType) (body : List (Node ν κ))
  /-- A `return`, with an absent value if none is given. -/
  | ret (loc : Location) (value : Node ν κ)
  | number (loc : Location) (value : κ)
  /-- A call without arguments. -/
  | call (loc : Location) (name : ν)
  | binary (loc : Location) (op : Option Operator) (left right : Node ν κ)
  /-- A node of a general kind, without children. -/
  | bare (loc : Location) (kind : BareKind)

/-- A tree that the compiler works on. -/
abbrev Tree := Node String Int

namespace Node

variable {ν κ ν' κ' : Type}

/-- Induction on trees: a property holds of every tree if it holds of a tree whenever it holds of its children. -/
@[elab_as_elim]
theorem induct {motive : Node ν κ → Prop} (absent : motive absent)
    (program : ∀ loc fs, (∀ f ∈ fs, motive f) → motive (program loc fs))
    (function : ∀ loc name type body, (∀ s ∈ body, motive s) → motive (function loc name type body))
    (ret : ∀ loc value, motive value → motive (ret loc value)) (number : ∀ loc value, motive (number loc value))
    (call : ∀ loc name, motive (call loc name))
    (binary : ∀ loc op left right, motive left → motive right → motive (binary loc op left right))
    (bare : ∀ loc kind, motive (bare loc kind)) (n : Node ν κ) : motive n :=
  n.rec (motive_2 := fun ns => ∀ m ∈ ns, motive m) absent program function ret number call binary bare
    (fun _ h => absurd h List.not_mem_nil)
    (fun _ _ hm hs _ h => (List.mem_cons.1 h).elim (fun e => e ▸ hm) (hs _))

/-! ## Parts of nodes -/

/-- The name of the kind of a node. -/
def kindName : Node ν κ → String
  | absent => "NoneType"
  | program .. => "ProgramNode"
  | function .. => "FunctionNode"
  | ret .. => "ReturnStatement"
  | number .. => "NumberLiteral"
  | call .. => "CallExpression"
  | binary .. => "BinaryExpression"
  | bare _ .statement => "Statement"
  | bare _ .expression => "Expression"
  | bare _ .node => "ASTNode"

/-- Where a node stands. -/
def location? : Node ν κ → Option Location
  | absent => none
  | program l _ | function l _ _ _ | ret l _ | number l _ | call l _ | binary l _ _ _ | bare l _ => some l

/-- Whether there is no tree. -/
def isAbsent : Node ν κ → Bool
  | absent => true
  | _ => false

/-- Whether a node is a `return`. -/
def isReturn : Node ν κ → Bool
  | ret .. => true
  | _ => false

/-- Whether a node is of a kind of expressions. -/
def isOperand : Node ν κ → Bool
  | number .. | call .. | binary .. | bare _ .expression => true
  | _ => false

/-- Whether a node is a program. -/
def isProgram : Node ν κ → Bool
  | program .. => true
  | _ => false

/-- The functions of a program, or the statements of a function. -/
def items : Node ν κ → List (Node ν κ)
  | program _ fs => fs
  | function _ _ _ body => body
  | _ => []

/-- The functions of a program. -/
def functions : Node ν κ → List (Node ν κ)
  | program _ fs => fs
  | _ => []

/-! ## Trees of programs -/

/-- An expression: a literal, a call, or an operator with two expressions. -/
inductive IsExpression : Node ν κ → Prop where
  | number (loc value) : IsExpression (number loc value)
  | call (loc name) : IsExpression (call loc name)
  | binary (loc op) {left right} : IsExpression left → IsExpression right →
      IsExpression (binary loc (some op) left right)

/-- A `return` of nothing or of an expression. -/
inductive IsReturn : Node ν κ → Prop where
  | nothing (loc) : IsReturn (ret loc absent)
  | value (loc) {value} : IsExpression value → IsReturn (ret loc value)

/-- A function with a body of `return`s. -/
inductive IsFunction : Node ν κ → Prop where
  | intro (loc name type) {body} : (∀ s ∈ body, IsReturn s) → IsFunction (function loc name type body)

/-- A program of functions. -/
inductive IsProgram : Node ν κ → Prop where
  | intro (loc) {functions} : (∀ f ∈ functions, IsFunction f) → IsProgram (program loc functions)

/-! ## Reading the leaves anew -/

mutual

/-- The tree with its names and literals read anew. -/
def map (f : ν → ν') (g : κ → κ') : Node ν κ → Node ν' κ'
  | absent => absent
  | program loc fs => program loc (mapAll f g fs)
  | function loc name type body => function loc (f name) type (mapAll f g body)
  | ret loc value => ret loc (map f g value)
  | number loc value => number loc (g value)
  | call loc name => call loc (f name)
  | binary loc op left right => binary loc op (map f g left) (map f g right)
  | bare loc kind => bare loc kind

/-- The trees of a list with their names and literals read anew. -/
def mapAll (f : ν → ν') (g : κ → κ') : List (Node ν κ) → List (Node ν' κ')
  | [] => []
  | n :: ns => map f g n :: mapAll f g ns

end

theorem mapAll_eq_map (f : ν → ν') (g : κ → κ') (ns : List (Node ν κ)) : mapAll f g ns = ns.map (map f g) := by
  induction ns with
  | nil => rfl
  | cons n ns ih => simp [mapAll, ih]

theorem IsExpression.map {n : Node ν κ} (f : ν → ν') (g : κ → κ') (h : IsExpression n) : IsExpression (n.map f g) := by
  induction h with
  | number loc value => exact .number loc (g value)
  | call loc name => exact .call loc (f name)
  | binary loc op _ _ hl hr => exact .binary loc op hl hr

theorem IsReturn.map {n : Node ν κ} (f : ν → ν') (g : κ → κ') (h : IsReturn n) : IsReturn (n.map f g) := by
  cases h with
  | nothing loc => exact .nothing loc
  | value loc h => exact .value loc (h.map f g)

theorem IsFunction.map {n : Node ν κ} (f : ν → ν') (g : κ → κ') (h : IsFunction n) : IsFunction (n.map f g) := by
  obtain ⟨loc, name, type, hb⟩ := h
  simp only [Node.map, mapAll_eq_map]
  refine .intro loc (f name) type fun s hs => ?_
  obtain ⟨t, ht, rfl⟩ := List.mem_map.1 hs
  exact (hb t ht).map f g

theorem IsProgram.map {n : Node ν κ} (f : ν → ν') (g : κ → κ') (h : IsProgram n) : IsProgram (n.map f g) := by
  obtain ⟨loc, hf⟩ := h
  simp only [Node.map, mapAll_eq_map]
  refine .intro loc fun m hm => ?_
  obtain ⟨k, hk, rfl⟩ := List.mem_map.1 hm
  exact (hf k hk).map f g

/-! ## Equality up to locations -/

mutual

/-- Whether two trees agree in everything but their locations. -/
def same [DecidableEq ν] [DecidableEq κ] : Node ν κ → Node ν κ → Bool
  | absent, absent => true
  | program _ fs, program _ gs => sameAll fs gs
  | function _ n t b, function _ m u c => n = m && t = u && sameAll b c
  | ret _ v, ret _ w => same v w
  | number _ v, number _ w => v = w
  | call _ n, call _ m => n = m
  | binary _ o l r, binary _ p l' r' => o = p && same l l' && same r r'
  | bare _ c, bare _ d => c = d
  | _, _ => false

/-- Whether two lists of trees agree item by item in everything but locations. -/
def sameAll [DecidableEq ν] [DecidableEq κ] : List (Node ν κ) → List (Node ν κ) → Bool
  | [], [] => true
  | n :: ns, m :: ms => same n m && sameAll ns ms
  | _, _ => false

end

theorem same_refl [DecidableEq ν] [DecidableEq κ] (n : Node ν κ) : n.same n = true := by
  have all : ∀ ns : List (Node ν κ), (∀ m ∈ ns, m.same m = true) → sameAll ns ns = true := by
    intro ns
    induction ns with
    | nil => intro _; rfl
    | cons m ms ih => intro h; simp [sameAll, h m List.mem_cons_self, ih fun k hk => h k (List.mem_cons_of_mem _ hk)]
  induction n using induct <;> simp_all [same]

end Node

end TinyArm
