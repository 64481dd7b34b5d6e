import TinyArm.Proofs.Nodes

/-!
# Where visitors go

A route leads from the root of a tree to a node in it, by the number of a child at each step, counted from zero. It is
open if it leads to a node and passes none of a handled kind on the way. Routes are ordered as words in a dictionary: a
route is before all that lead on from it, and where two part, the one to the earlier child is before the other.

* `Visitor.visit_eq`: a visitor goes on to the children of a node that it does not handle.
* `Visitor.visit_eq_walk`: a visitor comes to the nodes of the walk that stops where the visitor handles a node.
* `Node.exists_leads`: the open routes of any tree, in order, lead to the nodes that a visitor comes to.
* `visits_in_preorder`: **a visitor comes to the nodes that are not below a handled one, once each and in preorder.**
-/

namespace TinyArm

/-! ## Visitors -/

namespace Visitor

variable {ν κ : Type}

/-- A visitor handles the nodes of the kinds that it is made for, and no others. -/
theorem handles_handling (kinds : List String) (n : Node ν κ) :
    (handling kinds).handles n = true ↔ n.kindName ∈ kinds := by
  have hinj : Function.Injective handlerName := fun k l h => by
    have h := congrArg String.toList h
    simp only [handlerName, String.toList_append] at h
    exact String.toList_inj.1 (List.append_cancel_left h)
  rw [handles, handling, List.contains_iff_mem, List.mem_map_of_injective hinj]

/-- The fields of a node hold its children and no other node. -/
theorem flatMap_nodes_fields (n : Node ν κ) : n.fields.flatMap Node.Field.nodes = n.children := by
  cases n <;> simp [Node.fields, Node.Field.nodes, Node.children]

variable (v : Visitor)

/-- The nodes that a visitor comes to in a tree that may be absent. -/
def seen (n : Node ν κ) : List (Node ν κ) := if n.isAbsent then [] else v.visit n

theorem seen_eq_visit {n : Node ν κ} (h : n ≠ .absent) : v.seen n = v.visit n := by
  rw [seen, Node.isAbsent_eq_false_iff.2 h]
  rfl

/-- **A visitor goes on to the children** of a node that it does not handle. -/
theorem visit_eq (n : Node ν κ) : v.visit n = n :: if v.handles n then [] else n.children.flatMap v.seen := by
  rw [visit, ← flatMap_nodes_fields, List.flatMap_subtype (g := v.seen) fun _ _ => rfl, List.unattach_attach]

theorem seen_eq_walk (n : Node ν κ) : v.seen n = (n.walk v.handles 0).map Prod.snd := by
  induction n using Node.induct_children with
  | h n ih =>
    by_cases hn : n = .absent
    · subst hn
      rfl
    · rw [seen_eq_visit v hn, visit_eq, Node.map_snd_walk_eq _ hn, List.flatMap_congr ih]

/-- **A visitor comes to the nodes of a walk** that stops at the nodes that the visitor handles. -/
theorem visit_eq_walk {n : Node ν κ} (h : n ≠ .absent) : v.visit n = (n.walk v.handles 0).map Prod.snd := by
  rw [← seen_eq_walk, seen_eq_visit v h]

end Visitor

/-! ## Routes -/

namespace Node

variable {ν κ : Type}

/-- The node that a route leads to, if there is one. -/
def at? : Node ν κ → List Nat → Option (Node ν κ)
  | n, [] => if n.isAbsent then none else some n
  | n, i :: r => n.children[i]?.bind (at? · r)

/-- Whether a route leads to a node and no node above that one is of a handled kind. -/
def IsOpen (handled : List String) (n : Node ν κ) (r : List Nat) : Prop :=
  (∃ m, n.at? r = some m) ∧ ∀ q m, q <+: r → q ≠ r → n.at? q = some m → m.kindName ∉ handled

variable {handled : List String} {n : Node ν κ}

theorem at?_nil (h : n ≠ absent) : n.at? [] = some n := by
  rw [at?, isAbsent_eq_false_iff.2 h]
  rfl

theorem isOpen_nil_iff : n.IsOpen handled [] ↔ n ≠ absent := by
  constructor
  · rintro ⟨⟨m, hm⟩, -⟩ rfl
    cases hm
  · intro h
    exact ⟨⟨n, at?_nil h⟩, fun q m hq hne _ => absurd (List.prefix_nil.1 hq) hne⟩

theorem ne_absent_of_children {i : Nat} {c : Node ν κ} (h : n.children[i]? = some c) : n ≠ absent := by
  rintro rfl
  cases h

/-- A longer route is open if it goes on from a node that is not handled, and is open from the child that it takes. -/
theorem isOpen_cons_iff {i : Nat} {r : List Nat} :
    n.IsOpen handled (i :: r) ↔ n.kindName ∉ handled ∧ ∃ c, n.children[i]? = some c ∧ c.IsOpen handled r := by
  constructor
  · rintro ⟨⟨m, hm⟩, ha⟩
    obtain ⟨c, hc, hm⟩ := Option.bind_eq_some_iff.1 hm
    have hn : n.kindName ∉ handled := ha [] n List.nil_prefix nofun (at?_nil (ne_absent_of_children hc))
    refine ⟨hn, c, hc, ⟨m, hm⟩, fun q k hq hne hk => ?_⟩
    refine ha (i :: q) k (List.cons_prefix_cons.2 ⟨rfl, hq⟩) (fun e => hne (List.cons.inj e).2) ?_
    rw [at?, hc]
    exact hk
  · rintro ⟨hn, c, hc, ⟨m, hm⟩, ha⟩
    refine ⟨⟨m, by rw [at?, hc]; exact hm⟩, fun q k hq hne hk => ?_⟩
    cases q with
    | nil =>
      rw [at?_nil (ne_absent_of_children hc)] at hk
      cases hk
      exact hn
    | cons j q =>
      obtain ⟨rfl, hq'⟩ := List.cons_prefix_cons.1 hq
      rw [at?, hc] at hk
      exact ha q k hq' (fun e => hne (e ▸ rfl)) hk

/-! ## Routes through children -/

/-- The routes that go on through the children in a list, from the routes of each child. -/
def routesThrough (cs : List (Node ν κ)) (rs : Node ν κ → List (List Nat)) : List (List Nat) :=
  cs.zipIdx.flatMap fun c => (rs c.1).map (c.2 :: ·)

variable {cs : List (Node ν κ)} {rs : Node ν κ → List (List Nat)}

theorem mem_routesThrough {r : List Nat} :
    r ∈ routesThrough cs rs ↔ ∃ i c q, cs[i]? = some c ∧ q ∈ rs c ∧ r = i :: q := by
  simp only [routesThrough, List.mem_flatMap, List.mem_map, Prod.exists, List.mk_mem_zipIdx_iff_getElem?]
  constructor
  · rintro ⟨c, i, hc, q, hq, rfl⟩
    exact ⟨i, c, q, hc, hq, rfl⟩
  · rintro ⟨i, c, q, hc, hq, rfl⟩
    exact ⟨c, i, hc, q, hq, rfl⟩

/-- Routes through an earlier child are before those through a later one. -/
theorem pairwise_routesThrough (h : ∀ c ∈ cs, (rs c).Pairwise (· < ·)) : (routesThrough cs rs).Pairwise (· < ·) := by
  rw [routesThrough, List.pairwise_flatMap]
  constructor
  · intro c hc
    rw [List.pairwise_map]
    exact (h c.1 (List.fst_mem_of_mem_zipIdx hc)).imp fun hlt => List.cons_lt_cons_iff.2 (.inr ⟨rfl, hlt⟩)
  · have hnumbers : cs.zipIdx.Pairwise fun c d => c.2 < d.2 := by
      rw [← List.pairwise_map (f := Prod.snd) (R := (· < ·)), List.zipIdx_map_snd]
      exact List.pairwise_lt_range'
    refine hnumbers.imp fun hlt r hr s hs => ?_
    obtain ⟨q, -, rfl⟩ := List.mem_map.1 hr
    obtain ⟨t, -, rfl⟩ := List.mem_map.1 hs
    exact List.cons_lt_cons_iff.2 (.inl hlt)

/-- Routes through children lead where the routes of the children lead. -/
theorem map_at?_routesThrough {f : Node ν κ → List (Node ν κ)}
    (h : ∀ c ∈ n.children, (f c).map some = (rs c).map c.at?) :
    (n.children.flatMap f).map some = (routesThrough n.children rs).map n.at? := by
  have hf : n.children.flatMap f = n.children.zipIdx.flatMap fun c => f c.1 := by
    rw [← List.flatMap_map Prod.fst f, List.zipIdx_map_fst]
  rw [hf, routesThrough, List.map_flatMap, List.map_flatMap]
  refine List.flatMap_congr fun c hc => ?_
  rw [h c.1 (List.fst_mem_of_mem_zipIdx hc), List.map_map]
  refine List.map_congr_left fun r _ => ?_
  rw [Function.comp_apply, at?, List.mk_mem_zipIdx_iff_getElem?.1 hc]
  rfl

/-! ## Where the open routes lead -/

/-- The open routes of a tree, each once and in order, with the nodes that they lead to. -/
structure Leads (handled : List String) (n : Node ν κ) (rs : List (List Nat)) (ms : List (Node ν κ)) : Prop where
  ascending : rs.Pairwise (· < ·)
  mem_iff : ∀ r, r ∈ rs ↔ n.IsOpen handled r
  nodes : ms.map some = rs.map n.at?

theorem leads_absent (handled : List String) : (absent : Node ν κ).Leads handled [] [] where
  ascending := .nil
  mem_iff r := by
    refine ⟨nofun, fun h => ?_⟩
    cases r with
    | nil => exact absurd rfl (isOpen_nil_iff.1 h)
    | cons i r =>
      obtain ⟨-, c, hc, -⟩ := isOpen_cons_iff.1 h
      cases hc
  nodes := rfl

/-- Below a handled node no route is open. -/
theorem leads_of_handled (h : n ≠ absent) (hk : n.kindName ∈ handled) : n.Leads handled [[]] [n] where
  ascending := List.pairwise_singleton _ _
  mem_iff r := by
    rw [List.mem_singleton]
    cases r with
    | nil => simp only [isOpen_nil_iff, h, ne_eq, not_false_eq_true]
    | cons i r => simp only [isOpen_cons_iff, hk, not_true_eq_false, false_and, reduceCtorEq]
  nodes := by rw [List.map_singleton, List.map_singleton, at?_nil h]

/-- From a node that is not handled the open routes go on through its children. -/
theorem leads_of_children {f : Node ν κ → List (Node ν κ)} (h : n ≠ absent) (hk : n.kindName ∉ handled)
    (hc : ∀ c ∈ n.children, c.Leads handled (rs c) (f c)) :
    n.Leads handled ([] :: routesThrough n.children rs) (n :: n.children.flatMap f) where
  ascending := by
    refine List.pairwise_cons.2 ⟨fun r hr => ?_, pairwise_routesThrough fun c hm => (hc c hm).ascending⟩
    obtain ⟨i, c, q, -, -, rfl⟩ := mem_routesThrough.1 hr
    exact List.nil_lt_cons i q
  mem_iff r := by
    cases r with
    | nil => simp only [List.mem_cons_self, isOpen_nil_iff, h, ne_eq, not_false_eq_true]
    | cons i r =>
      rw [List.mem_cons, or_iff_right nofun, mem_routesThrough, isOpen_cons_iff]
      constructor
      · rintro ⟨j, c, q, hj, hq, he⟩
        obtain ⟨rfl, rfl⟩ := List.cons.inj he
        exact ⟨hk, c, hj, ((hc c (List.mem_of_getElem? hj)).mem_iff r).1 hq⟩
      · rintro ⟨-, c, hi, ho⟩
        exact ⟨i, c, r, hi, ((hc c (List.mem_of_getElem? hi)).mem_iff r).2 ho, rfl⟩
  nodes := by
    rw [List.map_cons, List.map_cons, at?_nil h, map_at?_routesThrough fun c hm => (hc c hm).nodes]

/-- **The open routes of any tree lead to the nodes that a visitor comes to**, in this order. -/
theorem exists_leads (handled : List String) (n : Node ν κ) :
    ∃ rs, n.Leads handled rs ((Visitor.handling handled).seen n) := by
  induction n using induct_children with
  | h n ih =>
    -- absent children have no open routes, so that one choice of routes serves all children
    choose! rs hrs using ih
    by_cases hn : n = absent
    · subst hn
      exact ⟨[], leads_absent handled⟩
    rw [Visitor.seen_eq_visit _ hn, Visitor.visit_eq]
    by_cases hk : n.kindName ∈ handled
    · rw [if_pos ((Visitor.handles_handling handled n).2 hk)]
      exact ⟨_, leads_of_handled hn hk⟩
    · rw [if_neg fun h => hk ((Visitor.handles_handling handled n).1 h)]
      exact ⟨_, leads_of_children hn hk hrs⟩

/-- **A visitor comes to the nodes that are not below a handled one, each once and in preorder.** Routes that ascend are
all different, the route to a node is before those to the nodes below it, and these are before those through its later
siblings. What the visitor notes, it notes at these nodes. -/
theorem visits_in_preorder (handled : List String) {n : Node ν κ} (h : n ≠ absent) :
    n.visitLog handled = .ok ((n.visited handled).flatMap (Visitor.handling handled).notes) ∧
    ∃ rs : List (List Nat), rs.Pairwise (· < ·) ∧ (∀ r, r ∈ rs ↔ n.IsOpen handled r) ∧
      (n.visited handled).map some = rs.map n.at? := by
  obtain ⟨rs, hl⟩ := exists_leads handled n
  rw [Visitor.seen_eq_visit _ h] at hl
  refine ⟨?_, rs, hl.ascending, hl.mem_iff, hl.nodes⟩
  rw [visitLog, isAbsent_eq_false_iff.2 h]
  rfl

end Node

/-- A tree in which a `return` stands as an operand, an operation as a statement and a literal as a function, and in
which a function, a statement, an operator and an operand are absent. -/
def oddTree : Tree :=
  .program ⟨"t.c", 1, 1⟩ [.absent,
    .function ⟨"t.c", 1, 1⟩ "f" .int [
      .ret ⟨"t.c", 1, 9⟩ (.binary ⟨"t.c", 1, 18⟩ none (.number ⟨"t.c", 1, 16⟩ 1) .absent), .absent,
      .binary ⟨"t.c", 2, 3⟩ (some .add) (.ret ⟨"t.c", 2, 1⟩ (.call ⟨"t.c", 2, 8⟩ "g")) (.number ⟨"t.c", 2, 5⟩ 2)],
    .number ⟨"t.c", 3, 1⟩ 3]

theorem visits_oddTree : oddTree ≠ .absent ∧
    oddTree.visitLog ["ReturnStatement"] = .ok ["ProgramNode", "FunctionNode", "ReturnStatement",
      "handled ReturnStatement", "BinaryExpression", "ReturnStatement", "handled ReturnStatement", "NumberLiteral",
      "NumberLiteral"] ∧
    oddTree.visitLog ["ReturnStatement"] =
      .ok ((oddTree.visited ["ReturnStatement"]).flatMap (Visitor.handling ["ReturnStatement"]).notes) ∧
    ∃ rs : List (List Nat), rs.Pairwise (· < ·) ∧ (∀ r, r ∈ rs ↔ oddTree.IsOpen ["ReturnStatement"] r) ∧
      (oddTree.visited ["ReturnStatement"]).map some = rs.map oddTree.at? := by
  have h : oddTree ≠ .absent := nofun
  refine ⟨h, ?_, Node.visits_in_preorder _ h⟩
  rw [Node.visitLog, Node.visited, Visitor.visit_eq_walk _ h]
  decide +kernel

end TinyArm
