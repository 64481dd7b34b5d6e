/-!
# Bindings in order

`Bindings α β` binds keys to values and keeps the order in which the keys were first bound.

* `find?_put`: a binding is found again, and changes no other.
* `keys_put`: a key keeps its place when it is bound again, and a new key comes last.
-/

namespace TinyArm

/-- Keys with their values, in the order of first binding. -/
abbrev Bindings (α β : Type) := List (α × β)

namespace Bindings

variable {α β : Type} [DecidableEq α]

/-- The value of a key. -/
def find? (k : α) : Bindings α β → Option β
  | [] => none
  | b :: bs => if b.1 = k then some b.2 else find? k bs

/-- Binds a key; if it is bound already, its value is replaced in place. -/
def put (k : α) (v : β) : Bindings α β → Bindings α β
  | [] => [(k, v)]
  | b :: bs => if b.1 = k then (k, v) :: bs else b :: put k v bs

/-- The bound keys. -/
def keys (bs : Bindings α β) : List α := bs.map Prod.fst

theorem find?_put (k l : α) (v : β) (bs : Bindings α β) :
    find? l (put k v bs) = if k = l then some v else find? l bs := by
  induction bs with
  | nil => simp [put, find?]
  | cons b bs ih =>
    unfold put
    split
    · next hb => by_cases h : k = l <;> simp [find?, h, hb]
    · next hb =>
      by_cases h : b.1 = l
      · have hn : k ≠ l := fun e => hb (h.trans e.symm)
        simp [find?, h, hn]
      · simp [find?, h, ih]

theorem keys_put (k : α) (v : β) (bs : Bindings α β) :
    keys (put k v bs) = if k ∈ keys bs then keys bs else keys bs ++ [k] := by
  induction bs with
  | nil => simp [put, keys]
  | cons b bs ih =>
    simp only [keys] at ih ⊢
    unfold put
    split
    · next hb => simp [hb]
    · next hb =>
      simp only [List.map_cons, ih, List.mem_cons]
      by_cases hm : k ∈ List.map Prod.fst bs <;> simp [hm, Ne.symm hb]

end Bindings

end TinyArm
