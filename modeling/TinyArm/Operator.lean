/-!
# Arithmetic operators

The four binary operators with their symbols. `*` and `/` bind tighter than `+` and `-`; a higher `precedence` binds
tighter.
-/

namespace TinyArm

/-- A binary operator. -/
inductive Operator where
  | add
  | subtract
  | multiply
  | divide
  deriving DecidableEq

namespace Operator

/-- The character that an operator is written with. -/
def symbol : Operator → Char
  | add => '+'
  | subtract => '-'
  | multiply => '*'
  | divide => '/'

/-- How tightly an operator binds. -/
def precedence : Operator → Nat
  | add | subtract => 1
  | multiply | divide => 2

/-- Different operators have different symbols. -/
theorem symbol_injective {o p : Operator} (h : o.symbol = p.symbol) : o = p := by
  cases o <;> cases p <;> first | rfl | exact absurd h (by decide)

end Operator

end TinyArm
