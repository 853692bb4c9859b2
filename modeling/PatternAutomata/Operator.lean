import PatternAutomata.Token

/-!
# Operators

What can wait on the operator stack while a pattern is read. Higher priority binds tighter. An
opening parenthesis waits there too, as `group`; its priority is the least, so no operator that
arrives later reaches past it.
-/

namespace PatternAutomata

/-- The operators of a pattern. Concatenation is not written; `group` is an open parenthesis. -/
inductive Operator where
  | alternation
  | concatenation
  | repetition (q : Quantifier)
  | group
deriving DecidableEq, Repr

namespace Operator

/-- How tightly an operator binds. -/
def priority : Operator → Nat
  | group => 0
  | alternation => 1
  | concatenation => 2
  | repetition _ => 3

/-- How an operator is named in messages: its character between quotes, or a word for the one that
has no character. -/
def name : Operator → String
  | alternation => "'|'"
  | concatenation => "concatenation"
  | repetition .star => "'*'"
  | repetition .plus => "'+'"
  | repetition .optional => "'?'"
  | group => "'('"

/-- Every operator but an open parenthesis binds tighter than an open parenthesis. -/
theorem priority_group_lt_iff {o : Operator} : group.priority < o.priority ↔ o ≠ group := by
  cases o <;> simp [priority]

end Operator

/-- An operator with the position at which it was scanned. A concatenation stands at the first
character of its right operand. -/
structure PlacedOperator where
  operator : Operator
  position : Nat
deriving DecidableEq, Repr

end PatternAutomata
