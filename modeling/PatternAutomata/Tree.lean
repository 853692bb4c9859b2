import PatternAutomata.Arena.Fragment
import PatternAutomata.Operator

/-!
# Syntax trees

What a pattern is once its parentheses have done their work: atoms at the leaves, operators at the
inner nodes. Both things that can be read off a tree here follow one order, which visits the left
subtree, then the right one, then the node itself: `build` adds states and edges to an arena in this
order, and `applications` lists the operators in it.
-/

namespace PatternAutomata

/-- A syntax tree. Each operator carries the position at which it was scanned. -/
inductive Tree where
  | atom (x : Atom)
  | concatenation (position : Nat) (left right : Tree)
  | alternation (position : Nat) (left right : Tree)
  | repetition (position : Nat) (q : Quantifier) (inner : Tree)
deriving DecidableEq, Repr

namespace Tree

/-- Builds the fragment of a tree in an arena, subtrees first. -/
def build : Tree → Arena → Arena × Fragment
  | atom x, a => a.atom x
  | concatenation _ left right, a =>
    let (a, f) := left.build a
    let (a, g) := right.build a
    a.concatenate f g
  | alternation _ left right, a =>
    let (a, f) := left.build a
    let (a, g) := right.build a
    a.alternate f g
  | repetition _ q inner, a =>
    let (a, f) := inner.build a
    a.quantify q f

/-- The operators of a tree, each behind those of its operands. -/
def applications : Tree → List PlacedOperator
  | atom _ => []
  | concatenation position left right =>
    left.applications ++ right.applications ++ [⟨.concatenation, position⟩]
  | alternation position left right =>
    left.applications ++ right.applications ++ [⟨.alternation, position⟩]
  | repetition position q inner => inner.applications ++ [⟨.repetition q, position⟩]

end Tree

end PatternAutomata
