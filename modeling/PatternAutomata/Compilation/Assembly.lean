import PatternAutomata.Arena.Fragment
import PatternAutomata.PatternError

/-!
# Putting fragments together

While a pattern is read, finished fragments wait on a stack until an operator takes them. An
assembly is that stack with the arena that the fragments belong to, and the list of the operators
applied so far.

An operator takes its operands from the top of the stack, whatever has been built there: the stack
knows nothing of parentheses. If there are too few, the application is refused, and it does not
count as made.
-/

namespace PatternAutomata

/-- A failure, with the operators that had been applied when it came up. -/
structure Rejection where
  error : PatternError
  applied : Array PlacedOperator
deriving DecidableEq, Repr

/-- Fragments that wait for an operator, the arena they live in and what has been done to it. -/
structure Assembly where
  arena : Arena := {}
  /-- The waiting fragments, the latest first. -/
  fragments : List Fragment := []
  /-- The operators applied so far, the earliest first. -/
  applied : Array PlacedOperator := #[]
deriving DecidableEq, Repr

namespace Assembly

/-- Builds the fragment of an atom and lets it wait. -/
def pushAtom : Assembly → Atom → Assembly
  | ⟨arena, fragments, applied⟩, x =>
    let (arena, f) := arena.atom x
    ⟨arena, f :: fragments, applied⟩

/-- Applies an operator to the fragments that arrived last. An open parenthesis is no operation;
applied all the same it would be entered in the list and then refused. -/
def apply : Assembly → PlacedOperator → Except Rejection Assembly
  | ⟨arena, fragments, applied⟩, o =>
    match o.operator, fragments with
    | .alternation, right :: left :: rest =>
      let (arena, f) := arena.alternate left right
      .ok ⟨arena, f :: rest, applied.push o⟩
    | .concatenation, right :: left :: rest =>
      let (arena, f) := arena.concatenate left right
      .ok ⟨arena, f :: rest, applied.push o⟩
    | .repetition q, inner :: rest =>
      let (arena, f) := arena.quantify q inner
      .ok ⟨arena, f :: rest, applied.push o⟩
    | .group, _ => .error ⟨.malformed, applied.push o⟩
    | operator, _ => .error ⟨.missingOperand operator o.position, applied⟩

/-- Applies operators one after the other, up to the first that is refused. -/
def applyAll (s : Assembly) (operators : List PlacedOperator) : Except Rejection Assembly :=
  operators.foldlM apply s

end Assembly

end PatternAutomata
