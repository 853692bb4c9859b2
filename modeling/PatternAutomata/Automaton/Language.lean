import Mathlib.Computability.Language
import PatternAutomata.Automaton.Acceptance

/-!
# The language of a fragment

The words that a fragment accepts in its arena, once it is finished. What an operation on fragments
does is said as an equation between such languages, those of the operands taken in the arena before
the operation.
-/

namespace PatternAutomata

/-- The words that the automaton of a fragment accepts. -/
def Arena.language (a : Arena) (f : Fragment) : Language Char :=
  {w | (a.finish f).accepts (String.ofList w) = true}

end PatternAutomata
