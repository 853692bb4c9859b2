import PatternAutomata.Arena.Fragment

/-!
# Automata

An automaton is a finished arena with one of its fragments singled out: its entry is where reading
starts, its exit is the one state that accepts.
-/

namespace PatternAutomata

/-- An arena with a start and an accepting state. -/
structure Automaton where
  arena : Arena
  start : StateId
  final : StateId
deriving DecidableEq, Repr

/-- The automaton that accepts the words of a fragment. -/
def Arena.finish (a : Arena) (f : Fragment) : Automaton := ⟨a, f.entry, f.exit⟩

/-- The number of states. -/
def Automaton.size (m : Automaton) : Nat := m.arena.size

end PatternAutomata
