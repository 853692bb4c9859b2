import PatternAutomata.Automaton.Basic
import PatternAutomata.Automaton.Closure

/-!
# Acceptance

An automaton reads a word by keeping the set of all states that it may be in: the closure of the
start at first, and for each character the closure of where the edges on it lead. A state to which
several of these edges lead is taken once. The word is accepted if the accepting state is among them
at the end. Once the set is empty it stays so, and reading stops.
-/

namespace PatternAutomata

/-- Where the edges on a character lead from the states of a set, each state where it comes first. -/
def Arena.successors (a : Arena) (s : StateSet a.size) (c : Char) : List StateId :=
  (s.members.toList.flatMap (a.targets · (.char c))).eraseDups

namespace Automaton

/-- Whether the rest of a word is accepted from the states of a set. -/
def accepts.go (m : Automaton) (s : StateSet m.arena.size) : List Char → Bool
  | [] => s.contains m.final
  | c :: rest =>
    let next := m.arena.closure (m.arena.successors s c)
    if next.size = 0 then false else go m next rest

/-- Whether the automaton accepts the whole of the input. -/
def accepts (m : Automaton) (input : String) : Bool :=
  accepts.go m (m.arena.closure [m.start]) input.toList

end Automaton

end PatternAutomata
