import PatternAutomata.Arena.Basic
import PatternAutomata.StateSet

/-!
# States reachable without reading

The closure of some states under edges on the empty symbol, found breadth first. The set of states
found so far is its own queue: its members stand in the order of their arrival, the first
`processed` of them have had their edges followed, and the others wait. A round takes the first that
waits and adds where it leads. A state enters the set once, whatever cycles the graph has, so there
are at most as many rounds as states.
-/

namespace PatternAutomata

/-- States found so far, and how many of them have had their empty edges followed. -/
structure Exploration (n : Nat) where
  found : StateSet n
  processed : Nat := 0

namespace Exploration

/-- Follows empty edges until no found state is left to process. -/
def run (a : Arena) (e : Exploration a.size) : Exploration a.size :=
  if h : e.processed < e.found.members.size then
    let next := a.targets e.found.members[e.processed] .empty
    run a ⟨e.found.insertMany next, e.processed + 1⟩
  else e
termination_by a.size - e.processed
decreasing_by
  have := e.found.size_le
  simp only [StateSet.size] at this
  omega

end Exploration

namespace Arena

/-- The states that can be reached from the given ones without reading, these included. -/
def closure (a : Arena) (initial : List StateId) : StateSet a.size :=
  (Exploration.run a ⟨(StateSet.empty a.size).insertMany initial, 0⟩).found

end Arena

end PatternAutomata
