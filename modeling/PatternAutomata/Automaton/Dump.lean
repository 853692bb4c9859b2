import PatternAutomata.Automaton.Basic

/-!
# The text of an automaton

One line for each state, in order: its number, whether it is the start or the accepting state, and
its edges in their order. Characters stand as they are; the empty symbol is written `ε`.
-/

namespace PatternAutomata

/-- How a symbol is written. -/
def Symbol.text : Symbol → String
  | empty => "ε"
  | char c => String.singleton c

/-- How an edge is written. -/
def Edge.text (e : Edge) : String := " " ++ e.symbol.text ++ "->" ++ toString e.target

namespace Automaton

/-- The line of a state, with the line feed that ends it. -/
def dumpLine (m : Automaton) (id : StateId) (s : State) : String :=
  toString id ++ (if id = m.start then " start" else "") ++ (if id = m.final then " final" else "")
    ++ ":" ++ String.join (s.edges.map Edge.text) ++ "\n"

/-- The lines of all states. -/
def dump (m : Automaton) : String :=
  String.join (m.arena.states.toList.zipIdx.map fun (s, id) => m.dumpLine id s)

end Automaton

end PatternAutomata
