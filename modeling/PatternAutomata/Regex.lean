import PatternAutomata.Automaton.Acceptance
import PatternAutomata.Compilation.Report

/-!
# Compiled patterns

A pattern kept together with its automaton, for matching many inputs against it.
-/

namespace PatternAutomata

/-- A pattern with the automaton it compiles to. -/
structure Regex where
  pattern : String
  automaton : Automaton
  /-- The automaton is that of the pattern. -/
  compile_pattern : compile pattern = .ok automaton

namespace Regex

/-- The compiled form of a pattern, or why it has none. -/
def ofPattern (pattern : String) : Except PatternError Regex :=
  match h : compile pattern with
  | .ok automaton => .ok ⟨pattern, automaton, h⟩
  | .error e => .error e

/-- Whether the whole of the input, and not only a part of it, matches. -/
def isExactMatch (r : Regex) (input : String) : Bool := r.automaton.accepts input

end Regex

end PatternAutomata
