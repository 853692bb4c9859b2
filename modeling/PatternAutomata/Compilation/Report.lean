import PatternAutomata.Compilation.Basic
import PatternAutomata.Quotation

/-!
# Compiling a pattern

A compilation ends with an automaton or an error, and in both cases leaves a log behind: a record
for each operator applied, in the order in which they were, and after a success one more that says
how large the automaton is. `compile` is the result alone.
-/

namespace PatternAutomata

/-- What came of a pattern, and which operators were applied on the way. -/
structure Report where
  pattern : String
  applied : Array PlacedOperator
  result : Except PatternError Automaton

/-- Compiles a pattern and keeps account of it. -/
def report (pattern : String) : Report :=
  match (Compilation.readAll {} (lexemes pattern)).bind Compilation.finish with
  | .ok (automaton, applied) => ⟨pattern, applied, .ok automaton⟩
  | .error rejection => ⟨pattern, rejection.applied, .error rejection.error⟩

/-- The automaton that accepts the words that a pattern describes, or why there is none. -/
def compile (pattern : String) : Except PatternError Automaton := (report pattern).result

/-- An entry in the log of a compilation. -/
inductive Record where
  | applied (o : PlacedOperator)
  | compiled (pattern : String) (states : Nat)
deriving DecidableEq, Repr

namespace Record

/-- How important a record is: single applications matter less than a whole compilation. -/
def level : Record → String
  | applied _ => "TRACE"
  | compiled _ _ => "DEBUG"

/-- The text of a record. By default all characters beyond ASCII can be shown. -/
def text (r : Record) (isShown : Char → Bool := fun _ => true) : String :=
  match r with
  | applied o => "applying " ++ o.operator.name ++ " from position " ++ toString o.position
  | compiled pattern states =>
    "compiled pattern " ++ quote isShown pattern ++ " into " ++ toString states ++ " states"

end Record

/-- The log of a compilation. -/
def Report.records (r : Report) : List Record :=
  r.applied.toList.map .applied ++
    match r.result with
    | .ok automaton => [.compiled r.pattern automaton.size]
    | .error _ => []

end PatternAutomata
