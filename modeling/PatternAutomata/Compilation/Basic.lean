import PatternAutomata.Automaton.Basic
import PatternAutomata.Compilation.Assembly
import PatternAutomata.Lexeme

/-!
# Reading a pattern

A pattern is compiled in one pass from left to right, without a syntax tree. Operators wait on a
stack until it is certain that nothing to their right binds tighter: an arriving operator first
makes those wait no longer that bind strictly tighter than itself. Operators that bind equally tight
stay, so that both binary operators group to the right and, of several quantifiers in a row, the one
written last is applied first.

An open parenthesis waits on the same stack and holds back everything below it until its closing
counterpart comes. Concatenation has no character of its own: it is put on the stack when an operand
begins where another has just ended.
-/

namespace PatternAutomata

/-- A pattern read in part. -/
structure Compilation where
  assembly : Assembly := {}
  /-- The waiting operators and open parentheses, the latest first. -/
  operators : List PlacedOperator := []
  /-- The last token ended an operand. -/
  afterOperand : Bool := false
deriving DecidableEq, Repr

namespace Compilation

/-- Applies the operators at the top of the stack that bind tighter than the given priority. -/
def applyTighter : Compilation → Nat → Except Rejection Compilation
  | ⟨assembly, operators, afterOperand⟩, priority => do
    let isTighter := fun o : PlacedOperator => decide (priority < o.operator.priority)
    let assembly ← assembly.applyAll (operators.takeWhile isTighter)
    return ⟨assembly, operators.dropWhile isTighter, afterOperand⟩

/-- Puts an operator on the stack, after applying those that bind tighter. -/
def pushOperator (s : Compilation) (operator : Operator) (position : Nat) :
    Except Rejection Compilation := do
  let s ← s.applyTighter operator.priority
  return { s with operators := ⟨operator, position⟩ :: s.operators }

/-- Makes room for an operand at the given position: if it follows another operand directly, the two
are to be concatenated. -/
def beginOperand (s : Compilation) (position : Nat) : Except Rejection Compilation :=
  if s.afterOperand then s.pushOperator .concatenation position else .ok s

/-- Reads a literal or a wildcard. -/
def readAtom (s : Compilation) (position : Nat) (a : Atom) : Except Rejection Compilation := do
  let ⟨assembly, operators, _⟩ ← s.beginOperand position
  return ⟨assembly.pushAtom a, operators, true⟩

/-- Reads an opening parenthesis, which waits among the operators. -/
def openGroup (s : Compilation) (position : Nat) : Except Rejection Compilation := do
  let s ← s.beginOperand position
  return { s with operators := ⟨.group, position⟩ :: s.operators, afterOperand := false }

/-- Reads a closing parenthesis: applies all that waits down to the open one and removes it. -/
def closeGroup (s : Compilation) (position : Nat) : Except Rejection Compilation := do
  let s ← s.applyTighter Operator.group.priority
  match s.operators with
  | [] => throw ⟨.unmatchedParenthesis position, s.assembly.applied⟩
  | _ :: outer => return { s with operators := outer, afterOperand := true }

/-- Reads a bar. -/
def readBar (s : Compilation) (position : Nat) : Except Rejection Compilation := do
  let s ← s.pushOperator .alternation position
  return { s with afterOperand := false }

/-- Reads a quantifier, which must stand right behind an operand. -/
def readQuantifier (s : Compilation) (position : Nat) (q : Quantifier) :
    Except Rejection Compilation :=
  if s.afterOperand then s.pushOperator (.repetition q) position
  else .error ⟨.missingOperand (.repetition q) position, s.assembly.applied⟩

/-- Reads a token at its position. -/
def read (s : Compilation) (position : Nat) : Token → Except Rejection Compilation
  | .atom a => s.readAtom position a
  | .quantifier q => s.readQuantifier position q
  | .pipe => s.readBar position
  | .leftParenthesis => s.openGroup position
  | .rightParenthesis => s.closeGroup position

/-- Reads one character of a pattern, once it has been classified. -/
def step (s : Compilation) : Except PatternError Lexeme → Except Rejection Compilation
  | .ok lexeme => s.read lexeme.position lexeme.token
  | .error e => .error ⟨e, s.assembly.applied⟩

/-- Reads the lexemes of a pattern, up to the first that is refused. -/
def readAll (s : Compilation) (l : List (Except PatternError Lexeme)) :
    Except Rejection Compilation :=
  l.foldlM step s

/-- Ends a pattern: applies what still waits, down to the innermost parenthesis that is open. There
must then be no such parenthesis, and one fragment. -/
def finish (s : Compilation) : Except Rejection (Automaton × Array PlacedOperator) := do
  let s ← s.applyTighter Operator.group.priority
  match s.operators, s.assembly.fragments with
  | [], [f] => return (s.assembly.arena.finish f, s.assembly.applied)
  | _, _ => throw ⟨.malformed, s.assembly.applied⟩

end Compilation

end PatternAutomata
