import PatternAutomata.Operator

/-!
# Why a pattern is rejected

There are four causes. Positions count the pattern's characters from zero.
-/

namespace PatternAutomata

/-- The causes for which a pattern does not compile. -/
inductive PatternError where
  /-- The character is neither in the alphabet nor an operator. -/
  | unexpectedSymbol (symbol : Char) (position : Nat)
  /-- An operator was applied while fewer fragments than it needs were at hand. -/
  | missingOperand (operator : Operator) (position : Nat)
  /-- A closing parenthesis found no open one. -/
  | unmatchedParenthesis (position : Nat)
  /-- At the end of the pattern a parenthesis was still open, or there was nothing to compile. -/
  | malformed
deriving DecidableEq, Repr

/-- The text of an error. The unexpected symbol stands in it as it is, whatever it is. -/
def PatternError.message : PatternError → String
  | unexpectedSymbol symbol position =>
    "unexpected symbol '" ++ String.singleton symbol ++ "' at position " ++ toString position
  | missingOperand operator position =>
    operator.name ++ " at position " ++ toString position ++ " is missing an operand"
  | unmatchedParenthesis position => "unmatched ')' at position " ++ toString position
  | malformed => "malformed pattern"

end PatternAutomata
