import PatternAutomata.PatternError

/-!
# Lexemes

A pattern as a list of tokens with their positions. Each character is classified by itself, so
`lexemes` goes on after a character that is no token; it is for the reader of the list to stop
there.
-/

namespace PatternAutomata

/-- A token with the position of its character. -/
structure Lexeme where
  position : Nat
  token : Token
deriving DecidableEq, Repr

/-- The token at `position`, where the pattern has the character `c`. -/
def Lexeme.ofChar (position : Nat) (c : Char) : Except PatternError Lexeme :=
  match Token.ofChar? c with
  | some token => .ok ⟨position, token⟩
  | none => .error (.unexpectedSymbol c position)

/-- Every character of a pattern, classified. -/
def lexemes (pattern : String) : List (Except PatternError Lexeme) :=
  pattern.toList.zipIdx.map fun (c, position) => Lexeme.ofChar position c

end PatternAutomata
