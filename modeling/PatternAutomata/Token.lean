import PatternAutomata.Alphabet

/-!
# Tokens

A pattern has no escapes, so every character is a token by itself or no token at all. The token
types separate what an operand is (`Atom`) from what repeats one (`Quantifier`); the three marks
`|`, `(` and `)` remain.

`Token.ofChar?` and `Token.toChar` go back and forth: a token is written as the very character it
was read from.
-/

namespace PatternAutomata

/-- The operands that need no operator: one given character, or any one character of the
alphabet. -/
inductive Atom where
  | literal (c : Char)
  | dot
deriving DecidableEq, Repr

/-- How often the operand before it may be repeated: any number of times, at least once, at most
once. -/
inductive Quantifier where
  | star
  | plus
  | optional
deriving DecidableEq, Repr

/-- The lexical classes of a pattern's characters. -/
inductive Token where
  | atom (a : Atom)
  | quantifier (q : Quantifier)
  | pipe
  | leftParenthesis
  | rightParenthesis
deriving DecidableEq, Repr

/-- The character that is written for an atom. -/
def Atom.toChar : Atom → Char
  | literal c => c
  | dot => '.'

/-- The characters that an atom matches, in alphabet order. -/
def Atom.characters : Atom → List Char
  | literal c => [c]
  | dot => alphabet.toList

/-- The character that is written for a quantifier. -/
def Quantifier.toChar : Quantifier → Char
  | star => '*'
  | plus => '+'
  | optional => '?'

namespace Token

/-- The character that is written for a token. -/
def toChar : Token → Char
  | atom a => a.toChar
  | quantifier q => q.toChar
  | pipe => '|'
  | leftParenthesis => '('
  | rightParenthesis => ')'

/-- The token that `c` is, or `none` if it is neither in the alphabet nor a mark. -/
def ofChar? (c : Char) : Option Token :=
  if c = '.' then some (atom .dot)
  else if c = '*' then some (quantifier .star)
  else if c = '+' then some (quantifier .plus)
  else if c = '?' then some (quantifier .optional)
  else if c = '|' then some pipe
  else if c = '(' then some leftParenthesis
  else if c = ')' then some rightParenthesis
  else if inAlphabet c then some (atom (.literal c))
  else none

/-- A character is read as the token that is written with it. -/
theorem toChar_of_ofChar? {c : Char} {t : Token} (h : ofChar? c = some t) : t.toChar = c := by
  unfold ofChar? at h
  repeat' split at h
  all_goals first | contradiction | (cases h; simp_all [toChar, Atom.toChar, Quantifier.toChar])

end Token

end PatternAutomata
