/-!
# The alphabet

The characters that stand for themselves in a pattern, given twice: `alphabet` lists them in the
order in which the wildcard enters them into an automaton, and `inAlphabet` decides membership by
range, without a search. Both name the 62 ASCII letters and digits and nothing else.
-/

namespace PatternAutomata

/-- Every character that a literal or the wildcard can stand for: lower case, upper case, digits. -/
def alphabet : String :=
  "abcdefghijklmnopqrstuvwxyz" ++ "ABCDEFGHIJKLMNOPQRSTUVWXYZ" ++ "0123456789"

/-- Whether `c` is an ASCII letter or digit. -/
def inAlphabet (c : Char) : Bool := c.isAlphanum

end PatternAutomata
