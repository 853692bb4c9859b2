/-!
# Quoted texts

In the log a pattern stands between quotes. The quote itself and the backslash are marked by a
backslash before them, some control characters are written with a letter, and what else cannot be
printed is written by its number. The printable characters of ASCII stand for themselves. Beyond
ASCII it depends on where the log is shown which characters can be printed; `isShown` says which.
-/

namespace PatternAutomata

/-- A character by its number, in hexadecimal digits. -/
def numberEscape (c : Char) : List Char :=
  "\\u\x7b".toList ++ Nat.toDigits 16 c.toNat ++ ['\x7d']

/-- How a character is written between quotes. -/
def quoteChar (isShown : Char → Bool) (c : Char) : List Char :=
  if c = '\x00' then ['\\', '0']
  else if c = '\t' then ['\\', 't']
  else if c = '\n' then ['\\', 'n']
  else if c = '\r' then ['\\', 'r']
  else if c = '\"' ∨ c = '\\' then ['\\', c]
  else if 32 ≤ c.toNat ∧ c.toNat < 127 ∨ 128 ≤ c.toNat ∧ isShown c = true then [c]
  else numberEscape c

/-- A text between quotes. -/
def quote (isShown : Char → Bool) (s : String) : String :=
  "\"" ++ String.ofList (s.toList.flatMap (quoteChar isShown)) ++ "\""

end PatternAutomata
