import Mathlib.Computability.Language
import PatternAutomata.Phrase.Basic

/-!
# The language of a phrase

What a phrase means, by recursion on the phrase and without an automaton: juxtaposition is the
product of languages, a bar their sum, and each quantifier an operation on a language. The
quantifiers of a run are applied in the order in which they are written, the first one directly to
the atom.
-/

namespace PatternAutomata

open scoped Computability

/-- What a quantifier makes of a language: its words in a row, any number of them, at least one, at
most one. -/
def Quantifier.onLanguage (q : Quantifier) (l : Language Char) : Language Char :=
  match q with
  | star => l∗
  | plus => l * l∗
  | optional => 1 + l

/-- The words that a phrase stands for. -/
def Phrase.language {k : Category} : Phrase k → Language Char
  | literal c _ => {[c]}
  | dot => {w | ∃ c ∈ alphabet.toList, w = [c]}
  | group inner => inner.language
  | factor base run => run.foldl (fun l q => q.onLanguage l) base.language
  | single f => f.language
  | juxtapose first rest => first.language * rest.language
  | branch t => t.language
  | choice first rest => first.language + rest.language

end PatternAutomata
