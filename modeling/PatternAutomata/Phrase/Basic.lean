import PatternAutomata.Token

/-!
# The grammar of patterns

An expression is one or more terms with bars between them, a term is one or more factors side by
side, a factor is an atom with any run of quantifiers behind it, and an atom is a character of the
alphabet, a dot, or an expression in parentheses.

The grammar is given as a type: a `Phrase` is a derivation, indexed by what it derives, and
`Phrase.text` is the text that it derives. Nothing here reads a text. Whether a pattern follows the
grammar is therefore a question of existence (`IsPattern`).
-/

namespace PatternAutomata

/-- What the rules of the grammar derive. -/
inductive Category where
  | expression
  | term
  | factor
  | atom
deriving DecidableEq, Repr

/-- A derivation in the grammar of patterns. Terms and expressions end on the right, as the rules
that make them longer add to their left. -/
inductive Phrase : Category → Type where
  /-- A character that stands for itself. -/
  | literal (c : Char) (mem_alphabet : c ∈ alphabet.toList) : Phrase .atom
  /-- The wildcard. -/
  | dot : Phrase .atom
  /-- An expression in parentheses. -/
  | group (inner : Phrase .expression) : Phrase .atom
  /-- An atom and the quantifiers behind it, in the order in which they are written. -/
  | factor (base : Phrase .atom) (run : List Quantifier) : Phrase .factor
  /-- A factor by itself. -/
  | single (f : Phrase .factor) : Phrase .term
  /-- A factor with a term right behind it. -/
  | juxtapose (first : Phrase .factor) (rest : Phrase .term) : Phrase .term
  /-- A term by itself. -/
  | branch (t : Phrase .term) : Phrase .expression
  /-- A term, a bar and an expression. -/
  | choice (first : Phrase .term) (rest : Phrase .expression) : Phrase .expression

namespace Phrase

/-- The text that a phrase derives. -/
def text {k : Category} : Phrase k → List Char
  | literal c _ => [c]
  | dot => ['.']
  | group inner => '(' :: inner.text ++ [')']
  | factor base run => base.text ++ run.map Quantifier.toChar
  | single f => f.text
  | juxtapose first rest => first.text ++ rest.text
  | branch t => t.text
  | choice first rest => first.text ++ '|' :: rest.text

/-- No phrase derives the empty text. -/
theorem text_ne_nil {k : Category} (e : Phrase k) : e.text ≠ [] := by
  induction e with
  | literal | dot | group => simp [text]
  | factor _ _ ih => simp [text, ih]
  | single _ ih => simpa [text] using ih
  | juxtapose _ _ ih _ => simp [text, ih]
  | branch _ ih => simpa [text] using ih
  | choice => simp [text]

end Phrase

/-- The pattern follows the grammar. -/
def IsPattern (pattern : String) : Prop := ∃ e : Phrase .expression, e.text = pattern.toList

end PatternAutomata
