import PatternAutomata.Phrase.Basic
import PatternAutomata.Tree

/-!
# From a phrase to its tree

The tree of a phrase keeps the operators and forgets the parentheses. Operators get the position of
their character; a concatenation, which has none, gets that of the first character of its right
operand. Of a run of quantifiers the one written last comes to stand innermost.
-/

namespace PatternAutomata

/-- The tree of a phrase whose text begins at the position `start`. -/
def Phrase.tree {k : Category} : Phrase k → (start : Nat) → Tree
  | literal c _, _ => .atom (.literal c)
  | dot, _ => .atom .dot
  | group inner, start => inner.tree (start + 1)
  | factor base run, start =>
    (run.zipIdx (start + base.text.length)).foldr (fun (q, position) t => .repetition position q t)
      (base.tree start)
  | single f, start => f.tree start
  | juxtapose first rest, start =>
    let middle := start + first.text.length
    .concatenation middle (first.tree start) (rest.tree middle)
  | branch t, start => t.tree start
  | choice first rest, start =>
    let bar := start + first.text.length
    .alternation bar (first.tree start) (rest.tree (bar + 1))

end PatternAutomata
