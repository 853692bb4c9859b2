import PatternAutomata.Phrase.Language
import PatternAutomata.Workbench.Basic

/-!
# What steps denote

The language that each fragment of a script is meant to have, computed from the steps alone. Only
those steps have a meaning in this sense that make a fragment out of characters or of fragments
made before; a script with other steps, or one that names a fragment not yet made, has none.
-/

namespace PatternAutomata

open scoped Computability

namespace Step

/-- The fragments that a step uses. -/
def operands : Step → List Nat
  | concatenate first second => [first, second]
  | alternate left right => [left, right]
  | quantify _ inner => [inner]
  | _ => []

/-- The language of the fragment that a step makes, given those of the earlier fragments. -/
def language? (earlier : List (Language Char)) : Step → Option (Language Char)
  | literal c => some {[c]}
  | wildcard characters => some {w | ∃ c ∈ characters, w = [c]}
  | concatenate first second => do
    let l ← earlier[first]?
    let m ← earlier[second]?
    return l * m
  | alternate left right => do
    let l ← earlier[left]?
    let m ← earlier[right]?
    return l + m
  | quantify q inner => do
    let l ← earlier[inner]?
    return q.onLanguage l
  | _ => none

/-- The languages of all fragments that a script makes, in order. -/
def languages? (steps : List Step) : Option (List (Language Char)) :=
  steps.foldlM (fun earlier step => (step.language? earlier).map (earlier ++ [·])) []

end Step

end PatternAutomata
