import PatternAutomata.Arena.Fragment

/-!
# Building by steps

An arena can be built by hand, one step at a time. The workbench holds the arena and every fragment
made so far; steps name states by their number and fragments by their place in that list. Fragments
may be used again, and a fragment may be made of any two states. A step that names what does not
exist is refused.
-/

namespace PatternAutomata

/-- One step of a construction. -/
inductive Step where
  | state
  | edge (source : StateId) (symbol : Symbol) (target : StateId)
  | fragment (entry exit : StateId)
  | literal (c : Char)
  | wildcard (characters : List Char)
  | concatenate (first second : Nat)
  | alternate (left right : Nat)
  | quantify (q : Quantifier) (inner : Nat)
deriving DecidableEq, Repr

/-- What a step makes. -/
inductive Product where
  | state (id : StateId)
  | edge
  | fragment (f : Fragment)
deriving DecidableEq, Repr

/-- An arena under construction, and the fragments made in it, in order. -/
structure Workbench where
  arena : Arena := {}
  fragments : Array Fragment := #[]
deriving DecidableEq, Repr

namespace Workbench

/-- Takes over an extended arena, with a new fragment in it. -/
def place (w : Workbench) : Arena × Fragment → Product × Workbench
  | (arena, f) => (.fragment f, ⟨arena, w.fragments.push f⟩)

/-- Carries out a step, unless it names a state or fragment that does not exist. -/
def perform (w : Workbench) : Step → Option (Product × Workbench)
  | .state => some (.state w.arena.size, { w with arena := w.arena.addState })
  | .edge source symbol target =>
    if source < w.arena.size ∧ target < w.arena.size then
      some (.edge, { w with arena := w.arena.addEdge source symbol target })
    else none
  | .fragment entry exit =>
    if entry < w.arena.size ∧ exit < w.arena.size then some (w.place (w.arena, ⟨entry, exit⟩))
    else none
  | .literal c => some (w.place (w.arena.literal c))
  | .wildcard characters => some (w.place (w.arena.wildcard characters))
  | .concatenate first second => do
    let f ← w.fragments[first]?
    let g ← w.fragments[second]?
    return w.place (w.arena.concatenate f g)
  | .alternate left right => do
    let f ← w.fragments[left]?
    let g ← w.fragments[right]?
    return w.place (w.arena.alternate f g)
  | .quantify q inner => do
    let f ← w.fragments[inner]?
    return w.place (w.arena.quantify q f)

/-- Carries out steps in order, with the product of each. -/
def performAll (w : Workbench) : List Step → Option (List Product × Workbench)
  | [] => some ([], w)
  | step :: rest => do
    let (product, w) ← w.perform step
    let (products, w) ← w.performAll rest
    return (product :: products, w)

end Workbench

end PatternAutomata
