import PatternAutomata.Workbench.Basic

/-!
# The history of a construction

A construction told by a chronicler who keeps no graph: how many states there are, which fragments
have been made, and every edge ever added, in the order in which they were. Nothing is sorted and
nothing is looked up but fragments. What an arena holds can be checked against it: the edges of a
state are those that were added to it, put in the order of their symbols.
-/

namespace PatternAutomata

/-- An edge with the state that it leaves. -/
structure Addition where
  source : StateId
  edge : Edge
deriving DecidableEq, Repr

/-- All that has been done in a construction. -/
structure History where
  states : Nat := 0
  fragments : List Fragment := []
  /-- The edges added, the earliest first. -/
  additions : List Addition := []
deriving DecidableEq, Repr

namespace History

/-- An edge on the empty symbol. -/
def link (source target : StateId) : Addition := ⟨source, .empty, target⟩

/-- The additions that lead around a fragment, between the new states `n` and `n + 1`. -/
def detour (n : Nat) (f : Fragment) : List Addition :=
  [link n f.entry, link f.exit (n + 1), link n (n + 1)]

/-- Records a fragment with the states and edges that were added for it. -/
def record (h : History) (states : Nat) (f : Fragment) (added : List Addition) : History :=
  ⟨h.states + states, h.fragments ++ [f], h.additions ++ added⟩

/-- Records a step, unless it names a state or fragment that does not exist. -/
def perform (h : History) (step : Step) : Option History :=
  -- the number that the next new state gets
  let n := h.states
  match step with
  | .state => some { h with states := h.states + 1 }
  | .edge source symbol target =>
    if source < h.states ∧ target < h.states then
      some { h with additions := h.additions ++ [⟨source, symbol, target⟩] }
    else none
  | .fragment entry exit =>
    if entry < h.states ∧ exit < h.states then some (h.record 0 ⟨entry, exit⟩ []) else none
  | .literal c => some (h.record 2 ⟨n, n + 1⟩ [⟨n, .char c, n + 1⟩])
  | .wildcard characters =>
    some (h.record 2 ⟨n, n + 1⟩ (characters.map fun c => ⟨n, .char c, n + 1⟩))
  | .concatenate first second => do
    let f ← h.fragments[first]?
    let g ← h.fragments[second]?
    return h.record 0 ⟨f.entry, g.exit⟩ [link f.exit g.entry]
  | .alternate left right => do
    let f ← h.fragments[left]?
    let g ← h.fragments[right]?
    return h.record 2 ⟨n, n + 1⟩
      [link n f.entry, link n g.entry, link f.exit (n + 1), link g.exit (n + 1)]
  | .quantify .plus inner => do
    let f ← h.fragments[inner]?
    return h.record 0 f [link f.exit f.entry]
  | .quantify .optional inner => do
    let f ← h.fragments[inner]?
    return h.record 2 ⟨n, n + 1⟩ (detour n f)
  | .quantify .star inner => do
    let f ← h.fragments[inner]?
    return h.record 2 ⟨n, n + 1⟩ (link f.exit f.entry :: detour n f)

/-- Records steps in order. -/
def performAll (h : History) (steps : List Step) : Option History := steps.foldlM perform h

end History

end PatternAutomata
