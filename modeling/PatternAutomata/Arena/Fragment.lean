import PatternAutomata.Arena.Basic
import PatternAutomata.Token

/-!
# Fragments

A fragment is a pair of states of an arena, seen as a partial automaton: the words it stands for are
those spelt on the way from its entry to its exit. The functions here build fragments from
characters and from other fragments. Each returns the extended arena and the new fragment; a pair
of new states is always numbered entry first.

`repeated` and `concatenate` add no states, they reuse those of their operands. `skippable` must not
do so: an edge from the operand's own entry to its own exit could be taken after a loop inside the
operand has come back to its entry, and what follows the exit may be another loop. It therefore
puts two new states around the operand and skips between these.
-/

namespace PatternAutomata

/-- An entry and an exit, both states of the arena that the fragment belongs to. -/
structure Fragment where
  entry : StateId
  exit : StateId
deriving DecidableEq, Repr, Inhabited

namespace Arena

/-- Adds an entry and an exit without edges. -/
def addPair (a : Arena) : Arena × Fragment :=
  let entry := a.size
  (a.addState.addState, ⟨entry, entry + 1⟩)

/-- One edge from a new entry to a new exit for each of the given characters. -/
def wildcard (a : Arena) (characters : List Char) : Arena × Fragment :=
  let (a, f) := a.addPair
  (characters.foldl (fun a c => a.addEdge f.entry (.char c) f.exit) a, f)

/-- A new entry and a new exit, with an edge on the given character. -/
def literal (a : Arena) (c : Char) : Arena × Fragment := a.wildcard [c]

/-- The fragment of an operand that needs no operator. -/
def atom (a : Arena) (x : Atom) : Arena × Fragment := a.wildcard x.characters

/-- Leads from the exit of `f` to the entry of `g`. -/
def concatenate (a : Arena) (f g : Fragment) : Arena × Fragment :=
  (a.addEmpty f.exit g.entry, ⟨f.entry, g.exit⟩)

/-- A new entry that leads to both entries, and a new exit to which both exits lead. -/
def alternate (a : Arena) (f g : Fragment) : Arena × Fragment :=
  let (a, h) := a.addPair
  let a := a.addEmpty h.entry f.entry
  let a := a.addEmpty h.entry g.entry
  let a := a.addEmpty f.exit h.exit
  let a := a.addEmpty g.exit h.exit
  (a, h)

/-- Leads from the exit back to the entry: the fragment once or more. -/
def repeated (a : Arena) (f : Fragment) : Arena × Fragment := (a.addEmpty f.exit f.entry, f)

/-- New states around `f` and a way past it: the fragment once or not at all. -/
def skippable (a : Arena) (f : Fragment) : Arena × Fragment :=
  let (a, h) := a.addPair
  let a := a.addEmpty h.entry f.entry
  let a := a.addEmpty f.exit h.exit
  let a := a.addEmpty h.entry h.exit
  (a, h)

/-- A fragment as often as the quantifier says. -/
def quantify (a : Arena) (q : Quantifier) (f : Fragment) : Arena × Fragment :=
  match q with
  | .plus => a.repeated f
  | .optional => a.skippable f
  | .star => (a.repeated f).1.skippable f

@[simp] theorem size_wildcard (a : Arena) (characters : List Char) :
    (a.wildcard characters).1.size = a.size + 2 := by
  have h (b : Arena) (s t : StateId) :
      (characters.foldl (fun b c => b.addEdge s (.char c) t) b).size = b.size := by
    induction characters generalizing b with
    | nil => rfl
    | cons c l ih => simp [ih]
  simp [wildcard, addPair, h]

@[simp] theorem size_concatenate (a : Arena) (f g : Fragment) :
    (a.concatenate f g).1.size = a.size := by simp [concatenate]

@[simp] theorem size_alternate (a : Arena) (f g : Fragment) :
    (a.alternate f g).1.size = a.size + 2 := by simp [alternate, addPair]

@[simp] theorem size_repeated (a : Arena) (f : Fragment) : (a.repeated f).1.size = a.size := by
  simp [repeated]

@[simp] theorem size_skippable (a : Arena) (f : Fragment) :
    (a.skippable f).1.size = a.size + 2 := by simp [skippable, addPair]

end Arena

end PatternAutomata
