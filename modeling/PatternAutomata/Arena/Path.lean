import PatternAutomata.Arena.Fragment

/-!
# Paths

What an arena means, said without an algorithm: a path from one state to another spells the word of
the characters on its edges, and edges on the empty symbol add nothing to it. A fragment accepts the
words that are spelt on a path from its entry to its exit.
-/

namespace PatternAutomata

namespace Arena

/-- Some path from the first state to the second spells the word. -/
inductive Path (a : Arena) : StateId → List Char → StateId → Prop where
  | nil (s : StateId) : Path a s [] s
  | empty {s t u : StateId} {w : List Char} :
      ⟨.empty, t⟩ ∈ a.edges s → Path a t w u → Path a s w u
  | char {s t u : StateId} {c : Char} {w : List Char} :
      ⟨.char c, t⟩ ∈ a.edges s → Path a t w u → Path a s (c :: w) u

/-- Paths that meet can be joined, and spell the joined word. -/
theorem Path.append {a : Arena} {s t u : StateId} {v w : List Char} (h : a.Path s v t)
    (k : a.Path t w u) : a.Path s (v ++ w) u := by
  induction h with
  | nil => exact k
  | empty he _ ih => exact .empty he (ih k)
  | char he _ ih => exact .char he (ih k)

/-- A path stays a path in every arena that has at least its edges. -/
theorem Path.mono {a b : Arena} (hab : ∀ s, ∀ e ∈ a.edges s, e ∈ b.edges s) {s t : StateId}
    {w : List Char} (h : a.Path s w t) : b.Path s w t := by
  induction h with
  | nil => exact .nil _
  | empty he _ ih => exact .empty (hab _ _ he) ih
  | char he _ ih => exact .char (hab _ _ he) ih

/-- The fragment accepts the word. -/
def Spells (a : Arena) (f : Fragment) (w : List Char) : Prop := a.Path f.entry w f.exit

end Arena

end PatternAutomata
