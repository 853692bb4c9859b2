import PatternAutomata.Automaton.Basic
import PatternAutomata.Compilation.Assembly
import PatternAutomata.Tree

/-!
# The stack of fragments

Two views of what an application does to an assembly.

Of the stack it only matters how high it is: `Operator.arity` fragments go and one comes
(`length_of_apply`). This holds of every application that is made, wherever its operands come from.

If the operands are the fragments of trees, the application builds the fragment of the tree with the
operator on top (`apply_pushTree_pushTree`, `apply_pushTree`), and lists it behind the operators of
its subtrees.
-/

namespace PatternAutomata

/-- How many fragments an operator takes. -/
def Operator.arity : Operator → Nat
  | alternation | concatenation => 2
  | repetition _ => 1
  | group => 0

/-- The automaton of a tree, built in an arena of its own. -/
def Tree.automaton (t : Tree) : Automaton :=
  let (a, f) := t.build {}
  a.finish f

/-- A computation that goes through is made of steps that do. -/
theorem exists_of_bind_eq_ok {ε α β : Type} {x : Except ε α} {f : α → Except ε β} {b : β}
    (h : x.bind f = .ok b) : ∃ a, x = .ok a ∧ f a = .ok b := by
  cases x with
  | ok a => exact ⟨a, rfl, h⟩
  | error e => cases h

/-- A computation fails where one of its steps fails. -/
theorem exists_of_bind_eq_error {ε α β : Type} {x : Except ε α} {f : α → Except ε β} {e : ε}
    (h : x.bind f = .error e) : x = .error e ∨ ∃ a, x = .ok a ∧ f a = .error e := by
  cases x with
  | ok a => exact .inr ⟨a, rfl, h⟩
  | error e' =>
    cases h
    exact .inl rfl

namespace Assembly

variable {s s' : Assembly} {o : PlacedOperator} {l l' : List PlacedOperator}

/-! ### Applications in a row -/

theorem applyAll_cons : s.applyAll (o :: l) = (s.apply o).bind (·.applyAll l) := rfl

theorem applyAll_append : s.applyAll (l ++ l') = (s.applyAll l).bind (·.applyAll l') :=
  List.foldlM_append

theorem applyAll_concat (h : s.applyAll l = .ok s') : s.applyAll (l ++ [o]) = s'.apply o := by
  rw [applyAll_append, h]
  show (s'.apply o).bind _ = _
  cases s'.apply o <;> rfl

/-! ### The height of the stack -/

/-- **An application takes as many fragments as the operator needs and gives one**, and the operator
comes last in the list of those applied. An open parenthesis is never applied. -/
theorem length_of_apply (h : s.apply o = .ok s') :
    o.operator ≠ .group ∧ s'.fragments.length + o.operator.arity = s.fragments.length + 1 ∧
      s'.applied = s.applied.push o := by
  obtain ⟨a, fragments, applied⟩ := s
  obtain ⟨operator, position⟩ := o
  cases operator with
  | group => cases h
  | repetition q =>
    rcases fragments with _ | ⟨f, fragments⟩
    · cases h
    · obtain rfl := Except.ok.inj h
      exact ⟨nofun, rfl, rfl⟩
  | alternation | concatenation =>
    rcases fragments with _ | ⟨g, _ | ⟨f, fragments⟩⟩
    · cases h
    · cases h
    · obtain rfl := Except.ok.inj h
      exact ⟨nofun, rfl, rfl⟩

/-- An application finds its operands on the stack. -/
theorem arity_le_of_apply (h : s.apply o = .ok s') : o.operator.arity ≤ s.fragments.length := by
  obtain ⟨a, fragments, applied⟩ := s
  obtain ⟨operator, position⟩ := o
  cases operator with
  | group => exact Nat.zero_le _
  | repetition q =>
    rcases fragments with _ | ⟨f, fragments⟩
    · cases h
    · exact Nat.le_add_left 1 _
  | alternation | concatenation =>
    rcases fragments with _ | ⟨g, _ | ⟨f, fragments⟩⟩
    · cases h
    · cases h
    · exact Nat.le_add_left 2 _

/-! ### Trees on the stack -/

/-- Builds the fragment of a tree and lets it wait. -/
def pushTree (s : Assembly) (t : Tree) : Assembly :=
  ⟨(t.build s.arena).1, (t.build s.arena).2 :: s.fragments, s.applied ++ t.applications.toArray⟩

/-- A binary operator joins the trees of its operands. -/
theorem apply_pushTree_pushTree (s : Assembly) (left right : Tree) (position : Nat) :
    ((s.pushTree left).pushTree right).apply ⟨.concatenation, position⟩ =
        .ok (s.pushTree (.concatenation position left right)) ∧
      ((s.pushTree left).pushTree right).apply ⟨.alternation, position⟩ =
        .ok (s.pushTree (.alternation position left right)) := by
  constructor <;>
    simp [apply, pushTree, Tree.build, Tree.applications, Array.append_assoc]

/-- A quantifier is put on top of the tree of its operand. -/
theorem apply_pushTree (s : Assembly) (t : Tree) (q : Quantifier) (position : Nat) :
    (s.pushTree t).apply ⟨.repetition q, position⟩ =
      .ok (s.pushTree (.repetition position q t)) := by
  simp [apply, pushTree, Tree.build, Tree.applications]

end Assembly

end PatternAutomata
