import PatternAutomata.Proofs.Compilation.Tree
import PatternAutomata.Proofs.Tree.Relocation

/-!
# Reading a text that has been moved

While a pattern is read, positions are handed on from the lexemes to the operators and from there to
the log. No decision depends on them. So if a text is read at another place in a pattern, and from a
state whose operators stand at other positions, the same happens step by step, and only the
positions differ (`Compilation.readText_relocate`).
-/

namespace PatternAutomata

variable {f : Nat → Nat}

theorem Tree.automaton_relocate (t : Tree) : (t.relocate f).automaton = t.automaton := by
  unfold automaton
  rw [build_relocate]

namespace Assembly

/-- The assembly with other positions in its list of applied operators. -/
def relocate (f : Nat → Nat) (s : Assembly) : Assembly :=
  ⟨s.arena, s.fragments, s.applied.map (·.relocate f)⟩

variable {s s' : Assembly} {o : PlacedOperator} {l : List PlacedOperator}

theorem apply_relocate (h : s.apply o = .ok s') :
    (s.relocate f).apply (o.relocate f) = .ok (s'.relocate f) := by
  obtain ⟨arena, fragments, applied⟩ := s
  obtain ⟨operator, position⟩ := o
  cases operator with
  | group => cases h
  | repetition q =>
    rcases fragments with _ | ⟨inner, rest⟩
    · cases h
    · obtain rfl := Except.ok.inj h
      unfold relocate
      rw [Array.map_push]
      rfl
  | alternation | concatenation =>
    rcases fragments with _ | ⟨right, _ | ⟨left, rest⟩⟩
    · cases h
    · cases h
    · obtain rfl := Except.ok.inj h
      unfold relocate
      rw [Array.map_push]
      rfl

theorem applyAll_relocate (h : s.applyAll l = .ok s') :
    (s.relocate f).applyAll (l.map (·.relocate f)) = .ok (s'.relocate f) := by
  induction l generalizing s with
  | nil =>
    cases h
    rfl
  | cons o l ih =>
    rw [applyAll_cons] at h
    obtain ⟨m, hm, hrest⟩ := exists_of_bind_eq_ok h
    rw [List.map_cons, applyAll_cons, apply_relocate hm]
    exact ih hrest

/-- A tree on the stack, with its operators elsewhere. -/
theorem relocate_pushTree (s : Assembly) (t : Tree) :
    (s.pushTree t).relocate f = (s.relocate f).pushTree (t.relocate f) := by
  simp [pushTree, relocate, Tree.build_relocate, Tree.applications_relocate]

end Assembly

namespace Compilation

/-- The state of a compilation with its operators at other positions. -/
def relocate (f : Nat → Nat) (s : Compilation) : Compilation :=
  ⟨s.assembly.relocate f, s.operators.map (·.relocate f), s.afterOperand⟩

variable {s s' : Compilation} {position priority start start' : Nat} {t : Token}
  {text : List Char}

/-- At the beginning of a pattern there are no positions yet. -/
theorem relocate_empty : relocate f {} = {} := by
  simp [relocate, Assembly.relocate]

theorem applyTighter_relocate (h : s.applyTighter priority = .ok s') :
    (s.relocate f).applyTighter priority = .ok (s'.relocate f) := by
  obtain ⟨made, hoperators, hall, hflag, hhead, hmade⟩ := exists_of_applyTighter h
  -- how tight an operator binds is not a matter of where it stands
  have hupper : ∀ o ∈ made.map (·.relocate f), priority < o.operator.priority :=
    List.forall_mem_map.2 hmade
  have hlower : ∀ o ∈ (s'.operators.map (·.relocate f)).head?,
      o.operator.priority ≤ priority := by
    intro o ho
    rw [List.head?_map] at ho
    obtain ⟨o', ho', rfl⟩ := Option.map_eq_some_iff.1 ho
    exact hhead o' ho'
  unfold relocate
  rw [hoperators, List.map_append, applyTighter_append hupper hlower,
    Assembly.applyAll_relocate hall, hflag]
  rfl

theorem pushOperator_relocate {operator : Operator}
    (h : s.pushOperator operator position = .ok s') :
    (s.relocate f).pushOperator operator (f position) = .ok (s'.relocate f) := by
  obtain ⟨m, hm, hs'⟩ := exists_of_bind_eq_ok h
  cases hs'
  unfold pushOperator
  rw [applyTighter_relocate hm]
  rfl

theorem beginOperand_relocate (h : s.beginOperand position = .ok s') :
    (s.relocate f).beginOperand (f position) = .ok (s'.relocate f) := by
  have hflag : (s.relocate f).afterOperand = s.afterOperand := rfl
  unfold beginOperand at h ⊢
  rw [hflag]
  split_ifs at h ⊢
  · exact pushOperator_relocate h
  · cases h
    rfl

/-- **A token at another place is read in the same way.** -/
theorem read_relocate (h : s.read position t = .ok s') :
    (s.relocate f).read (f position) t = .ok (s'.relocate f) := by
  cases t with
  | atom a =>
    obtain ⟨m, hm, hs'⟩ := exists_of_bind_eq_ok h
    cases hs'
    show (s.relocate f).readAtom (f position) a = _
    unfold readAtom
    rw [beginOperand_relocate hm]
    rfl
  | leftParenthesis =>
    obtain ⟨m, hm, hs'⟩ := exists_of_bind_eq_ok h
    cases hs'
    show (s.relocate f).openGroup (f position) = _
    unfold openGroup
    rw [beginOperand_relocate hm]
    rfl
  | quantifier q =>
    obtain ⟨hflag, hpush⟩ := read_quantifier_eq_ok_iff.1 h
    exact read_quantifier_eq_ok_iff.2 ⟨hflag, pushOperator_relocate hpush⟩
  | pipe =>
    obtain ⟨m, hm, hs'⟩ := exists_of_bind_eq_ok h
    cases hs'
    show (s.relocate f).readBar (f position) = _
    unfold readBar
    rw [pushOperator_relocate hm]
    rfl
  | rightParenthesis =>
    obtain ⟨m, hm, hs'⟩ := exists_of_bind_eq_ok h
    obtain ⟨assembly, operators, flag⟩ := m
    cases operators with
    | nil => cases hs'
    | cons o outer =>
      cases hs'
      show (s.relocate f).closeGroup (f position) = _
      unfold closeGroup
      rw [applyTighter_relocate hm]
      rfl

/-- **A text at another place is read in the same way.** -/
theorem readText_relocate (h : s.readText start text = .ok s')
    (hf : Shifts f start start' text.length) :
    (s.relocate f).readText start' text = .ok (s'.relocate f) := by
  induction text generalizing s start start' with
  | nil =>
    cases h
    rfl
  | cons c text ih =>
    rw [readText_cons] at h
    obtain ⟨m, hm, hrest⟩ := exists_of_bind_eq_ok h
    have hfirst : f start = start' := hf 0 (Nat.zero_lt_succ _)
    have htext : Shifts f (start + 1) (start' + 1) text.length :=
      hf.drop 1 (by rw [List.length_cons]; omega)
    cases hc : Token.ofChar? c with
    | none =>
      rw [step_ofChar_of_none hc] at hm
      cases hm
    | some t =>
      rw [step_ofChar hc] at hm
      rw [readText_cons, step_ofChar hc, ← hfirst, read_relocate hm]
      exact ih hrest (by rwa [hfirst])

/-- A compilation knows no positions but those of the text that has been read. -/
theorem relocate_eq_self (h : readText {} 0 text = .ok s) (hf : ∀ k < text.length, f k = k) :
    s.relocate f = s := by
  have hshifts : Shifts f 0 0 text.length := by
    intro k hk
    rw [Nat.zero_add, hf k hk]
  have hagain := readText_relocate h hshifts
  rw [relocate_empty, h] at hagain
  exact (Except.ok.inj hagain).symm

/-- At the end of a pattern positions do not matter either. -/
theorem finish_relocate {m : Automaton} {applied : Array PlacedOperator}
    (h : s.finish = .ok (m, applied)) :
    (s.relocate f).finish = .ok (m, applied.map (·.relocate f)) := by
  obtain ⟨⟨⟨arena, fragments, done⟩, l, flag⟩, hm, hs'⟩ := exists_of_bind_eq_ok h
  rcases l with _ | ⟨o, l⟩
  · rcases fragments with _ | ⟨x, _ | ⟨y, fragments⟩⟩
    · cases hs'
    · cases hs'
      unfold finish
      rw [applyTighter_relocate hm]
      rfl
    · cases hs'
  · cases hs'

end Compilation

end PatternAutomata
