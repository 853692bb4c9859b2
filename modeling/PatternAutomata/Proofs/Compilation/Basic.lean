import Mathlib.Data.List.TakeWhile
import PatternAutomata.Compilation.Report
import PatternAutomata.Proofs.Token

/-!
# Reading a text in parts

`Compilation.readText` reads a piece of a pattern that begins at a given position, so that reading a
text one half after the other makes sense (`readText_append`).

What waits on the stack of operators is applied from the top down to the first operator that does
not bind tighter than the arriving one; `applyTighter_append` says so for a stack that is given in
two halves. The first token of an operand does two things, one after the other: it makes room for
the operand and then begins it (`read_of_beginsOperand`).
-/

namespace PatternAutomata.Compilation

variable {s : Compilation} {start position : Nat} {c : Char} {t : Token}

/-! ### Texts -/

/-- Reads a text that begins at the position `start`. -/
def readText (s : Compilation) (start : Nat) (text : List Char) : Except Rejection Compilation :=
  s.readAll ((text.zipIdx start).map fun (c, position) => Lexeme.ofChar position c)

theorem readText_cons {text : List Char} :
    s.readText start (c :: text) =
      (s.step (Lexeme.ofChar start c)).bind (·.readText (start + 1) text) := rfl

theorem readText_append {l r : List Char} :
    s.readText start (l ++ r) = (s.readText start l).bind (·.readText (start + l.length) r) := by
  unfold readText readAll
  rw [List.zipIdx_append, List.map_append, List.foldlM_append]
  rfl

theorem readText_append_of_ok {s' : Compilation} {l r : List Char}
    (h : s.readText start l = .ok s') :
    s.readText start (l ++ r) = s'.readText (start + l.length) r := by
  rw [readText_append, h]
  rfl

/-- A character that is a token is read as that token. -/
theorem step_ofChar (h : Token.ofChar? c = some t) :
    s.step (Lexeme.ofChar position c) = s.read position t := by
  unfold Lexeme.ofChar
  rw [h]
  rfl

theorem step_ofChar_of_none (h : Token.ofChar? c = none) :
    s.step (Lexeme.ofChar position c) =
      .error ⟨.unexpectedSymbol c position, s.assembly.applied⟩ := by
  unfold Lexeme.ofChar
  rw [h]
  rfl

theorem readText_singleton (h : Token.ofChar? c = some t) :
    s.readText start [c] = s.read start t := by
  rw [readText_cons, step_ofChar h]
  cases s.read start t <;> rfl

/-- How a pattern is compiled: its text is read from the beginning, then the rest is applied. -/
theorem report_eq (pattern : String) :
    report pattern =
      match (readText {} 0 pattern.toList).bind finish with
      | .ok (automaton, applied) => ⟨pattern, applied, .ok automaton⟩
      | .error rejection => ⟨pattern, rejection.applied, .error rejection.error⟩ := rfl

/-- A pattern that compiles is read to its end, and what waits there can be applied. -/
theorem finish_of_compile_eq_ok {pattern : String} {m : Automaton} (h : compile pattern = .ok m) :
    (readText {} 0 pattern.toList).bind finish = .ok (m, (report pattern).applied) := by
  unfold compile at h
  rw [report_eq] at h ⊢
  cases hs : (readText {} 0 pattern.toList).bind finish with
  | ok result =>
    rw [hs] at h
    cases h
    rfl
  | error r =>
    rw [hs] at h
    cases h

/-! ### The stack of operators -/

theorem applyTighter_eq {assembly : Assembly} {operators : List PlacedOperator} {flag : Bool}
    {priority : Nat} :
    (⟨assembly, operators, flag⟩ : Compilation).applyTighter priority =
      (assembly.applyAll
        (operators.takeWhile fun o => decide (priority < o.operator.priority))).map
        (⟨·, operators.dropWhile fun o => decide (priority < o.operator.priority), flag⟩) := by
  show (assembly.applyAll (operators.takeWhile _)).bind _ = _
  cases assembly.applyAll (operators.takeWhile _) <;> rfl

/-- What was on the stack consists of what has been applied, as it binds tighter, and what is left.
-/
theorem exists_of_applyTighter {priority : Nat} {s' : Compilation}
    (h : s.applyTighter priority = .ok s') :
    ∃ applied, s.operators = applied ++ s'.operators ∧
      s.assembly.applyAll applied = .ok s'.assembly ∧ s'.afterOperand = s.afterOperand ∧
      (∀ o ∈ s'.operators.head?, o.operator.priority ≤ priority) ∧
      ∀ o ∈ applied, priority < o.operator.priority := by
  obtain ⟨assembly, operators, flag⟩ := s
  rw [applyTighter_eq] at h
  cases hall : assembly.applyAll
      (operators.takeWhile fun o => decide (priority < o.operator.priority)) with
  | error e =>
    rw [hall] at h
    cases h
  | ok next =>
    rw [hall] at h
    cases h
    refine ⟨_, List.takeWhile_append_dropWhile.symm, hall, rfl, fun o ho => ?_, fun o ho => ?_⟩
    · have hnot := List.head?_dropWhile_not (fun o => decide (priority < o.operator.priority))
        operators
      rw [show (operators.dropWhile _).head? = some o from ho] at hnot
      simpa using hnot
    · exact of_decide_eq_true (List.mem_takeWhile_imp
        (p := fun o : PlacedOperator => decide (priority < o.operator.priority)) ho)

/-- If the upper half of the stack binds tighter and the lower half begins with an operator that
does not, then the upper half is applied and the lower half stays. -/
theorem applyTighter_append {assembly : Assembly} {upper lower : List PlacedOperator} {flag : Bool}
    {priority : Nat} (hupper : ∀ o ∈ upper, priority < o.operator.priority)
    (hlower : ∀ o ∈ lower.head?, o.operator.priority ≤ priority) :
    (⟨assembly, upper ++ lower, flag⟩ : Compilation).applyTighter priority =
      (assembly.applyAll upper).map (⟨·, lower, flag⟩) := by
  have hall : ∀ o ∈ upper, decide (priority < o.operator.priority) = true :=
    fun o ho => decide_eq_true (hupper o ho)
  -- the lower half is not touched, as its head already binds too weakly
  have hhead : lower.takeWhile (fun o => decide (priority < o.operator.priority)) = [] ∧
      lower.dropWhile (fun o => decide (priority < o.operator.priority)) = lower := by
    cases lower with
    | nil => exact ⟨rfl, rfl⟩
    | cons o lower =>
      have ho : ¬ priority < o.operator.priority := Nat.not_lt.2 (hlower o rfl)
      simp [ho]
  rw [applyTighter_eq, List.takeWhile_append_of_pos hall, List.dropWhile_append_of_pos hall,
    hhead.1, hhead.2, List.append_nil]

/-! ### Where an operand begins or is repeated -/

/-- The first token of an operand makes room for the operand, and then is read as if no operand had
come before it. -/
theorem read_of_beginsOperand (h : t.beginsOperand = true) :
    s.read position t =
      (s.beginOperand position).bind fun s => { s with afterOperand := false }.read position t := by
  cases t with
  | atom a =>
    show s.readAtom position a = _
    unfold readAtom
    cases s.beginOperand position <;> rfl
  | leftParenthesis =>
    show s.openGroup position = _
    unfold openGroup
    cases s.beginOperand position <;> rfl
  | quantifier | pipe | rightParenthesis => cases h

/-- A quantifier is put on the stack if it stands right behind an operand, and refused otherwise. -/
theorem read_quantifier_eq_ok_iff {s' : Compilation} {q : Quantifier} :
    s.read position (.quantifier q) = .ok s' ↔
      s.afterOperand = true ∧ s.pushOperator (.repetition q) position = .ok s' := by
  show s.readQuantifier position q = .ok s' ↔ _
  unfold readQuantifier
  cases s.afterOperand <;> simp

end PatternAutomata.Compilation
