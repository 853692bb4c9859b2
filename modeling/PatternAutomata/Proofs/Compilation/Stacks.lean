import PatternAutomata.Proofs.Compilation.Checked
import PatternAutomata.Proofs.Compilation.Prefix
import PatternAutomata.Proofs.Compilation.Verdict
import PatternAutomata.Proofs.Compilation.Waiting

/-!
# The two stacks

What is true of the stacks and the flag after any tokens that have been read, whether or not a
pattern can begin with them (`Compilation.IsConsistent`): the open parentheses that wait are those
not yet closed; between them no operator waits above one that binds tighter; and there is at most
one fragment more than the waiting binary operators will use up, and only where an operand has just
ended. Every token keeps this (`IsConsistent.read`), for the reasons given in the modules on omitted
operands and on waiting operators.

Some answers are therefore never given, and what they would be is of no importance
(`isConsistent_of_readAll`). An application could be asked for an open parenthesis, or fail to take
an operand after it has found the stack high enough (`Assembly.applyChecked` makes these answers
visible, and `reportWith_applyChecked` says of whole compilations that they are not given); the end
of a pattern could find several fragments and nothing that waits. What is left as `malformed` is an
open parenthesis at the end, or nothing to compile.
-/

namespace PatternAutomata

/-- The operator joins two fragments. -/
def PlacedOperator.isBinary (o : PlacedOperator) : Bool := decide (o.operator.arity = 2)

/-- Only binary operators make the stack of fragments shorter, and each of them by one. -/
theorem demand_eq_countP (l : List PlacedOperator) :
    demand l = l.countP PlacedOperator.isBinary := by
  induction l with
  | nil => rfl
  | cons o l ih =>
    obtain ⟨operator, position⟩ := o
    rw [demand, ih, List.countP_cons, Nat.add_comm]
    cases operator <;> rfl

namespace Compilation

variable {s s' : Compilation} {tokens : List Token} {position : Nat} {t : Token}
  {m : Assembly} {o : PlacedOperator} {l : List Lexeme}

/-! ### What holds after every token -/

/-- What is true of the stacks and the flag after the tokens. -/
structure IsConsistent (tokens : List Token) (s : Compilation) : Prop where
  /-- The open parentheses that wait are those that have not been closed. -/
  groups : s.operators.countP PlacedOperator.isGroup + tokens.count .rightParenthesis =
    tokens.count .leftParenthesis
  /-- Between open parentheses, no operator waits above one that binds tighter. -/
  isGraded : IsGraded s.operators
  /-- There is at most one fragment more than waiting binary operators. -/
  length_le : s.assembly.fragments.length ≤ s.operators.countP PlacedOperator.isBinary + 1
  /-- Where no operand has just ended there is not even one more. -/
  length_le_of_due : s.afterOperand = false →
    s.assembly.fragments.length ≤ s.operators.countP PlacedOperator.isBinary

/-- The bounds on the fragments say that the count of omitted operands is not negative. -/
theorem omitted_nonneg_iff :
    0 ≤ s.omitted ↔
      s.assembly.fragments.length ≤ s.operators.countP PlacedOperator.isBinary + 1 ∧
        (s.afterOperand = false →
          s.assembly.fragments.length ≤ s.operators.countP PlacedOperator.isBinary) := by
  obtain ⟨assembly, operators, flag⟩ := s
  unfold omitted
  rw [demand_eq_countP]
  cases flag with
  | false =>
    simp only [Bool.toNat_false, forall_const]
    omega
  | true =>
    simp only [Bool.toNat_true, Bool.true_eq_false, false_implies, and_true]
    omega

namespace IsConsistent

theorem start : IsConsistent [] {} where
  groups := rfl
  isGraded := .nil
  length_le := Nat.zero_le _
  length_le_of_due _ := Nat.zero_le _

theorem omitted_nonneg (h : s.IsConsistent tokens) : 0 ≤ s.omitted :=
  omitted_nonneg_iff.2 ⟨h.length_le, h.length_le_of_due⟩

/-- **What every token keeps.** -/
theorem read (h : s.IsConsistent tokens) (hread : s.read position t = .ok s') :
    s'.IsConsistent (tokens ++ [t]) := by
  have homitted : 0 ≤ s'.omitted := by
    have hnonneg := h.omitted_nonneg
    rcases read_eq_ok hread with ⟨_, heq⟩ | ⟨_, heq⟩ <;> omega
  obtain ⟨hlength, hdue⟩ := omitted_nonneg_iff.1 homitted
  refine ⟨?_, isGraded_read hread h.isGraded, hlength, hdue⟩
  have hdepth : s'.operators.countP PlacedOperator.isGroup +
        (if t = .rightParenthesis then 1 else 0) =
      s.operators.countP PlacedOperator.isGroup + (if t = .leftParenthesis then 1 else 0) :=
    depth_of_read hread
  have hgroups := h.groups
  rw [List.count_append, List.count_append, List.count_singleton, List.count_singleton]
  simp only [beq_iff_eq]
  omega

/-- What every sequence of tokens keeps, wherever they stand. -/
theorem readAll (h : s.IsConsistent tokens) (hread : s.readAll (l.map .ok) = .ok s') :
    s'.IsConsistent (tokens ++ l.map (·.token)) := by
  induction l generalizing s tokens with
  | nil =>
    cases hread
    rwa [List.map_nil, List.append_nil]
  | cons x l ih =>
    obtain ⟨next, hnext, hrest⟩ := exists_of_bind_eq_ok hread
    have hfirst : s.read x.position x.token = .ok next := hnext
    have hlast := ih (h.read hfirst) hrest
    rwa [List.append_assoc] at hlast

end IsConsistent

/-! ### Answers that are never given -/

/-- No token is refused as malformed. -/
theorem ne_malformed_of_read {r : Rejection} (h : s.read position t = .error r) :
    r.error ≠ .malformed := by
  rcases read_eq_error h with ⟨_, _, herror⟩ | ⟨_, _, herror⟩
  · simp [herror]
  · simp [herror]

/-- Where nothing waits any more, there is one fragment at most. -/
theorem length_le_one {next : Compilation} {priority : Nat} (h : 0 ≤ s.omitted)
    (hnext : s.applyTighter priority = .ok next) (hoperators : next.operators = []) :
    next.assembly.fragments.length ≤ 1 := by
  rw [← (applyTighter_eq_ok hnext).1, omitted_nonneg_iff, hoperators] at h
  exact h.1

end Compilation

open Compilation

/-- No text is refused as malformed before what waits at its end has been applied. -/
theorem ne_malformed_of_settle {text : List Char} {r : Rejection} (h : settle text = .error r) :
    r.error ≠ .malformed := by
  rcases exists_of_bind_eq_error h with hread | ⟨s, _, htighter⟩
  · rcases Compilation.readText_eq_error hread with
      ⟨_, _, herror, _⟩ | ⟨_, _, herror, _⟩ | ⟨_, herror, _⟩
    · simp [herror]
    · simp [herror]
    · simp [herror]
  · obtain ⟨_, _, herror⟩ := lacksOperand_of_applyTighter htighter
    simp [herror]

/-- **When a pattern is malformed**: it has been read to its end and what waited there could be
applied, but a parenthesis is still open or there is nothing to compile. -/
theorem compile_eq_malformed_iff {pattern : String} :
    compile pattern = .error .malformed ↔
      ∃ s next, readAll {} (lexemes pattern) = .ok s ∧
        s.applyTighter Operator.group.priority = .ok next ∧
        (next.operators ≠ [] ∨ next.assembly.fragments = []) := by
  constructor
  · intro h
    cases hsettle : settle pattern.toList with
    | error r =>
      rw [compile_of_settle_error hsettle] at h
      exact absurd (Except.error.inj h) (ne_malformed_of_settle hsettle)
    | ok next =>
      obtain ⟨s, hread, hnext⟩ := exists_of_bind_eq_ok hsettle
      refine ⟨s, next, hread, hnext, ?_⟩
      by_contra hleft
      obtain ⟨hoperators, hfragments⟩ := not_or.1 hleft
      rw [not_not] at hoperators
      have hle := length_le_one (readText_eq_ok hread).1 hnext hoperators
      have hpos := List.length_pos_iff.2 hfragments
      obtain ⟨f, hf⟩ := List.length_eq_one_iff.1 (Nat.le_antisymm hle hpos)
      obtain ⟨a, ha⟩ := exists_compile_of_settle hsettle hoperators hf
      rw [ha] at h
      cases h
  · rintro ⟨s, next, hread, hnext, hleft⟩
    have hsettle : settle pattern.toList = .ok next := by
      unfold settle
      rw [show readText {} 0 pattern.toList = .ok s from hread]
      exact hnext
    apply compile_of_settle hsettle
    intro hoperators hlength
    rcases hleft with hwaiting | hnone
    · exact hwaiting hoperators
    · rw [hnone] at hlength
      exact absurd hlength (by decide)

/-- **The stacks after any tokens.** They are consistent with the tokens. From there on no open
parenthesis is applied, and what would be answered if an operand could not be taken after the height
of the stack has been checked does not matter; no token is refused as malformed; and at the end no
more than one fragment is left without anything that waits. A pattern is thus malformed exactly if a
parenthesis is open or no fragment is there after what waited at the end has been applied. -/
theorem isConsistent_of_readAll :
    (∀ (l : List Lexeme) (s : Compilation), readAll {} (l.map .ok) = .ok s →
      s.IsConsistent (l.map (·.token)) ∧
        (∀ m o, s.Calls m o →
          o.operator ≠ .group ∧ ∀ dead, m.applyChecked dead o = m.apply o) ∧
        (∀ position t r, s.read position t = .error r → r.error ≠ .malformed) ∧
        ∀ next, s.applyTighter Operator.group.priority = .ok next → next.operators = [] →
          next.assembly.fragments.length ≤ 1) ∧
      ∀ pattern, compile pattern = .error .malformed ↔
        ∃ s next, readAll {} (lexemes pattern) = .ok s ∧
          s.applyTighter Operator.group.priority = .ok next ∧
          (next.operators ≠ [] ∨ next.assembly.fragments = []) := by
  refine ⟨fun l s hread => ?_, fun pattern => compile_eq_malformed_iff⟩
  have hs : s.IsConsistent (l.map (·.token)) := IsConsistent.start.readAll hread
  refine ⟨hs, fun m o hcalls => ?_, fun _ _ _ => ne_malformed_of_read, fun next hnext => ?_⟩
  · exact ⟨hcalls.ne_group, Assembly.applyChecked_eq hcalls.ne_group⟩
  · exact length_le_one hs.omitted_nonneg hnext

/-- A bar that will take its left side from outside the group, before the group has been closed. -/
theorem isConsistent_of_readAll_open :
    ∃ s, readAll {} (lexemes "x(|a") = .ok s ∧
      s.IsConsistent [.atom (.literal 'x'), .leftParenthesis, .pipe, .atom (.literal 'a')] ∧
      (∀ dead, s.assembly.applyChecked dead ⟨.alternation, 2⟩ =
        s.assembly.apply ⟨.alternation, 2⟩) ∧
      (∀ r, s.read 4 .pipe = .error r → r.error ≠ .malformed) ∧
      compile "x(|a" = .error .malformed := by
  obtain ⟨s, next, hread, hcalls, hnext, hwaiting⟩ : ∃ s next,
      readAll {} (lexemes "x(|a") = .ok s ∧ s.Calls s.assembly ⟨.alternation, 2⟩ ∧
        s.applyTighter Operator.group.priority = .ok next ∧ next.operators ≠ [] :=
    ⟨_, _, rfl, ⟨0, [], [], rfl, rfl⟩, rfl, List.cons_ne_nil _ _⟩
  obtain ⟨hs, happlied, hrefused, _⟩ := isConsistent_of_readAll.1
    [⟨0, .atom (.literal 'x')⟩, ⟨1, .leftParenthesis⟩, ⟨2, .pipe⟩, ⟨3, .atom (.literal 'a')⟩] s
    hread
  exact ⟨s, hread, hs, (happlied _ _ hcalls).2, hrefused 4 .pipe,
    (isConsistent_of_readAll.2 "x(|a").2 ⟨s, next, hread, hnext, .inl hwaiting⟩⟩

end PatternAutomata
