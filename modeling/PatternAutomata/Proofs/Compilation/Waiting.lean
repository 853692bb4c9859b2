import Mathlib.Data.List.Chain
import PatternAutomata.Proofs.Compilation.Account
import PatternAutomata.Proofs.Compilation.Settling

/-!
# What waits on the stack of operators

Three things that hold of every compilation of a text.

Between two open parentheses no operator waits above one that binds tighter
(`isGraded_of_readText`).

Where an operand is due, nothing waits above the bar or the open parenthesis after which it is due
(`head_of_readText`). If no operand is due although there is no fragment, then all operands of the
text are empty groups, so somewhere in it a parenthesis is opened and closed at once
(`afterOperand_of_fragments_eq_nil`).

While an operator waits, nobody looks at it or at anything below it: what is above it changes as
if that were the whole stack (`read_above`).
-/

namespace PatternAutomata

/-- Down to the next open parenthesis, no operator waits above one that binds tighter. -/
def IsGraded (l : List PlacedOperator) : Prop :=
  l.IsChain fun upper lower =>
    upper.operator = .group ∨ lower.operator.priority ≤ upper.operator.priority

theorem countP_isGroup_cons_eq_zero {o : PlacedOperator} {l : List PlacedOperator} :
    (o :: l).countP PlacedOperator.isGroup = 0 ↔
      o.operator ≠ .group ∧ l.countP PlacedOperator.isGroup = 0 := by
  simp [List.countP_cons, PlacedOperator.isGroup, and_comm]

/-- In a graded stack an operator binds at most as tight as one above it, if no parenthesis has been
opened between them. -/
theorem IsGraded.priority_le {p o : PlacedOperator} {upper lower : List PlacedOperator}
    (h : IsGraded (p :: (upper ++ o :: lower)))
    (hgroup : (p :: upper).countP PlacedOperator.isGroup = 0) :
    o.operator.priority ≤ p.operator.priority := by
  induction upper generalizing p with
  | nil =>
    have hp := (countP_isGroup_cons_eq_zero.1 hgroup).1
    exact (List.isChain_cons_cons.1 h).1.resolve_left hp
  | cons q upper ih =>
    obtain ⟨hp, hgroup'⟩ := countP_isGroup_cons_eq_zero.1 hgroup
    obtain ⟨hfirst, hrest⟩ := List.isChain_cons_cons.1 h
    exact (ih hrest hgroup').trans (hfirst.resolve_left hp)

namespace Compilation

variable {s s' : Compilation} {priority position : Nat} {operator : Operator} {t : Token}
  {o : PlacedOperator} {upper upper' lower : List PlacedOperator} {text : List Char}

/-! ### The order of the operators -/

theorem isGraded_applyTighter (h : s.applyTighter priority = .ok s')
    (hs : IsGraded s.operators) : IsGraded s'.operators := by
  obtain ⟨applied, hoperators, _⟩ := exists_of_applyTighter h
  rw [hoperators] at hs
  exact (List.isChain_append.1 hs).2.1

/-- An operator makes room for itself. -/
theorem isGraded_pushOperator (h : s.pushOperator operator position = .ok s')
    (hs : IsGraded s.operators) : IsGraded s'.operators := by
  obtain ⟨m, hm, hs'⟩ := exists_of_bind_eq_ok h
  have hgraded := isGraded_applyTighter hm hs
  obtain ⟨_, _, _, _, hhead, _⟩ := exists_of_applyTighter hm
  cases hs'
  exact List.isChain_cons.2 ⟨fun o ho => .inr (hhead o ho), hgraded⟩

theorem isGraded_beginOperand (h : s.beginOperand position = .ok s')
    (hs : IsGraded s.operators) : IsGraded s'.operators := by
  unfold beginOperand at h
  split_ifs at h
  · exact isGraded_pushOperator h hs
  · cases h
    exact hs

theorem isGraded_read (h : s.read position t = .ok s') (hs : IsGraded s.operators) :
    IsGraded s'.operators := by
  cases t with
  | atom a =>
    obtain ⟨m, hm, hs'⟩ := exists_of_bind_eq_ok h
    cases hs'
    have hgraded := isGraded_beginOperand hm hs
    exact hgraded
  | leftParenthesis =>
    obtain ⟨m, hm, hs'⟩ := exists_of_bind_eq_ok h
    cases hs'
    exact List.isChain_cons.2 ⟨fun _ _ => .inl rfl, isGraded_beginOperand hm hs⟩
  | quantifier q =>
    exact isGraded_pushOperator (read_quantifier_eq_ok_iff.1 h).2 hs
  | pipe =>
    obtain ⟨m, hm, hs'⟩ := exists_of_bind_eq_ok h
    cases hs'
    have hgraded := isGraded_pushOperator hm hs
    exact hgraded
  | rightParenthesis =>
    obtain ⟨p, flag, hm, _⟩ := closeGroup_eq_ok h
    exact (List.isChain_cons.1 (isGraded_applyTighter hm hs)).2

/-- **The stack of operators is graded** after every text. -/
theorem isGraded_of_readText (h : readText {} 0 text = .ok s) : IsGraded s.operators := by
  induction text using List.reverseRecOn generalizing s with
  | nil =>
    cases h
    exact .nil
  | append_singleton text c ih =>
    obtain ⟨m, t, hm, _, hread⟩ := exists_of_readText_concat h
    exact isGraded_read hread (ih hm)

/-! ### Where an operand is due -/

/-- **Where no operand has ended**, the text is at its beginning, or the mark behind which it stands
waits on top of the stack. -/
theorem head_of_readText (h : readText {} 0 text = .ok s) (hflag : s.afterOperand = false) :
    text = [] ∧ s.operators = [] ∨
      ∃ l o rest, s.operators = o :: rest ∧
        (text = l ++ ['('] ∧ o.operator = .group ∨
          text = l ++ ['|'] ∧ o.operator = .alternation) := by
  cases text using List.reverseRecOn with
  | nil =>
    cases h
    exact .inl ⟨rfl, rfl⟩
  | append_singleton text c =>
    obtain ⟨m, t, hm, hc, hread⟩ := exists_of_readText_concat h
    have hchar := Token.toChar_of_ofChar? hc
    rw [(account_read hread).2] at hflag
    cases t with
    | atom _ | quantifier _ | rightParenthesis => cases hflag
    | leftParenthesis =>
      obtain ⟨next, _, hs'⟩ := exists_of_bind_eq_ok hread
      cases hs'
      exact .inr ⟨text, _, _, rfl, .inl ⟨by rw [← hchar]; rfl, rfl⟩⟩
    | pipe =>
      obtain ⟨next, hnext, hs'⟩ := exists_of_bind_eq_ok hread
      cases hs'
      obtain ⟨last, _, hnext'⟩ := exists_of_bind_eq_ok hnext
      cases hnext'
      exact .inr ⟨text, _, _, rfl, .inr ⟨by rw [← hchar]; rfl, rfl⟩⟩

/-- **Without empty groups**, where an operand has ended there is a fragment. -/
theorem afterOperand_of_fragments_eq_nil (hempty : ¬ ['(', ')'] <:+: text)
    (h : readText {} 0 text = .ok s) (hfragments : s.assembly.fragments = []) :
    s.afterOperand = false := by
  induction text using List.reverseRecOn generalizing s with
  | nil =>
    cases h
    rfl
  | append_singleton text c ih =>
    obtain ⟨m, t, hm, hc, hread⟩ := exists_of_readText_concat h
    have hchar := Token.toChar_of_ofChar? hc
    have hempty' : ¬ ['(', ')'] <:+: text :=
      fun hinside => hempty (hinside.trans (List.prefix_append text [c]).isInfix)
    have hend := (account_read hread).2
    cases t with
    | atom a =>
      obtain ⟨_, _, hs'⟩ := exists_of_bind_eq_ok hread
      cases hs'
      cases hfragments
    | leftParenthesis | pipe => exact hend
    | quantifier q =>
      obtain ⟨hafter, hpush⟩ := read_quantifier_eq_ok_iff.1 hread
      obtain ⟨next, hnext, hs'⟩ := exists_of_bind_eq_ok hpush
      cases hs'
      have hsame : next = m := eq_of_applyTighter hnext hfragments
      rw [hsame] at hfragments
      rw [ih hempty' hm hfragments] at hafter
      cases hafter
    | rightParenthesis =>
      obtain ⟨p, flag, hnext, _⟩ := closeGroup_eq_ok hread
      have hsame := eq_of_applyTighter hnext hfragments
      have hflag : m.afterOperand = false := ih hempty' hm (by rw [← hsame]; exact hfragments)
      -- the parenthesis closes the one on top of the stack, which then stands right before it
      rcases head_of_readText hm hflag with
        ⟨_, hnone⟩ | ⟨l, o, rest, hoperators, ⟨htext, _⟩ | ⟨_, halternation⟩⟩
      · rw [← hsame] at hnone
        cases hnone
      · refine absurd ⟨l, [], ?_⟩ hempty
        rw [htext, ← hchar, List.append_nil, List.append_assoc]
        rfl
      · rw [← hsame] at hoperators
        cases hoperators
        cases halternation

/-! ### Above a waiting operator -/

/-- What is applied above a list of operators that stays. -/
theorem applyTighter_above (h : s.applyTighter priority = .ok s')
    (hs' : s'.operators = upper' ++ lower) :
    ∃ applied, s.operators = applied ++ upper' ++ lower ∧
      { s with operators := applied ++ upper' }.applyTighter priority =
        .ok { s' with operators := upper' } := by
  obtain ⟨applied, hoperators, hall, hflag, hhead, htighter⟩ := exists_of_applyTighter h
  refine ⟨applied, by rw [hoperators, hs', List.append_assoc], ?_⟩
  have hupper : ∀ o ∈ upper'.head?, o.operator.priority ≤ priority := by
    intro o ho
    refine hhead o ?_
    rw [hs']
    exact List.mem_head?_append_of_mem_head? ho
  rw [applyTighter_append htighter hupper, hall, hflag]
  rfl

/-- An operator that waits when another has been put on the stack is that one, or has waited before.
-/
theorem pushOperator_above (h : s.pushOperator operator position = .ok s')
    (hs' : s'.operators = upper' ++ o :: lower) :
    (∃ upper, s.operators = upper ++ o :: lower ∧
        { s with operators := upper }.pushOperator operator position =
          .ok { s' with operators := upper' }) ∨
      upper' = [] ∧ o = ⟨operator, position⟩ ∧
        s.applyTighter operator.priority = .ok { s' with operators := lower } := by
  obtain ⟨m, hm, hpush⟩ := exists_of_bind_eq_ok h
  cases hpush
  cases upper' with
  | nil =>
    obtain ⟨rfl, rfl⟩ := List.cons.inj hs'
    exact .inr ⟨rfl, rfl, hm⟩
  | cons p upper' =>
    obtain ⟨rfl, hrest⟩ := List.cons.inj hs'
    obtain ⟨applied, hoperators, habove⟩ := applyTighter_above hm hrest
    refine .inl ⟨applied ++ upper', hoperators, ?_⟩
    show (applyTighter _ _).bind _ = _
    rw [habove]
    rfl

theorem beginOperand_above (h : s.beginOperand position = .ok s')
    (hs' : s'.operators = upper' ++ o :: lower) :
    (∃ upper, s.operators = upper ++ o :: lower ∧
        { s with operators := upper }.beginOperand position =
          .ok { s' with operators := upper' }) ∨
      upper' = [] ∧ o = ⟨.concatenation, position⟩ ∧ s.afterOperand = true ∧
        s.applyTighter Operator.concatenation.priority = .ok { s' with operators := lower } := by
  unfold beginOperand at h
  split_ifs at h with hflag
  · rcases pushOperator_above h hs' with ⟨upper, hoperators, habove⟩ | ⟨hupper, ho, happly⟩
    · refine .inl ⟨upper, hoperators, ?_⟩
      unfold beginOperand
      rw [if_pos hflag]
      exact habove
    · exact .inr ⟨hupper, ho, hflag, happly⟩
  · cases h
    refine .inl ⟨upper', hs', ?_⟩
    unfold beginOperand
    rw [if_neg hflag]

/-- **Above a waiting operator** a token is read as if nothing waited below. If the operator has
only just come, all that can be above it is an open parenthesis that has come with it, and the count
of omitted operands falls below zero by the fragments that were there when it came. -/
theorem read_above (h : s.read position t = .ok s') (hs' : s'.operators = upper' ++ o :: lower)
    (hbinary : o.operator.arity = 2) :
    (∃ upper, s.operators = upper ++ o :: lower ∧
        { s with operators := upper }.read position t = .ok { s' with operators := upper' }) ∨
      o ∈ t.brings s.afterOperand position ∧
        (outline { s' with operators := upper' }).depth = (if t = .leftParenthesis then 1 else 0) ∧
        ∃ m, s.applyTighter o.operator.priority = .ok m ∧
          omitted { s' with operators := upper' } = -(m.assembly.fragments.length : Int) := by
  cases t with
  | atom a =>
    obtain ⟨m, hm, hread⟩ := exists_of_bind_eq_ok h
    cases hread
    rcases beginOperand_above hm hs' with ⟨upper, hoperators, habove⟩ | ⟨rfl, rfl, hflag, happly⟩
    · refine .inl ⟨upper, hoperators, ?_⟩
      show (beginOperand _ _).bind _ = _
      rw [habove]
      rfl
    · refine .inr ⟨?_, rfl, _, happly, ?_⟩
      · rw [hflag]
        exact List.mem_singleton_self _
      · rw [omitted_pushAtom, omitted_true, Int.add_sub_cancel]
        exact Int.zero_sub _
  | leftParenthesis =>
    obtain ⟨m, hm, hread⟩ := exists_of_bind_eq_ok h
    cases hread
    cases upper' with
    | nil =>
      obtain ⟨rfl, _⟩ := List.cons.inj hs'
      cases hbinary
    | cons p upper' =>
      obtain ⟨rfl, hrest⟩ := List.cons.inj hs'
      rcases beginOperand_above hm hrest with
        ⟨upper, hoperators, habove⟩ | ⟨rfl, rfl, hflag, happly⟩
      · refine .inl ⟨upper, hoperators, ?_⟩
        show (beginOperand _ _).bind _ = _
        rw [habove]
        rfl
      · refine .inr ⟨?_, rfl, _, happly, Int.zero_sub _⟩
        rw [hflag]
        exact List.mem_singleton_self _
  | quantifier q =>
    obtain ⟨hflag, hpush⟩ := read_quantifier_eq_ok_iff.1 h
    rcases pushOperator_above hpush hs' with ⟨upper, hoperators, habove⟩ | ⟨_, rfl, _⟩
    · exact .inl ⟨upper, hoperators, read_quantifier_eq_ok_iff.2 ⟨hflag, habove⟩⟩
    · cases hbinary
  | pipe =>
    obtain ⟨m, hm, hread⟩ := exists_of_bind_eq_ok h
    cases hread
    rcases pushOperator_above hm hs' with ⟨upper, hoperators, habove⟩ | ⟨rfl, rfl, happly⟩
    · refine .inl ⟨upper, hoperators, ?_⟩
      show (pushOperator _ _ _).bind _ = _
      rw [habove]
      rfl
    · exact .inr ⟨List.mem_singleton_self _, rfl, _, happly, Int.zero_sub _⟩
  | rightParenthesis =>
    obtain ⟨p, flag, hm, hflag⟩ := closeGroup_eq_ok h
    have hgroup : ⟨.group, p⟩ :: s'.operators = (⟨.group, p⟩ :: upper') ++ o :: lower := by
      rw [hs', List.cons_append]
    obtain ⟨applied, hoperators, habove⟩ := applyTighter_above hm hgroup
    refine .inl ⟨_, hoperators, ?_⟩
    show (applyTighter _ _).bind _ = _
    rw [habove, hflag]
    rfl

end Compilation

end PatternAutomata
