import PatternAutomata.Proofs.Compilation.Assembly
import PatternAutomata.Proofs.Compilation.Basic
import PatternAutomata.Proofs.Phrase.Orderly

/-!
# Operands that are left out

The stack of fragments is not divided by open parentheses: an operator in a group that has no
operand there takes one from outside, and nothing seems to be wrong. That such a text is refused all
the same can be seen by counting. What the waiting operators will use up, and the fragments there
are, grow and shrink together, except where a bar or a closing parenthesis finds that no operand has
ended: there the fragments fall behind by one, and they never catch up (`Compilation.omitted`,
`read_eq_ok`). At the end one fragment must be left and no operator, so no operand has been left out
(`omitted_of_finish`).

Between such points a compilation moves as the outline of its text does: the open parentheses are
those on the stack of operators. A compilation that goes through thus follows an outline that ends
well (`readAll_of_compile_eq_ok`).
-/

namespace PatternAutomata

/-! ### What operators use up -/

/-- By how many fragments the stack gets shorter when the operator is applied. -/
def Operator.demand (o : Operator) : Nat := o.arity - 1

/-- By how many fragments the stack gets shorter when the operators are applied. -/
def demand : List PlacedOperator → Nat
  | [] => 0
  | o :: l => o.operator.demand + demand l

/-- The operator is an open parenthesis. -/
def PlacedOperator.isGroup (o : PlacedOperator) : Bool := decide (o.operator = .group)

theorem demand_append (l l' : List PlacedOperator) : demand (l ++ l') = demand l + demand l' := by
  induction l with
  | nil => simp [demand]
  | cons o l ih => rw [List.cons_append, demand, demand, ih, Nat.add_assoc]

theorem Assembly.length_of_applyAll {s s' : Assembly} {l : List PlacedOperator}
    (h : s.applyAll l = .ok s') :
    s'.fragments.length + demand l = s.fragments.length ∧ l.countP PlacedOperator.isGroup = 0 := by
  induction l generalizing s with
  | nil =>
    cases h
    exact ⟨rfl, rfl⟩
  | cons o l ih =>
    rw [applyAll_cons] at h
    obtain ⟨m, hm, hrest⟩ := exists_of_bind_eq_ok h
    obtain ⟨hgroup, hlength, _⟩ := length_of_apply hm
    obtain ⟨hlength', hcount⟩ := ih hrest
    have hdemand : o.operator.arity = o.operator.demand + 1 := by
      cases ho : o.operator with
      | group => exact absurd ho hgroup
      | alternation | concatenation | repetition _ => rfl
    have hnot : o.isGroup = false := decide_eq_false hgroup
    rw [demand, List.countP_cons_of_neg (by rw [hnot]; decide)]
    exact ⟨by omega, hcount⟩

namespace Compilation

variable {s s' : Compilation} {position : Nat} {t : Token}

/-- How many operands the text read so far has left out: by so many the fragments fall short of what
the waiting operators will use up and what is left then. -/
def omitted (s : Compilation) : Int :=
  (demand s.operators + s.afterOperand.toNat : Nat) - (s.assembly.fragments.length : Nat)

/-- The outline of the text read so far, if no operand has been left out. -/
def outline (s : Compilation) : Outline :=
  ⟨s.operators.countP PlacedOperator.isGroup, s.afterOperand⟩

/-! ### How the count changes -/

section

variable (assembly : Assembly) (l : List PlacedOperator) (o : PlacedOperator) (flag : Bool)

theorem omitted_push :
    omitted ⟨assembly, o :: l, flag⟩ = omitted ⟨assembly, l, flag⟩ + o.operator.demand := by
  unfold omitted
  simp only [demand]
  omega

theorem omitted_true : omitted ⟨assembly, l, true⟩ = omitted ⟨assembly, l, false⟩ + 1 := by
  unfold omitted
  simp only [Bool.toNat_true, Bool.toNat_false]
  omega

theorem omitted_pushAtom (a : Atom) :
    omitted ⟨assembly.pushAtom a, l, flag⟩ = omitted ⟨assembly, l, flag⟩ - 1 := by
  have hlength : (assembly.pushAtom a).fragments.length = assembly.fragments.length + 1 := rfl
  unfold omitted
  simp only [hlength]
  omega

theorem outline_push (operator : Operator) (position : Nat) :
    outline ⟨assembly, ⟨operator, position⟩ :: l, flag⟩ =
      ⟨(outline ⟨assembly, l, flag⟩).depth + (if operator = .group then 1 else 0), flag⟩ := by
  unfold outline
  simp only [List.countP_cons, PlacedOperator.isGroup, decide_eq_true_eq]

end

/-! ### The stack of operators -/

/-- An application changes neither the number of omitted operands nor the outline. -/
theorem applyTighter_eq_ok {priority : Nat} (h : s.applyTighter priority = .ok s') :
    s'.omitted = s.omitted ∧ s'.outline = s.outline := by
  obtain ⟨applied, hoperators, hall, hflag, _⟩ := exists_of_applyTighter h
  obtain ⟨hlength, hcount⟩ := Assembly.length_of_applyAll hall
  unfold omitted outline
  rw [hoperators, hflag, demand_append, List.countP_append, hcount, Nat.zero_add]
  constructor
  · omega
  · rfl

/-- If all is applied that binds tighter than an open parenthesis, such a parenthesis is left on top
of the stack, or nothing. -/
theorem head_of_applyTighter_group (h : s.applyTighter Operator.group.priority = .ok s') :
    ∀ o ∈ s'.operators.head?, o.operator = .group := by
  intro o ho
  obtain ⟨_, _, _, _, hhead, _⟩ := exists_of_applyTighter h
  by_contra hne
  have hlt := Operator.priority_group_lt_iff.2 hne
  exact absurd hlt (Nat.not_lt.2 (hhead o ho))

/-- A closing parenthesis removes an open one, once all above it has been applied. -/
theorem closeGroup_eq_ok (h : s.closeGroup position = .ok s') :
    ∃ p flag, s.applyTighter Operator.group.priority =
        .ok ⟨s'.assembly, ⟨.group, p⟩ :: s'.operators, flag⟩ ∧ s'.afterOperand = true := by
  obtain ⟨⟨assembly, l, flag⟩, hm, hs'⟩ := exists_of_bind_eq_ok h
  have hhead := head_of_applyTighter_group hm
  cases l with
  | nil => cases hs'
  | cons o outer =>
    cases hs'
    obtain ⟨operator, p⟩ := o
    have hgroup : operator = .group := hhead _ rfl
    rw [hgroup] at hm
    exact ⟨p, flag, hm, rfl⟩

theorem pushOperator_eq_ok {operator : Operator} (hgroup : operator ≠ .group)
    (h : s.pushOperator operator position = .ok s') :
    s'.omitted = s.omitted + operator.demand ∧ s'.outline = s.outline := by
  obtain ⟨m, hm, hs'⟩ := exists_of_bind_eq_ok h
  obtain ⟨homitted, houtline⟩ := applyTighter_eq_ok hm
  cases hs'
  rw [← homitted, ← houtline]
  refine ⟨omitted_push _ _ _ _, ?_⟩
  rw [outline_push, if_neg hgroup]
  rfl

/-- Room for an operand: a concatenation stands for the operand before it. -/
theorem beginOperand_eq_ok (h : s.beginOperand position = .ok s') :
    omitted ⟨s'.assembly, s'.operators, false⟩ = s.omitted ∧
      s'.outline.depth = s.outline.depth := by
  obtain ⟨assembly, l, flag⟩ := s
  cases flag with
  | false =>
    cases h
    exact ⟨rfl, rfl⟩
  | true =>
    have hpush : Compilation.pushOperator ⟨assembly, l, true⟩ .concatenation position = .ok s' := h
    obtain ⟨homitted, houtline⟩ := pushOperator_eq_ok (by decide) hpush
    obtain ⟨assembly', l', flag'⟩ := s'
    have hflag : flag' = true := congrArg Outline.afterOperand houtline
    refine ⟨?_, congrArg Outline.depth houtline⟩
    have hdemand : (Operator.concatenation.demand : Int) = 1 := rfl
    rw [hflag, omitted_true, hdemand] at homitted
    show omitted ⟨assembly', l', false⟩ = _
    omega

/-! ### The tokens -/

/-- **What a token does to the count**: it can stand where it is, and the outline goes on; or it
cannot, and an operand has been left out. -/
theorem read_eq_ok (h : s.read position t = .ok s') :
    (s.outline.read t = some s'.outline ∧ s'.omitted = s.omitted) ∨
      (s.outline.read t = none ∧ s'.omitted = s.omitted + 1) := by
  cases t with
  | atom a =>
    obtain ⟨m, hm, hs'⟩ := exists_of_bind_eq_ok h
    obtain ⟨homitted, hdepth⟩ := beginOperand_eq_ok hm
    cases hs'
    refine .inl ⟨?_, ?_⟩
    · show some (Outline.mk s.outline.depth true) = _
      rw [← hdepth]
      rfl
    · rw [omitted_pushAtom, omitted_true, homitted, Int.add_sub_cancel]
  | leftParenthesis =>
    obtain ⟨m, hm, hs'⟩ := exists_of_bind_eq_ok h
    obtain ⟨homitted, hdepth⟩ := beginOperand_eq_ok hm
    cases hs'
    refine .inl ⟨?_, ?_⟩
    · show some (Outline.mk (s.outline.depth + 1) false) = _
      rw [← hdepth, outline_push, if_pos rfl]
      rfl
    · have hdemand : (Operator.group.demand : Int) = 0 := rfl
      rw [omitted_push, homitted, hdemand, Int.add_zero]
  | quantifier q =>
    -- without an operand before it a quantifier is refused at once, so nothing is left out here
    obtain ⟨hflag, hpush⟩ := read_quantifier_eq_ok_iff.1 h
    obtain ⟨homitted, houtline⟩ := pushOperator_eq_ok (by simp) hpush
    have hdemand : ((Operator.repetition q).demand : Int) = 0 := rfl
    refine .inl ⟨?_, by rw [homitted, hdemand, Int.add_zero]⟩
    rw [houtline]
    unfold outline
    rw [hflag]
    rfl
  | pipe =>
    obtain ⟨m, hm, hs'⟩ := exists_of_bind_eq_ok h
    obtain ⟨homitted, houtline⟩ := pushOperator_eq_ok (by decide) hm
    obtain ⟨assembly, l, flag⟩ := m
    cases hs'
    have hdemand : (Operator.alternation.demand : Int) = 1 := rfl
    rw [hdemand] at homitted
    rw [← houtline]
    -- the bar will use up one fragment more, which the operand before it must have brought
    cases flag with
    | false => exact .inr ⟨rfl, homitted⟩
    | true =>
      rw [omitted_true] at homitted
      have hkeep : omitted ⟨assembly, l, false⟩ = s.omitted := by omega
      exact .inl ⟨rfl, hkeep⟩
  | rightParenthesis =>
    obtain ⟨p, flag, hm, hflag⟩ := closeGroup_eq_ok h
    obtain ⟨homitted, houtline⟩ := applyTighter_eq_ok hm
    obtain ⟨assembly, outer, flag'⟩ := s'
    cases hflag
    have hdemand : (Operator.group.demand : Int) = 0 := rfl
    rw [omitted_push, hdemand, Int.add_zero] at homitted
    rw [outline_push, if_pos rfl] at houtline
    rw [← houtline, ← homitted]
    cases flag with
    | false => exact .inr ⟨rfl, omitted_true _ _⟩
    | true => exact .inl ⟨rfl, rfl⟩

/-- **What a text does to the count**: it does not go down, and as long as it stays the same, the
outline is read. -/
theorem readText_eq_ok {text : List Char} {start : Nat} (h : s.readText start text = .ok s') :
    s.omitted ≤ s'.omitted ∧
      (s'.omitted = s.omitted → s.outline.readAll text = some s'.outline) := by
  induction text generalizing s start with
  | nil =>
    cases h
    exact ⟨Int.le_refl _, fun _ => rfl⟩
  | cons c text ih =>
    rw [readText_cons] at h
    obtain ⟨m, hm, hrest⟩ := exists_of_bind_eq_ok h
    obtain ⟨hle, heq⟩ := ih hrest
    cases hc : Token.ofChar? c with
    | none =>
      rw [step_ofChar_of_none hc] at hm
      cases hm
    | some t =>
      rw [step_ofChar hc] at hm
      rcases read_eq_ok hm with ⟨hread, homitted⟩ | ⟨_, homitted⟩
      · -- the count stays the same, and so does the rest of the way
        rw [← homitted]
        refine ⟨hle, fun hs' => ?_⟩
        rw [Outline.readAll_cons, Outline.readChar, hc]
        show (s.outline.read t).bind _ = _
        rw [hread]
        exact heq hs'
      · -- the count has gone up, and it does not come down again
        constructor
        · omega
        · intro hs'
          omega

/-- At the end no operand may have been left out. -/
theorem omitted_of_finish {result : Automaton × Array PlacedOperator}
    (h : s.finish = .ok result) :
    s.omitted ≤ 0 ∧ (s.omitted = 0 → s.outline = ⟨0, true⟩) := by
  obtain ⟨m, hm, hs'⟩ := exists_of_bind_eq_ok h
  obtain ⟨homitted, houtline⟩ := applyTighter_eq_ok hm
  obtain ⟨⟨arena, fragments, applied⟩, l, flag⟩ := m
  rw [← homitted, ← houtline]
  -- one fragment and no operator: the count is that of the flag, less one
  rcases l with _ | ⟨o, l⟩
  · rcases fragments with _ | ⟨f, _ | ⟨g, fragments⟩⟩
    · cases hs'
    · cases flag with
      | false =>
        have hminus : omitted ⟨⟨arena, [f], applied⟩, [], false⟩ = -1 := rfl
        rw [hminus]
        exact ⟨by decide, fun hzero => absurd hzero (by decide)⟩
      | true => exact ⟨Int.le_refl 0, fun _ => rfl⟩
    · cases hs'
  · cases hs'

end Compilation

/-- **A pattern that compiles has an outline that ends well.** -/
theorem readAll_of_compile_eq_ok {pattern : String} {m : Automaton} (h : compile pattern = .ok m) :
    Outline.readAll {} pattern.toList = some ⟨0, true⟩ := by
  obtain ⟨s, htext, hfinish⟩ := exists_of_bind_eq_ok (Compilation.finish_of_compile_eq_ok h)
  obtain ⟨hle, hread⟩ := Compilation.readText_eq_ok htext
  obtain ⟨hle', hend⟩ := Compilation.omitted_of_finish hfinish
  have hzero : s.omitted = 0 := Int.le_antisymm hle' hle
  rw [← hend hzero]
  exact hread hzero

end PatternAutomata
