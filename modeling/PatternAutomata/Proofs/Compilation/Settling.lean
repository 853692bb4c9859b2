import Mathlib.Data.List.Infix
import PatternAutomata.Proofs.Compilation.Failure

/-!
# How a text is settled

The end of a pattern and a closing parenthesis begin alike: what waits above the innermost open
parenthesis is applied (`Compilation.settle`). Only then do they look at what is left.

For a text whose parentheses match three things can come of this (`settle_of_isBalanced`). An
operand is missing; or one fragment is left and nothing waits; or there is no fragment. More than
one are never left over, as an omitted operand can only make them fewer. And there is none only if
nothing has been read but open parentheses and then closing ones (`text_of_isBare`): a closing
parenthesis counts as the end of an operand even if its group is empty, so whatever follows would
put an operator on the stack, and an operator that is applied leaves a fragment behind.
-/

namespace PatternAutomata

/-- `n` groups inside each other with nothing in them. -/
def emptyGroups (n : Nat) : List Char := List.replicate n '(' ++ List.replicate n ')'

/-- The text closes no parenthesis that is not open. -/
def ClosesOnlyOpen (text : List Char) : Prop := ∀ l, l <+: text → l.count ')' ≤ l.count '('

/-- The parentheses of the text match. -/
structure IsBalanced (text : List Char) : Prop where
  closesOnlyOpen : ClosesOnlyOpen text
  count_eq : text.count '(' = text.count ')'

instance (text : List Char) : Decidable (ClosesOnlyOpen text) :=
  decidable_of_iff (∀ l ∈ text.inits, l.count ')' ≤ l.count '(')
    (by simp only [ClosesOnlyOpen, List.mem_inits])

instance (text : List Char) : Decidable (IsBalanced text) :=
  decidable_of_iff (ClosesOnlyOpen text ∧ text.count '(' = text.count ')')
    ⟨fun h => ⟨h.1, h.2⟩, fun h => ⟨h.1, h.2⟩⟩

/-- Operators that are applied leave a fragment behind. -/
theorem Assembly.eq_of_applyAll_eq_nil {s s' : Assembly} {l : List PlacedOperator}
    (h : s.applyAll l = .ok s') (hempty : s'.fragments = []) : l = [] ∧ s' = s := by
  induction l using List.reverseRecOn with
  | nil =>
    cases h
    exact ⟨rfl, rfl⟩
  | append_singleton l o _ =>
    rw [applyAll_append] at h
    obtain ⟨m, _, hlast⟩ := exists_of_bind_eq_ok h
    obtain ⟨next, hnext, hs'⟩ := exists_of_bind_eq_ok hlast
    cases hs'
    have harity := arity_le_of_apply hnext
    have hlength := (length_of_apply hnext).2.1
    rw [hempty, List.length_nil] at hlength
    omega

namespace Compilation

variable {s s' m : Compilation} {position start : Nat} {t : Token} {r : Rejection}
  {text : List Char}

/-! ### Empty groups -/

/-- Nothing but open parentheses waits, and there is no fragment. -/
structure IsBare (s : Compilation) : Prop where
  operators : ∀ o ∈ s.operators, o.operator = .group
  fragments : s.assembly.fragments = []

/-- If an application ends without fragments, nothing has been applied. -/
theorem eq_of_applyTighter {priority : Nat} (h : s.applyTighter priority = .ok m)
    (hempty : m.assembly.fragments = []) : m = s := by
  obtain ⟨applied, hoperators, hall, hflag, _⟩ := exists_of_applyTighter h
  obtain ⟨happlied, hassembly⟩ := Assembly.eq_of_applyAll_eq_nil hall hempty
  rw [happlied, List.nil_append] at hoperators
  obtain ⟨assembly, operators, flag⟩ := m
  obtain ⟨assembly', operators', flag'⟩ := s
  simp only at hoperators hassembly hflag
  rw [hoperators, hassembly, hflag]

/-- An operator that is put on the stack stays there. -/
theorem not_isBare_of_pushOperator {operator : Operator} (hgroup : operator ≠ .group)
    (h : s.pushOperator operator position = .ok s') {l : List PlacedOperator}
    (hsub : s'.operators ⊆ l) {a : Assembly} {flag : Bool} : ¬ IsBare ⟨a, l, flag⟩ := by
  intro hbare
  obtain ⟨next, _, hs'⟩ := exists_of_bind_eq_ok h
  cases hs'
  exact hgroup (hbare.operators _ (hsub List.mem_cons_self))

/-- **Only parentheses keep a compilation bare**: an open one where no operand has ended, or a
closing one. -/
theorem isBare_of_read (h : s.read position t = .ok s') (hbare : s'.IsBare) :
    s.IsBare ∧ (t = .leftParenthesis ∧ s.afterOperand = false ∨
      t = .rightParenthesis ∧ s'.afterOperand = true) := by
  cases t with
  | atom a =>
    obtain ⟨m, _, hs'⟩ := exists_of_bind_eq_ok h
    cases hs'
    exact absurd hbare.fragments (List.cons_ne_nil _ _)
  | leftParenthesis =>
    obtain ⟨m, hm, hs'⟩ := exists_of_bind_eq_ok h
    cases hs'
    unfold beginOperand at hm
    split_ifs at hm with hflag
    · exact absurd hbare (not_isBare_of_pushOperator (by decide) hm (List.subset_cons_self _ _))
    · cases hm
      have hoperators : ∀ o ∈ s.operators, o.operator = .group :=
        fun o ho => hbare.operators o (List.mem_cons_of_mem _ ho)
      exact ⟨⟨hoperators, hbare.fragments⟩, .inl ⟨rfl, Bool.eq_false_iff.2 hflag⟩⟩
  | quantifier q =>
    have hpush := (read_quantifier_eq_ok_iff.1 h).2
    have hgroup : Operator.repetition q ≠ .group := nofun
    exact absurd hbare (not_isBare_of_pushOperator hgroup hpush (List.Subset.refl _))
  | pipe =>
    obtain ⟨m, hm, hs'⟩ := exists_of_bind_eq_ok h
    cases hs'
    exact absurd hbare (not_isBare_of_pushOperator (by decide) hm (List.Subset.refl _))
  | rightParenthesis =>
    obtain ⟨p, flag, hm, hflag⟩ := closeGroup_eq_ok h
    have hs := eq_of_applyTighter hm hbare.fragments
    rw [← hs]
    refine ⟨⟨?_, hbare.fragments⟩, .inr ⟨rfl, hflag⟩⟩
    intro o ho
    rcases List.mem_cons.1 ho with rfl | hmem
    · rfl
    · exact hbare.operators o hmem

/-- **Where a compilation is bare, only parentheses have been read**, the open ones first. -/
theorem text_of_isBare (h : readText {} 0 text = .ok s) (hbare : s.IsBare) :
    ∃ a b, text = List.replicate a '(' ++ List.replicate b ')' ∧
      (s.afterOperand = false → b = 0) := by
  induction text using List.reverseRecOn generalizing s with
  | nil => exact ⟨0, 0, rfl, fun _ => rfl⟩
  | append_singleton text c ih =>
    obtain ⟨m, t, hm, hc, hlast⟩ := exists_of_readText_concat h
    have hchar := Token.toChar_of_ofChar? hc
    obtain ⟨hbare', hcase⟩ := isBare_of_read hlast hbare
    obtain ⟨a, b, htext, hb⟩ := ih hm hbare'
    rcases hcase with ⟨rfl, hflag⟩ | ⟨rfl, hflag⟩
    · -- no parenthesis has been closed yet, so this one joins the open ones
      rw [hb hflag, List.replicate_zero, List.append_nil] at htext
      refine ⟨a + 1, 0, ?_, fun _ => rfl⟩
      rw [htext, ← hchar, List.replicate_succ', List.replicate_zero, List.append_nil]
      rfl
    · refine ⟨a, b + 1, ?_, fun hfalse => ?_⟩
      · rw [htext, ← hchar, List.append_assoc, List.replicate_succ']
        rfl
      · rw [hflag] at hfalse
        cases hfalse

/-- Empty groups are read and leave nothing behind. -/
theorem readText_emptyGroups (n : Nat) (l : List PlacedOperator) (start : Nat) :
    ∃ flag, readText ⟨{}, l, false⟩ start (emptyGroups n) = .ok ⟨{}, l, flag⟩ := by
  induction n generalizing l start with
  | zero => exact ⟨false, rfl⟩
  | succ n ih =>
    obtain ⟨flag, hinner⟩ := ih (⟨.group, start⟩ :: l) (start + 1)
    have htext : emptyGroups (n + 1) = '(' :: (emptyGroups n ++ [')']) := by
      unfold emptyGroups
      rw [List.replicate_succ, List.replicate_succ', List.cons_append, List.append_assoc]
    refine ⟨true, ?_⟩
    rw [htext, readText_cons]
    show readText ⟨{}, ⟨.group, start⟩ :: l, false⟩ (start + 1) (emptyGroups n ++ [')']) = _
    rw [readText_append_of_ok hinner]
    rfl

/-! ### Where a text ends -/

/-- Reads a text and applies what waits above the innermost open parenthesis. -/
def settle (text : List Char) : Except Rejection Compilation :=
  (readText {} 0 text).bind (·.applyTighter Operator.group.priority)

theorem settle_emptyGroups {n : Nat} (h : text = emptyGroups n) :
    ∃ flag, settle text = .ok ⟨{}, [], flag⟩ := by
  obtain ⟨flag, hread⟩ := readText_emptyGroups n [] 0
  refine ⟨flag, ?_⟩
  unfold settle
  rw [h, hread]
  rfl

/-- Before a closing parenthesis a text is settled, and if that fails the parenthesis is not
reached. -/
theorem settle_append_of_error (rest : List Char) (h : settle text = .error r) :
    settle (text ++ ')' :: rest) = .error r := by
  have htext : readText {} 0 (text ++ ')' :: rest) = .error r := by
    rw [readText_append]
    rcases exists_of_bind_eq_error h with hread | ⟨s, hs, htighter⟩
    · rw [hread]
      rfl
    · rw [hs]
      show ((s.applyTighter Operator.group.priority).bind _).bind _ = _
      rw [htighter]
      rfl
  unfold settle
  rw [htext]
  rfl

/-- If nothing waits any more, the closing parenthesis has no counterpart. -/
theorem settle_append_of_ok (rest : List Char) (h : settle text = .ok m) (hm : m.operators = []) :
    settle (text ++ ')' :: rest) =
      .error ⟨.unmatchedParenthesis text.length, m.assembly.applied⟩ := by
  obtain ⟨s, hs, htighter⟩ := exists_of_bind_eq_ok h
  obtain ⟨assembly, operators, flag⟩ := m
  cases hm
  unfold settle
  rw [readText_append_of_ok hs, Nat.zero_add]
  show (((s.applyTighter Operator.group.priority).bind _).bind _).bind _ = _
  rw [htighter]
  rfl

/-- At its end a pattern is settled too; then one fragment must be left and nothing may wait. -/
theorem bind_finish (text : List Char) :
    (readText {} 0 text).bind finish = (settle text).bind fun s =>
      match s.operators, s.assembly.fragments with
      | [], [f] => .ok (s.assembly.arena.finish f, s.assembly.applied)
      | _, _ => .error ⟨.malformed, s.assembly.applied⟩ := by
  unfold settle
  cases readText {} 0 text <;> rfl

/-- **A text that closes only what is open** lacks an operand, or it is settled: no operand has been
found beyond those that were there, and what waits begins with an open parenthesis if anything
does. -/
theorem settle_of_closesOnlyOpen (htokens : ∀ c ∈ text, IsPatternCharacter c)
    (hcloses : ClosesOnlyOpen text) :
    (∃ r, settle text = .error r ∧ r.error.LacksOperand) ∨
      ∃ m, settle text = .ok m ∧ 0 ≤ m.omitted ∧
        (∀ o ∈ m.operators.head?, o.operator = .group) ∧
        m.outline.depth + text.count ')' = text.count '(' := by
  have hcount : ∀ l, l <+: text → l.count ')' ≤ (outline {}).depth + l.count '(' := by
    intro l hl
    exact (hcloses l hl).trans (Nat.le_add_left _ _)
  have hread : (∃ s, readText {} 0 text = .ok s ∧
        s.outline.depth + text.count ')' = (outline {}).depth + text.count '(') ∨
      ∃ r, readText {} 0 text = .error r ∧ r.error.LacksOperand :=
    readText_of_count_le htokens hcount
  rcases hread with ⟨s, hs, hdepth⟩ | ⟨r, hr, hlacks⟩
  · have hsettle : settle text = s.applyTighter Operator.group.priority := by
      unfold settle
      rw [hs]
      rfl
    rw [hsettle]
    cases htighter : s.applyTighter Operator.group.priority with
    | error r => exact .inl ⟨r, rfl, lacksOperand_of_applyTighter htighter⟩
    | ok m =>
      have homitted : (omitted {} : Int) ≤ s.omitted := (readText_eq_ok hs).1
      obtain ⟨hkeep, houtline⟩ := applyTighter_eq_ok htighter
      rw [← hkeep] at homitted
      refine .inr ⟨m, rfl, homitted, head_of_applyTighter_group htighter, ?_⟩
      have hzero : (outline {}).depth = 0 := rfl
      rw [houtline, hdepth, hzero, Nat.zero_add]
  · refine .inl ⟨r, ?_, hlacks⟩
    unfold settle
    rw [hr]
    rfl

/-- **What comes of a text whose parentheses match**: an operand is missing, or one fragment is left
and nothing waits, or there was nothing in its groups. -/
theorem settle_of_isBalanced (htokens : ∀ c ∈ text, IsPatternCharacter c) (h : IsBalanced text) :
    (∃ r, settle text = .error r ∧ r.error.LacksOperand) ∨
      (∃ m f, settle text = .ok m ∧ m.operators = [] ∧ m.assembly.fragments = [f]) ∨
      ∃ n, text = emptyGroups n := by
  rcases settle_of_closesOnlyOpen htokens h.closesOnlyOpen with
    hlacks | ⟨m, hm, homitted, hhead, hdepth⟩
  · exact .inl hlacks
  · have hcount := h.count_eq
    have hzero : m.outline.depth = 0 := by omega
    have hoperators : m.operators = [] := by
      cases hl : m.operators with
      | nil => rfl
      | cons o l =>
        have hgroup : o.operator = .group := hhead o (by rw [hl]; rfl)
        have hnone := List.countP_eq_zero.1 hzero o (by rw [hl]; exact List.mem_cons_self)
        exact absurd (decide_eq_true hgroup) hnone
    -- an operand that is left out makes the fragments fewer, never more
    have hlength : m.assembly.fragments.length ≤ 1 := by
      have hflag : m.afterOperand.toNat ≤ 1 := Bool.toNat_le m.afterOperand
      unfold omitted at homitted
      rw [hoperators, demand] at homitted
      omega
    cases hfragments : m.assembly.fragments with
    | nil =>
      obtain ⟨s, hs, htighter⟩ := exists_of_bind_eq_ok hm
      have hms : m = s := eq_of_applyTighter htighter hfragments
      rw [← hms] at hs
      have hgroups : ∀ o ∈ m.operators, o.operator = .group := by
        rw [hoperators]
        exact List.forall_mem_nil _
      have hbare : m.IsBare := ⟨hgroups, hfragments⟩
      obtain ⟨a, b, htext, _⟩ := text_of_isBare hs hbare
      have hab : a = b := by
        rw [htext] at hcount
        simpa [List.count_replicate] using hcount
      exact .inr (.inr ⟨b, by rw [htext, hab]; rfl⟩)
    | cons f rest =>
      rw [hfragments, List.length_cons] at hlength
      have hrest : rest = [] := List.eq_nil_of_length_eq_zero (by omega)
      exact .inr (.inl ⟨m, f, hm, hoperators, by rw [hfragments, hrest]⟩)

end Compilation

end PatternAutomata
