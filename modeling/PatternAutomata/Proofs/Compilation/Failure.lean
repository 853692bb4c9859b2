import PatternAutomata.Proofs.Compilation.Outline

/-!
# How a compilation fails

A text of tokens can be refused for two reasons only: an operator lacks an operand, or a parenthesis
is closed that is not open. An application that fails lacks an operand, since open parentheses are
never applied (`applyTighter_eq_error`); so does a token that fails, unless it is a closing
parenthesis and none is open on the stack of operators (`read_eq_error`).

How many are open there can be told from the text alone, also where operands have been left out
(`depth_of_read`). Hence a text that closes only what it has opened either is read to its end or
lacks an operand (`readText_of_count_le`).
-/

namespace PatternAutomata

/-- The error is that an operator lacks an operand. -/
def PatternError.LacksOperand (e : PatternError) : Prop :=
  ∃ operator position, e = .missingOperand operator position

namespace Assembly

variable {s : Assembly} {o : PlacedOperator} {l : List PlacedOperator} {r : Rejection}

/-! ### Applications -/

/-- An application that fails lacks an operand, and is not made. -/
theorem apply_eq_error (ho : o.operator ≠ .group) (h : s.apply o = .error r) :
    r = ⟨.missingOperand o.operator o.position, s.applied⟩ ∧
      s.fragments.length < o.operator.arity := by
  obtain ⟨a, fragments, applied⟩ := s
  obtain ⟨operator, position⟩ := o
  cases operator with
  | group => exact absurd rfl ho
  | repetition q =>
    rcases fragments with _ | ⟨f, fragments⟩
    · cases h
      exact ⟨rfl, Nat.one_pos⟩
    · cases h
  | alternation | concatenation =>
    rcases fragments with _ | ⟨g, _ | ⟨f, fragments⟩⟩
    · cases h
      exact ⟨rfl, Nat.two_pos⟩
    · cases h
      exact ⟨rfl, Nat.one_lt_two⟩
    · cases h

/-- Of several applications that fail, some are made, and the next one is the one that fails. -/
theorem exists_of_applyAll_eq_error (h : s.applyAll l = .error r) :
    ∃ made o rest m, l = made ++ o :: rest ∧ s.applyAll made = .ok m ∧ m.apply o = .error r := by
  induction l generalizing s with
  | nil => cases h
  | cons o l ih =>
    rw [applyAll_cons] at h
    rcases exists_of_bind_eq_error h with hfirst | ⟨next, hnext, hrest⟩
    · exact ⟨[], o, l, s, rfl, rfl, hfirst⟩
    · obtain ⟨made, o', rest, m, rfl, hmade, hlast⟩ := ih hrest
      refine ⟨o :: made, o', rest, m, rfl, ?_, hlast⟩
      rw [applyAll_cons, hnext]
      exact hmade

end Assembly

namespace Compilation

variable {s s' : Compilation} {position start : Nat} {t : Token} {r : Rejection}
  {text : List Char}

/-- Where the operators that bind tighter cannot all be applied, one of them fails after those above
it have been applied. -/
theorem exists_of_applyTighter_eq_error {priority : Nat} (h : s.applyTighter priority = .error r) :
    ∃ made o rest m, s.operators = made ++ o :: rest ∧ priority < o.operator.priority ∧
      s.assembly.applyAll made = .ok m ∧ m.apply o = .error r := by
  obtain ⟨assembly, operators, flag⟩ := s
  rw [applyTighter_eq] at h
  set isTighter := fun o : PlacedOperator => decide (priority < o.operator.priority)
  have hall : assembly.applyAll (operators.takeWhile isTighter) = .error r := by
    cases hall : assembly.applyAll (operators.takeWhile isTighter) with
    | ok next =>
      rw [hall] at h
      cases h
    | error e =>
      rw [hall] at h
      cases h
      rfl
  obtain ⟨made, o, rest, m, hsplit, hmade, hlast⟩ := Assembly.exists_of_applyAll_eq_error hall
  have ho : o ∈ operators.takeWhile isTighter := by
    rw [hsplit]
    exact List.mem_append_right made List.mem_cons_self
  refine ⟨made, o, rest ++ operators.dropWhile isTighter, m, ?_,
    of_decide_eq_true (List.mem_takeWhile_imp (p := isTighter) ho), hmade, hlast⟩
  show operators = _
  nth_rewrite 1 [← List.takeWhile_append_dropWhile (p := isTighter) (l := operators)]
  rw [hsplit, List.append_assoc, List.cons_append]

theorem applyTighter_eq_error {priority : Nat} (h : s.applyTighter priority = .error r) :
    ∃ o ∈ s.operators, r.error = .missingOperand o.operator o.position := by
  obtain ⟨made, o, rest, m, hsplit, hlt, _, hlast⟩ := exists_of_applyTighter_eq_error h
  -- an open parenthesis has the least priority, so it binds tighter than nothing
  have hgroup : o.operator ≠ .group :=
    Operator.priority_group_lt_iff.1 (Nat.lt_of_le_of_lt (Nat.zero_le priority) hlt)
  refine ⟨o, ?_, by rw [(Assembly.apply_eq_error hgroup hlast).1]⟩
  rw [hsplit]
  exact List.mem_append_right made List.mem_cons_self

/-! ### The tokens -/

theorem lacksOperand_of_applyTighter {priority : Nat} (h : s.applyTighter priority = .error r) :
    r.error.LacksOperand := by
  obtain ⟨o, _, herror⟩ := applyTighter_eq_error h
  exact ⟨o.operator, o.position, herror⟩

theorem applyTighter_of_pushOperator_eq_error {operator : Operator}
    (h : s.pushOperator operator position = .error r) :
    s.applyTighter operator.priority = .error r := by
  rcases exists_of_bind_eq_error h with htighter | ⟨_, _, hpush⟩
  · exact htighter
  · cases hpush

theorem applyTighter_of_beginOperand_eq_error (h : s.beginOperand position = .error r) :
    s.afterOperand = true ∧ s.applyTighter Operator.concatenation.priority = .error r := by
  unfold beginOperand at h
  split_ifs at h with hflag
  exact ⟨hflag, applyTighter_of_pushOperator_eq_error h⟩

/-- **Where a token is refused**: an operator that has waited cannot be applied, or the token is a
quantifier without an operand before it, or a closing parenthesis and none is open on the stack.
Only a bar or a closing parenthesis makes an operator be applied where no operand has ended. -/
theorem exists_of_read_eq_error (h : s.read position t = .error r) :
    (∃ priority, s.applyTighter priority = .error r ∧
        (s.afterOperand = true ∨ t = .pipe ∨ t = .rightParenthesis)) ∨
      (∃ q, t = .quantifier q ∧ s.afterOperand = false ∧
        r = ⟨.missingOperand (.repetition q) position, s.assembly.applied⟩) ∨
      t = .rightParenthesis ∧ ∃ m, s.applyTighter Operator.group.priority = .ok m ∧
        m.operators = [] ∧ r = ⟨.unmatchedParenthesis position, m.assembly.applied⟩ := by
  cases t with
  | atom a =>
    rcases exists_of_bind_eq_error h with hbegin | ⟨_, _, hread⟩
    · obtain ⟨hflag, htighter⟩ := applyTighter_of_beginOperand_eq_error hbegin
      exact .inl ⟨_, htighter, .inl hflag⟩
    · cases hread
  | leftParenthesis =>
    rcases exists_of_bind_eq_error h with hbegin | ⟨_, _, hread⟩
    · obtain ⟨hflag, htighter⟩ := applyTighter_of_beginOperand_eq_error hbegin
      exact .inl ⟨_, htighter, .inl hflag⟩
    · cases hread
  | quantifier q =>
    have hread : s.readQuantifier position q = .error r := h
    unfold readQuantifier at hread
    split_ifs at hread with hflag
    · exact .inl ⟨_, applyTighter_of_pushOperator_eq_error hread, .inl hflag⟩
    · cases hread
      exact .inr (.inl ⟨q, rfl, Bool.not_eq_true _ ▸ hflag, rfl⟩)
  | pipe =>
    rcases exists_of_bind_eq_error h with hpush | ⟨_, _, hread⟩
    · exact .inl ⟨_, applyTighter_of_pushOperator_eq_error hpush, .inr (.inl rfl)⟩
    · cases hread
  | rightParenthesis =>
    rcases exists_of_bind_eq_error h with htighter | ⟨⟨assembly, l, flag⟩, hm, hread⟩
    · exact .inl ⟨_, htighter, .inr (.inr rfl)⟩
    · cases l with
      | cons o outer => cases hread
      | nil =>
        cases hread
        exact .inr (.inr ⟨rfl, _, hm, rfl, rfl⟩)

/-- **Why a token is refused**: an operand is missing, or no parenthesis is open. -/
theorem read_eq_error (h : s.read position t = .error r) :
    r.error.LacksOperand ∨ t = .rightParenthesis ∧ s.outline.depth = 0 ∧
      r.error = .unmatchedParenthesis position := by
  rcases exists_of_read_eq_error h with
    ⟨_, htighter, _⟩ | ⟨q, _, _, rfl⟩ | ⟨ht, m, hm, hoperators, rfl⟩
  · exact .inl (lacksOperand_of_applyTighter htighter)
  · exact .inl ⟨_, _, rfl⟩
  · -- what is left of the stack has as many open parentheses as there were
    have houtline := (applyTighter_eq_ok hm).2
    refine .inr ⟨ht, ?_, rfl⟩
    rw [← houtline]
    unfold outline
    rw [hoperators]
    rfl

/-- Where the end of a pattern is refused: an operator that has waited cannot be applied, or what is
left then is not one fragment by itself. -/
theorem exists_of_finish_eq_error (h : s.finish = .error r) :
    s.applyTighter Operator.group.priority = .error r ∨
      ∃ m, s.applyTighter Operator.group.priority = .ok m ∧
        r = ⟨.malformed, m.assembly.applied⟩ := by
  rcases exists_of_bind_eq_error h with htighter | ⟨⟨⟨arena, fragments, applied⟩, l, flag⟩, hm, hs'⟩
  · exact .inl htighter
  · refine .inr ⟨_, hm, ?_⟩
    rcases l with _ | ⟨o, l⟩
    · rcases fragments with _ | ⟨f, _ | ⟨g, fragments⟩⟩
      · exact (Except.error.inj hs').symm
      · cases hs'
      · exact (Except.error.inj hs').symm
    · exact (Except.error.inj hs').symm

/-- **The open parentheses are counted**, whether or not the token can stand where it is. -/
theorem depth_of_read (h : s.read position t = .ok s') :
    s'.outline.depth + (if t = .rightParenthesis then 1 else 0) =
      s.outline.depth + (if t = .leftParenthesis then 1 else 0) := by
  cases t with
  | atom a =>
    obtain ⟨m, hm, hs'⟩ := exists_of_bind_eq_ok h
    cases hs'
    exact (beginOperand_eq_ok hm).2
  | leftParenthesis =>
    obtain ⟨m, hm, hs'⟩ := exists_of_bind_eq_ok h
    cases hs'
    rw [← (beginOperand_eq_ok hm).2, outline_push]
    rfl
  | quantifier q =>
    have hpush := (read_quantifier_eq_ok_iff.1 h).2
    have houtline := (pushOperator_eq_ok (by simp) hpush).2
    rw [houtline]
    rfl
  | pipe =>
    obtain ⟨m, hm, hs'⟩ := exists_of_bind_eq_ok h
    cases hs'
    have houtline := (pushOperator_eq_ok (by decide) hm).2
    rw [← houtline]
    rfl
  | rightParenthesis =>
    obtain ⟨p, flag, hm, _⟩ := closeGroup_eq_ok h
    have houtline := (applyTighter_eq_ok hm).2
    rw [← houtline, outline_push]
    rfl

/-! ### Texts -/

/-- A text that is read ends with a token that is read. -/
theorem exists_of_readText_concat {c : Char} (h : s.readText start (text ++ [c]) = .ok s') :
    ∃ m t, s.readText start text = .ok m ∧ Token.ofChar? c = some t ∧
      m.read (start + text.length) t = .ok s' := by
  rw [readText_append] at h
  obtain ⟨m, hm, hlast⟩ := exists_of_bind_eq_ok h
  cases hc : Token.ofChar? c with
  | none =>
    rw [readText_cons, step_ofChar_of_none hc] at hlast
    cases hlast
  | some t =>
    rw [readText_singleton hc] at hlast
    exact ⟨m, t, hm, rfl, hlast⟩

/-- A text that is refused is read up to some character, which is refused. -/
theorem exists_of_readText_eq_error (h : s.readText start text = .error r) :
    ∃ l c rest m, text = l ++ c :: rest ∧ s.readText start l = .ok m ∧
      m.step (Lexeme.ofChar (start + l.length) c) = .error r := by
  induction text generalizing s start with
  | nil => cases h
  | cons c text ih =>
    rw [readText_cons] at h
    rcases exists_of_bind_eq_error h with hfirst | ⟨next, hnext, hrest⟩
    · exact ⟨[], c, text, s, rfl, rfl, hfirst⟩
    · obtain ⟨l, d, rest, m, rfl, hm, hlast⟩ := ih hrest
      refine ⟨c :: l, d, rest, m, rfl, ?_, ?_⟩
      · rw [readText_cons, hnext]
        exact hm
      · rw [List.length_cons, Nat.add_comm l.length, ← Nat.add_assoc]
        exact hlast

/-- The first character of a text counts as the token that it is. -/
theorem count_toChar_cons (ht : t.IsWritten) (text : List Char) :
    (t.toChar :: text).count '(' = text.count '(' + (if t = .leftParenthesis then 1 else 0) ∧
      (t.toChar :: text).count ')' =
        text.count ')' + (if t = .rightParenthesis then 1 else 0) := by
  have hopen : t.toChar = '(' ↔ t = .leftParenthesis :=
    Token.toChar_inj (u := .leftParenthesis) ht trivial
  have hclose : t.toChar = ')' ↔ t = .rightParenthesis :=
    Token.toChar_inj (u := .rightParenthesis) ht trivial
  rw [List.count_cons, List.count_cons]
  simp only [beq_iff_eq, hopen, hclose, and_self]

/-- **A text of tokens that closes only what is open** is read to its end, or lacks an operand. -/
theorem readText_of_count_le (htokens : ∀ c ∈ text, IsPatternCharacter c)
    (hcount : ∀ l, l <+: text → l.count ')' ≤ s.outline.depth + l.count '(') :
    (∃ s', s.readText start text = .ok s' ∧
        s'.outline.depth + text.count ')' = s.outline.depth + text.count '(') ∨
      ∃ r, s.readText start text = .error r ∧ r.error.LacksOperand := by
  induction text generalizing s start with
  | nil => exact .inl ⟨s, rfl, rfl⟩
  | cons c text ih =>
    obtain ⟨t, ht⟩ := Option.isSome_iff_exists.1
      (Token.isSome_ofChar?_iff.2 (htokens c List.mem_cons_self))
    obtain ⟨rfl, hwritten⟩ := Token.ofChar?_eq_some_iff.1 ht
    have hfirst := count_toChar_cons hwritten
    rw [readText_cons, step_ofChar ht]
    cases hread : s.read start t with
    | error r =>
      refine .inr ⟨r, rfl, ?_⟩
      rcases read_eq_error hread with hlacks | ⟨rfl, hdepth, _⟩
      · exact hlacks
      · -- the parenthesis would be one more than are open
        have hle := hcount [Token.rightParenthesis.toChar] ⟨text, rfl⟩
        rw [hdepth] at hle
        exact absurd hle (by decide)
    | ok m =>
      have hdepth := depth_of_read hread
      have hcount' : ∀ l, l <+: text → l.count ')' ≤ m.outline.depth + l.count '(' := by
        intro l hl
        have hle := hcount (t.toChar :: l) (List.cons_prefix_cons.2 ⟨rfl, hl⟩)
        rw [(hfirst l).1, (hfirst l).2] at hle
        omega
      rcases ih (fun d hd => htokens d (List.mem_cons_of_mem _ hd)) hcount' with
        ⟨s', hs', heq⟩ | hlacks
      · refine .inl ⟨s', hs', ?_⟩
        rw [(hfirst text).1, (hfirst text).2]
        omega
      · exact .inr hlacks

end Compilation

end PatternAutomata
