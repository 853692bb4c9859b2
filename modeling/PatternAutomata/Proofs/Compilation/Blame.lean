import PatternAutomata.Proofs.Compilation.Log
import PatternAutomata.Proofs.Compilation.Waiting

/-!
# Which operator is blamed

An operator is blamed for want of an operand when its turn comes to be applied. As the stack of
fragments is not divided by groups, the operand that is missing need not be its own: in `x(|a)` the
bar has taken `x`, and the concatenation before it is left with nothing (`not_blamed_at_bar`).

How far a blame can be trusted is said by `isShortIn_of_compile_eq_error`. The operator that is
blamed stands in the pattern, at the position that is given. A quantifier is blamed only where an
operand is due. If a bar or a concatenation is blamed, there is a bar with an empty side, at its
position or further to the right in its group. Texts with `()` are left out: a closing parenthesis
counts as the end of an operand even if nothing is in the group.

The reason is the count of omitted operands, taken only above the operator that waits. When the
operator comes, its left operand is there, so the count begins below zero; if it is still there when
the operator is applied, there are two fragments. So an operator that fails has seen the count go
up, and that takes a bar or a closing parenthesis where an operand is due (`waits_of_readText`).
-/

namespace PatternAutomata

/-- A bar between the two texts has an empty side. -/
def LacksSide (l r : List Char) : Prop := OperandDue l ∨ ∀ c ∈ r.head?, c = ')' ∨ c = '|'

instance (l r : List Char) : Decidable (LacksSide l r) :=
  decidable_of_iff (OperandDue l ∨ (r.head?.all fun c => c == ')' || c == '|') = true)
    (by simp [LacksSide, Option.all_eq_true])

/-- Why the text is short of an operand for the operator at its position. For a quantifier, an
operand is due there. For a binary operator, there is a bar with an empty side, at its position or
behind it, and between them nothing is closed that was open at its position; for a concatenation,
the bar is moreover in a group that has been opened between them. -/
def PlacedOperator.LacksOperandIn (o : PlacedOperator) (text : List Char) : Prop :=
  match o.operator with
  | .repetition q => ∃ l r, text = l ++ q.toChar :: r ∧ l.length = o.position ∧ OperandDue l
  | .alternation => ∃ before l r, text = before ++ (l ++ '|' :: r) ∧
      before.length = o.position ∧ ClosesOnlyOpen l ∧ LacksSide (before ++ l) r
  | .concatenation => ∃ before l r, text = before ++ (l ++ '|' :: r) ∧
      before.length = o.position ∧ ClosesOnlyOpen l ∧ l.count ')' < l.count '(' ∧
      LacksSide (before ++ l) r
  | .group => False

/-- The operator stands in the text, and the text is short of an operand for it. -/
structure PlacedOperator.IsShortIn (o : PlacedOperator) (text : List Char) : Prop where
  occursIn : o.OccursIn text
  lacksOperandIn : o.LacksOperandIn text

/-- A text that closes only what it opens, with a character at its end. -/
theorem ClosesOnlyOpen.concat {text : List Char} {c : Char} (h : ClosesOnlyOpen text)
    (hcount : (text ++ [c]).count ')' ≤ (text ++ [c]).count '(') :
    ClosesOnlyOpen (text ++ [c]) := by
  intro l hl
  rcases List.prefix_concat_iff.1 hl with rfl | hprefix
  · exact hcount
  · exact h l hprefix

/-- What the next character shows stays as it is when the text goes on. -/
theorem LacksSide.of_head? {l r rest : List Char}
    (h : OperandDue l ∨ ∃ c ∈ r.head?, c = ')' ∨ c = '|') : LacksSide l (r ++ rest) := by
  refine h.imp_right ?_
  rintro ⟨c, hc, hmark⟩ d hd
  have hsame : (r ++ rest).head? = some c := List.mem_head?_append_of_mem_head? hc
  rw [hsame] at hd
  cases hd
  exact hmark

namespace Compilation

variable {s s' x x' : Compilation} {priority position : Nat} {operator : Operator} {t : Token}
  {o : PlacedOperator} {upper lower : List PlacedOperator} {text before after rest : List Char}
  {r : Rejection}

/-! ### Where an operand is due -/

/-- **Where no operand has ended, one is due.** -/
theorem operandDue_of_readText (h : readText {} 0 text = .ok s) (hflag : s.afterOperand = false) :
    OperandDue text := by
  unfold OperandDue
  rcases head_of_readText h hflag with ⟨rfl, _⟩ | ⟨l, o, rest, _, ⟨rfl, _⟩ | ⟨rfl, _⟩⟩ <;> simp

/-- Where an operand is due and an operator of the same group waits, the operator is a bar, and so
is the last character. -/
theorem eq_alternation_of_readText (h : readText {} 0 text = .ok s) (hflag : s.afterOperand = false)
    (hs : s.operators = upper ++ o :: lower)
    (hgroup : upper.countP PlacedOperator.isGroup = 0) (ho : o.operator ≠ .group) :
    o.operator = .alternation ∧ ∃ l, text = l ++ ['|'] := by
  have hgraded := isGraded_of_readText h
  rw [hs] at hgraded
  rcases head_of_readText h hflag with ⟨_, hnone⟩ | ⟨l, p, rest, hoperators, hmark⟩
  · rw [hnone] at hs
    simp at hs
  · rw [hoperators] at hs
    cases upper with
    | nil =>
      obtain ⟨rfl, _⟩ := List.cons.inj hs
      rcases hmark with ⟨_, hp⟩ | ⟨htext, hp⟩
      · exact absurd hp ho
      · exact ⟨hp, l, htext⟩
    | cons q upper =>
      obtain ⟨rfl, _⟩ := List.cons.inj hs
      have hle := hgraded.priority_le hgroup
      rcases hmark with ⟨_, hp⟩ | ⟨htext, hp⟩
      · exact absurd hp (countP_isGroup_cons_eq_zero.1 hgroup).1
      · rw [hp] at hle
        refine ⟨?_, l, htext⟩
        cases hoperator : o.operator with
        | alternation => rfl
        | group => exact absurd hoperator ho
        | concatenation | repetition _ =>
          rw [hoperator] at hle
          exact absurd hle (Nat.not_le.2 (by simp [Operator.priority]))

/-! ### Above a waiting operator -/

/-- What the text behind a waiting operator says of the compilation above it. The left operand of
the operator is among the fragments, but nothing above the operator needs it, so that less than
nothing is omitted there; or else the text has a bar with an empty side. -/
structure Waits (before after : List Char) (x : Compilation) (o : PlacedOperator) : Prop where
  length_eq : before.length = o.position
  ne_nil : after ≠ []
  depth_eq : x.outline.depth + after.count ')' = after.count '('
  closesOnlyOpen : ClosesOnlyOpen after
  operands : x.omitted < 0 ∨ ∃ l r, after = l ++ '|' :: r ∧
    (OperandDue (before ++ l) ∨ ∃ c ∈ r.head?, c = ')' ∨ c = '|') ∧
    (o.operator = .concatenation → l.count ')' < l.count '(')

/-- If the count of omitted operands goes up, the token is a bar or a closing parenthesis where an
operand is due. -/
theorem eq_of_outline_read_eq_none (h : s.read position t = .ok s')
    (hnone : s.outline.read t = none) :
    s.afterOperand = false ∧ (t = .pipe ∨ t = .rightParenthesis) := by
  have hdepth := depth_of_read h
  have hnot : ¬ (s.outline.read t).isSome = true := by
    rw [hnone]
    exact Bool.false_ne_true
  rw [Outline.isSome_read_iff, not_or] at hnot
  obtain ⟨hbegins, hends⟩ := hnot
  have hflag : s.afterOperand = false := by
    by_contra hafter
    refine hends ⟨Bool.not_eq_false _ ▸ hafter, ?_⟩
    rintro rfl
    rw [if_pos rfl, if_neg (by decide)] at hdepth
    omega
  refine ⟨hflag, ?_⟩
  cases t with
  | atom a | leftParenthesis => exact absurd rfl hbegins
  | quantifier q =>
    rw [(read_quantifier_eq_ok_iff.1 h).1] at hflag
    cases hflag
  | pipe => exact .inl rfl
  | rightParenthesis => exact .inr rfl

namespace Waits

/-- **A token that is read above a waiting operator** leaves it true what the text says of it. -/
theorem read (h : Waits before after x o) (hread : x.read position t = .ok x')
    (ht : t.IsWritten) (hempty : ¬ ['(', ')'] <:+: before ++ after ++ [t.toChar])
    (hdue : x.afterOperand = false → OperandDue (before ++ after))
    (hbar : o.operator = .concatenation → t = .pipe → 0 < x'.outline.depth) :
    Waits before (after ++ [t.toChar]) x' o := by
  have hdepth := depth_of_read hread
  obtain ⟨hopen, hclose⟩ := count_toChar_cons ht []
  rw [List.count_nil, Nat.zero_add] at hopen hclose
  have heq := h.depth_eq
  have hcount : x'.outline.depth + (after ++ [t.toChar]).count ')' =
      (after ++ [t.toChar]).count '(' := by
    rw [List.count_append, List.count_append, hopen, hclose]
    omega
  refine ⟨h.length_eq, by simp, hcount, h.closesOnlyOpen.concat (by omega), ?_⟩
  rcases h.operands with hneg | ⟨l, r, rfl, hlacks, hinner⟩
  · rcases read_eq_ok hread with ⟨_, homitted⟩ | ⟨hnone, _⟩
    · exact .inl (by omega)
    · obtain ⟨hflag, hmark⟩ := eq_of_outline_read_eq_none hread hnone
      have hdue' := hdue hflag
      rcases hmark with rfl | rfl
      · -- the bar has nothing on its left
        refine .inr ⟨after, [], rfl, .inl hdue', fun ho => ?_⟩
        have hpos := hbar ho rfl
        rw [if_neg (by decide), if_neg (by decide)] at hdepth
        omega
      · -- the last character is a bar with nothing on its right, as it does not open a group
        rcases List.eq_nil_or_concat' after with hnil | ⟨l, c, rfl⟩
        · exact absurd hnil h.ne_nil
        · have hc : c = '(' ∨ c = '|' := hdue' c (by simp)
          rcases hc with rfl | rfl
          · refine absurd ⟨before ++ l, [], ?_⟩ hempty
            simp [Token.toChar]
          · refine .inr ⟨l, [')'], by simp [Token.toChar], .inr ⟨')', rfl, .inl rfl⟩, fun _ => ?_⟩
            have hopen' : ['|'].count '(' = 0 := rfl
            have hclose' : ['|'].count ')' = 0 := rfl
            rw [List.count_append, List.count_append, hopen', hclose'] at heq
            rw [if_pos rfl, if_neg (by decide)] at hdepth
            omega
  · refine .inr ⟨l, r ++ [t.toChar], by simp, hlacks.imp_right ?_, hinner⟩
    rintro ⟨c, hc, hmark⟩
    exact ⟨c, List.mem_head?_append_of_mem_head? hc, hmark⟩

end Waits

/-- **An operator that has just come** finds its left operand, or is a bar that lacks it. -/
theorem waits_of_brings (hempty : ¬ ['(', ')'] <:+: text) (h : readText {} 0 text = .ok s)
    (ht : t.IsWritten) (hbrings : o ∈ t.brings s.afterOperand text.length)
    (hbinary : o.operator.arity = 2)
    (hdepth : x.outline.depth = if t = .leftParenthesis then 1 else 0)
    (hs' : s.applyTighter o.operator.priority = .ok s')
    (homitted : x.omitted = -(s'.assembly.fragments.length : Int)) :
    Waits text [t.toChar] x o := by
  obtain ⟨hposition, hoperator⟩ := Token.mem_brings.1 hbrings
  obtain ⟨hopen, hclose⟩ := count_toChar_cons ht []
  have hnot : t ≠ .rightParenthesis := by
    rintro rfl
    cases hbrings
  rw [List.count_nil, Nat.zero_add] at hopen hclose
  rw [if_neg hnot] at hclose
  have hcloses : ClosesOnlyOpen ([] ++ [t.toChar]) :=
    ClosesOnlyOpen.concat (by decide) (by rw [List.nil_append, hclose]; exact Nat.zero_le _)
  refine ⟨hposition.symm, List.cons_ne_nil _ _, by rw [hdepth, hclose, hopen, Nat.add_zero],
    hcloses, ?_⟩
  rw [homitted]
  cases hfragments : s'.assembly.fragments with
  | cons f fragments => exact .inl (by rw [List.length_cons]; omega)
  | nil =>
    -- without a fragment an operand is due, and where one is due only a bar can come
    have hsame := eq_of_applyTighter hs' hfragments
    rw [hsame] at hfragments
    have hflag := afterOperand_of_fragments_eq_nil hempty h hfragments
    have hdue := operandDue_of_readText h hflag
    obtain ⟨operator, position⟩ := o
    cases operator with
    | alternation =>
      obtain rfl : t = .pipe := hoperator
      exact .inr ⟨[], [], rfl, .inl (by rwa [List.append_nil]), nofun⟩
    | concatenation =>
      rw [hflag] at hoperator
      cases hoperator.1
    | repetition _ | group => cases hbinary

/-- **What the text says of a waiting operator**: unless the text has an empty group, the operands
that the operator needs are there, or a bar has an empty side. -/
theorem waits_of_readText (hempty : ¬ ['(', ')'] <:+: text) (h : readText {} 0 text = .ok s)
    (hs : s.operators = upper ++ o :: lower) (hbinary : o.operator.arity = 2) :
    ∃ before after, text = before ++ after ∧
      Waits before after { s with operators := upper } o := by
  induction text using List.reverseRecOn generalizing s upper with
  | nil =>
    cases h
    simp at hs
  | append_singleton text c ih =>
    obtain ⟨m, t, hm, hc, hread⟩ := exists_of_readText_concat h
    obtain ⟨rfl, ht⟩ := Token.ofChar?_eq_some_iff.1 hc
    rw [Nat.zero_add] at hread
    have hempty' : ¬ ['(', ')'] <:+: text :=
      fun hinside => hempty (hinside.trans (List.prefix_append text _).isInfix)
    rcases read_above hread hs hbinary with
      ⟨upper', hoperators, habove⟩ | ⟨hbrings, hdepth, next, hnext, homitted⟩
    · obtain ⟨before, after, rfl, hwaits⟩ := ih hempty' hm hoperators
      have hdue : m.afterOperand = false → OperandDue (before ++ after) :=
        operandDue_of_readText hm
      refine ⟨before, after ++ [t.toChar], by rw [List.append_assoc], ?_⟩
      refine hwaits.read habove ht hempty hdue ?_
      -- a bar in the group of a concatenation does not leave the concatenation waiting
      rintro ho rfl
      rw [Nat.pos_iff_ne_zero]
      intro hzero
      have hflag : s.afterOperand = false := (account_read hread).2
      have hgroup : o.operator ≠ .group := by
        rw [ho]
        decide
      have halternation := (eq_alternation_of_readText h hflag hs hzero hgroup).1
      rw [ho] at halternation
      cases halternation
    · exact ⟨text, [t.toChar], rfl,
        waits_of_brings hempty' hm ht hbrings hbinary hdepth hnext homitted⟩

/-! ### The operator that is blamed -/

/-- **A binary operator that lacks an operand**, once all above it has been applied, has a bar with
an empty side at its position or behind it. It is assumed that if an operand is due at the end of
the text, the text goes on with a closing parenthesis or a bar, or not at all. -/
theorem exists_bar_of_applyAll {m : Assembly} (hempty : ¬ ['(', ')'] <:+: text)
    (h : readText {} 0 text = .ok s) (hs : s.operators = upper ++ o :: lower)
    (hbinary : o.operator.arity = 2) (hm : s.assembly.applyAll upper = .ok m)
    (hfew : m.fragments.length < 2)
    (hnext : s.afterOperand = false → ∀ c ∈ rest.head?, c = ')' ∨ c = '|') :
    ∃ before l r, text ++ rest = before ++ (l ++ '|' :: r) ∧ before.length = o.position ∧
      ClosesOnlyOpen l ∧ (o.operator = .concatenation → l.count ')' < l.count '(') ∧
      LacksSide (before ++ l) r := by
  obtain ⟨hlength, hcount⟩ := Assembly.length_of_applyAll hm
  obtain ⟨before, after, rfl, hwaits⟩ := waits_of_readText hempty h hs hbinary
  have hcloses {l r : List Char} (heq : after = l ++ r) : ClosesOnlyOpen l :=
    fun l' hl => hwaits.closesOnlyOpen l' (hl.trans ⟨r, heq.symm⟩)
  cases hflag : s.afterOperand with
  | false =>
    have hgroup : o.operator ≠ .group := by
      intro ho
      rw [ho] at hbinary
      cases hbinary
    obtain ⟨ho, l, htext⟩ := eq_alternation_of_readText h hflag hs hcount hgroup
    rcases List.eq_nil_or_concat' after with hnil | ⟨l', c, rfl⟩
    · exact absurd hnil hwaits.ne_nil
    · -- the last character is the bar behind which an operand is due
      rw [← List.append_assoc] at htext
      obtain ⟨_, hc⟩ := List.append_inj' htext rfl
      cases hc
      refine ⟨before, l', rest, by simp, hwaits.length_eq, hcloses rfl, ?_, .inr (hnext hflag)⟩
      rw [ho]
      exact nofun
  | true =>
    rcases hwaits.operands with hneg | ⟨l, r, rfl, hlacks, hinner⟩
    · -- after the operators above it there are two fragments left
      unfold omitted at hneg
      rw [hflag] at hneg
      simp only [Bool.toNat_true] at hneg
      omega
    · exact ⟨before, l, r ++ rest, by simp, hwaits.length_eq, hcloses rfl, hinner,
        LacksSide.of_head? hlacks⟩

/-- **What is blamed when the waiting operators are applied.** A quantifier never is, as it has
found its operand when it came. -/
theorem lacksOperandIn_of_applyTighter (hempty : ¬ ['(', ')'] <:+: text)
    (h : readText {} 0 text = .ok s) (hfail : s.applyTighter priority = .error r)
    (herror : r.error = .missingOperand operator position)
    (hnext : s.afterOperand = false → ∀ c ∈ rest.head?, c = ')' ∨ c = '|') :
    PlacedOperator.LacksOperandIn ⟨operator, position⟩ (text ++ rest) := by
  obtain ⟨made, o, lower, m, hs, hlt, hmade, hlast⟩ := exists_of_applyTighter_eq_error hfail
  have hgroup : o.operator ≠ .group :=
    Operator.priority_group_lt_iff.1 (Nat.lt_of_le_of_lt (Nat.zero_le priority) hlt)
  obtain ⟨hr, hfew⟩ := Assembly.apply_eq_error hgroup hlast
  rw [hr] at herror
  cases herror
  show o.LacksOperandIn (text ++ rest)
  obtain ⟨operator, position⟩ := o
  cases operator with
  | alternation =>
    obtain ⟨before, l, r, htext, hlength, hcloses, _, hlacks⟩ :=
      exists_bar_of_applyAll hempty h hs rfl hmade hfew hnext
    exact ⟨before, l, r, htext, hlength, hcloses, hlacks⟩
  | concatenation =>
    obtain ⟨before, l, r, htext, hlength, hcloses, hinner, hlacks⟩ :=
      exists_bar_of_applyAll hempty h hs rfl hmade hfew hnext
    exact ⟨before, l, r, htext, hlength, hcloses, hinner rfl, hlacks⟩
  | repetition q =>
    -- there is no fragment at all, so an operand would be due, and then only a bar can be on top
    have hnone : m.fragments = [] := List.eq_nil_of_length_eq_zero (Nat.lt_one_iff.1 hfew)
    obtain ⟨rfl, rfl⟩ := Assembly.eq_of_applyAll_eq_nil hmade hnone
    have hflag := afterOperand_of_fragments_eq_nil hempty h hnone
    cases (eq_alternation_of_readText h hflag hs rfl hgroup).1
  | group => exact absurd rfl hgroup

/-- **What is blamed when a token is refused.** -/
theorem lacksOperandIn_of_read (hempty : ¬ ['(', ')'] <:+: text) (h : readText {} 0 text = .ok s)
    (hfail : s.read text.length t = .error r)
    (herror : r.error = .missingOperand operator position) :
    PlacedOperator.LacksOperandIn ⟨operator, position⟩ (text ++ t.toChar :: rest) := by
  rcases exists_of_read_eq_error hfail with
    ⟨priority, htighter, hmark⟩ | ⟨q, rfl, hflag, rfl⟩ | ⟨_, m, _, _, rfl⟩
  · refine lacksOperandIn_of_applyTighter hempty h htighter herror ?_
    rintro hflag c hc
    cases hc
    rcases hmark with hafter | rfl | rfl
    · rw [hflag] at hafter
      cases hafter
    · exact .inr rfl
    · exact .inl rfl
  · cases herror
    exact ⟨text, rest, rfl, rfl, operandDue_of_readText h hflag⟩
  · cases herror

theorem lacksOperandIn_of_readText_eq_error (hempty : ¬ ['(', ')'] <:+: text)
    (h : readText {} 0 text = .error r) (herror : r.error = .missingOperand operator position) :
    PlacedOperator.LacksOperandIn ⟨operator, position⟩ text := by
  obtain ⟨l, c, rest, m, rfl, hm, hstep⟩ := exists_of_readText_eq_error h
  have hempty' : ¬ ['(', ')'] <:+: l :=
    fun hinside => hempty (hinside.trans (List.prefix_append l _).isInfix)
  rw [Nat.zero_add] at hstep
  cases hc : Token.ofChar? c with
  | none =>
    rw [step_ofChar_of_none hc] at hstep
    cases hstep
    cases herror
  | some t =>
    rw [step_ofChar hc] at hstep
    rw [← Token.toChar_of_ofChar? hc]
    exact lacksOperandIn_of_read hempty' hm hstep herror

/-- **What is blamed at the end of a pattern.** -/
theorem lacksOperandIn_of_finish (hempty : ¬ ['(', ')'] <:+: text) (h : readText {} 0 text = .ok s)
    (hfail : s.finish = .error r) (herror : r.error = .missingOperand operator position) :
    PlacedOperator.LacksOperandIn ⟨operator, position⟩ text := by
  rcases exists_of_finish_eq_error hfail with htighter | ⟨m, _, rfl⟩
  · rw [← List.append_nil text]
    exact lacksOperandIn_of_applyTighter hempty h htighter herror fun _ c hc => by cases hc
  · cases herror

end Compilation

open Compilation

variable {pattern : String} {operator : Operator} {position : Nat}

theorem lacksOperandIn_of_compile_eq_error (hempty : ¬ ['(', ')'] <:+: pattern.toList)
    (h : compile pattern = .error (.missingOperand operator position)) :
    PlacedOperator.LacksOperandIn ⟨operator, position⟩ pattern.toList := by
  unfold compile at h
  rw [report_eq] at h
  cases hs : (readText {} 0 pattern.toList).bind finish with
  | ok result =>
    rw [hs] at h
    cases h
  | error r =>
    rw [hs] at h
    have herror : r.error = .missingOperand operator position := Except.error.inj h
    rcases exists_of_bind_eq_error hs with hread | ⟨s, hread, hfinish⟩
    · exact lacksOperandIn_of_readText_eq_error hempty hread herror
    · exact lacksOperandIn_of_finish hempty hread hfinish herror

/-- **What is blamed for want of an operand.** Let no parenthesis be closed right behind where it is
opened. The operator that is blamed stands at the position given: a bar or a quantifier is written
there, and at the position of a concatenation an operand begins right behind the end of another one.
A quantifier is blamed only where an operand is due, and a bar or a concatenation only if, at its
position or behind it in its own group, there is a bar with an empty side. For a concatenation this
bar is in a group that its right operand has opened. Open parentheses are never blamed. -/
theorem isShortIn_of_compile_eq_error (hempty : ¬ ['(', ')'] <:+: pattern.toList)
    (h : compile pattern = .error (.missingOperand operator position)) :
    PlacedOperator.IsShortIn ⟨operator, position⟩ pattern.toList :=
  ⟨occursIn_of_compile_eq_error h, lacksOperandIn_of_compile_eq_error hempty h⟩

/-- A concatenation that is blamed for the bar in a group behind it, a bar for the one behind it,
and a quantifier where an operand is due. -/
theorem isShortIn_of_compile_eq_error_deferred :
    (compile "x(|a)" = .error (.missingOperand .concatenation 1) ∧
      (∃ k c d, 1 = k + 1 ∧ "x(|a)".toList[k]? = some c ∧ "x(|a)".toList[k + 1]? = some d ∧
        EndsOperand c ∧ BeginsOperand d) ∧
      ∃ before l r, "x(|a)".toList = before ++ (l ++ '|' :: r) ∧ before.length = 1 ∧
        ClosesOnlyOpen l ∧ l.count ')' < l.count '(' ∧ LacksSide (before ++ l) r) ∧
    (compile "a|b||c" = .error (.missingOperand .alternation 1) ∧
      "a|b||c".toList[1]? = some '|' ∧
      ∃ before l r, "a|b||c".toList = before ++ (l ++ '|' :: r) ∧ before.length = 1 ∧
        ClosesOnlyOpen l ∧ LacksSide (before ++ l) r) ∧
    compile "a|*b" = .error (.missingOperand (.repetition .star) 2) ∧
      "a|*b".toList[2]? = some '*' ∧
      ∃ l r, "a|*b".toList = l ++ '*' :: r ∧ l.length = 2 ∧ OperandDue l := by
  have hconcatenation : ¬ ['(', ')'] <:+: "x(|a)".toList := by decide
  have hbar : ¬ ['(', ')'] <:+: "a|b||c".toList := by decide
  have hstar : ¬ ['(', ')'] <:+: "a|*b".toList := by decide
  obtain ⟨hbetween, hinner⟩ := isShortIn_of_compile_eq_error hconcatenation rfl
  obtain ⟨hat, hbehind⟩ := isShortIn_of_compile_eq_error hbar rfl
  obtain ⟨hon, hdue⟩ := isShortIn_of_compile_eq_error hstar rfl
  exact ⟨⟨rfl, hbetween, hinner⟩, ⟨rfl, hat, hbehind⟩, rfl, hon, hdue⟩

/-- **The operator that is blamed need not be the one whose operand is missing.** The concatenation
of `x` with the group behind it is blamed, and the first of three bars is, although it has an
operand on both of its sides. -/
theorem not_blamed_at_bar :
    (¬ ['(', ')'] <:+: "x(|a)".toList ∧
      compile "x(|a)" = .error (.missingOperand .concatenation 1)) ∧
    ¬ ['(', ')'] <:+: "a|b||c".toList ∧
      compile "a|b||c" = .error (.missingOperand .alternation 1) ∧
      ¬ LacksSide ("a|b||c".toList.take 1) ("a|b||c".toList.drop 2) :=
  ⟨⟨by decide, rfl⟩, by decide, rfl, by decide⟩

end PatternAutomata
