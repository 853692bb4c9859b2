import PatternAutomata.Proofs.Compilation.Prefix
import PatternAutomata.Proofs.Compilation.Verdict
import PatternAutomata.Proofs.Compilation.Waiting

/-!
# Unfinished patterns

A beginning of a pattern that compiles can be wrong in one way only: it is not finished yet
(`compile_of_append_eq_ok`). A bar at its end apart, it lacks no operand, although the operators
that wait there are applied earlier than they would be in the whole pattern, and some of them to
other operands.

Nothing has to be known of these operators. The beginning has an outline, as the whole pattern has
one. If an operand has just ended, closing what is open completes the beginning to a pattern
(`Outline.readAll_replicate`); this pattern compiles, and it applies the waiting operators at the
very same point (`exists_settle_of_readAll`). Otherwise the beginning ends with an open parenthesis,
above which nothing waits.
-/

namespace PatternAutomata

/-- Closing what is open finishes a text behind an operand. -/
theorem Outline.readAll_replicate (depth : Nat) :
    readAll ⟨depth, true⟩ (List.replicate depth ')') = some ⟨0, true⟩ := by
  induction depth with
  | zero => rfl
  | succ depth ih =>
    rw [List.replicate_succ, readAll_cons]
    exact ih

namespace Compilation

variable {text rest : List Char} {depth : Nat}

/-- Behind an operand of a text whose outline can be read, all operators above the innermost open
parenthesis find their operands. -/
theorem exists_settle_of_readAll (h : Outline.readAll {} text = some ⟨depth, true⟩) :
    ∃ m, settle text = .ok m := by
  cases hsettle : settle text with
  | ok m => exact ⟨m, rfl⟩
  | error r =>
    -- the completed text would be refused where the text is settled
    have hcompleted : IsPattern (String.ofList (text ++ List.replicate depth ')')) := by
      rw [Outline.isPattern_iff_readAll, String.toList_ofList, Outline.readAll_append, h]
      exact Outline.readAll_replicate depth
    obtain ⟨m, hm⟩ := exists_compile_of_isPattern hcompleted
    have herror : settle (text ++ List.replicate depth ')') = .error r := by
      cases depth with
      | zero => rwa [List.replicate_zero, List.append_nil]
      | succ depth => exact settle_append_of_error (List.replicate depth ')') hsettle
    rw [compile_of_settle_error (by rwa [String.toList_ofList])] at hm
    cases hm

/-- A beginning of an orderly text is read. -/
theorem exists_readText_of_isOrderly (h : IsOrderly (text ++ rest)) :
    ∃ s, readText {} 0 text = .ok s := by
  cases hread : readText {} 0 text with
  | ok s => exact ⟨s, rfl⟩
  | error r =>
    have hpattern : IsPattern (String.ofList (text ++ rest)) := by
      rw [isPattern_iff_isOrderly, String.toList_ofList]
      exact h
    obtain ⟨m, hm⟩ := exists_compile_of_isPattern hpattern
    unfold compile at hm
    rw [report_of_readText_eq_error hread (by simp)] at hm
    cases hm

/-- Above an open parenthesis nothing waits. -/
theorem settle_concat_leftParenthesis {s : Compilation}
    (h : readText {} 0 (text ++ ['(']) = .ok s) : settle (text ++ ['(']) = .ok s := by
  obtain ⟨m, t, _, ht, hread⟩ := exists_of_readText_concat h
  obtain rfl : t = .leftParenthesis := (Option.some.inj ht).symm
  obtain ⟨next, _, hs⟩ := exists_of_bind_eq_ok hread
  cases hs
  unfold settle
  rw [h]
  rfl

/-- A text behind which an operand is due is empty or ends with an open parenthesis or a bar. -/
theorem eq_nil_or_concat_of_due (hdue : OperandDue text) (hbar : text.getLast? ≠ some '|') :
    text = [] ∨ ∃ l, text = l ++ ['('] := by
  rcases List.eq_nil_or_concat' text with rfl | ⟨l, c, rfl⟩
  · exact .inl rfl
  · unfold OperandDue at hdue
    rw [List.getLast?_concat] at hdue hbar
    have hopen : c = '(' := (hdue c rfl).resolve_right fun hc => hbar (congrArg some hc)
    exact .inr ⟨l, by rw [hopen]⟩

/-- **A beginning of an orderly text can be settled**, unless it ends with a bar. -/
theorem exists_settle_of_isOrderly (h : IsOrderly (text ++ rest))
    (hbar : text.getLast? ≠ some '|') : ∃ m, settle text = .ok m := by
  obtain ⟨⟨depth, flag⟩, houtline⟩ := h.exists_readAll (List.prefix_append text rest)
  cases flag with
  | true => exact exists_settle_of_readAll houtline
  | false =>
    obtain ⟨s, hs⟩ := exists_readText_of_isOrderly h
    rcases eq_nil_or_concat_of_due ((Outline.readAll_eq_some houtline).2.1 rfl) hbar with
      rfl | ⟨l, rfl⟩
    · exact ⟨{}, rfl⟩
    · exact ⟨s, settle_concat_leftParenthesis hs⟩

end Compilation

open Compilation

variable {p q : String} {rest : List Char} {m : Automaton}

/-- A beginning that closes what it opens is a pattern itself. -/
theorem isPattern_of_count_eq (h : IsOrderly (p.toList ++ rest)) (hne : p ≠ "")
    (hcount : p.toList.count ')' = p.toList.count '(') (hbar : p.toList.getLast? ≠ some '|') :
    IsPattern p := by
  obtain ⟨⟨depth, flag⟩, houtline⟩ := h.exists_readAll (List.prefix_append p.toList rest)
  obtain ⟨hdepth, hdue⟩ := Outline.readAll_eq_some houtline
  have hzero : depth = 0 := by
    simp only at hdepth
    omega
  have hflag : flag = true := by
    by_contra hflag
    rcases eq_nil_or_concat_of_due (hdue.1 (Bool.not_eq_true _ ▸ hflag)) hbar with hnil | ⟨l, hl⟩
    · exact hne (String.toList_eq_nil_iff.1 hnil)
    · -- the last parenthesis has not been closed, and none has been closed too often before
      rw [hl] at h hcount
      have hle := h.count_le l ((List.prefix_append l ['(']).trans (List.prefix_append _ rest))
      rw [List.count_append, List.count_append] at hcount
      have hopen : ['('].count '(' = 1 := rfl
      have hclose : ['('].count ')' = 0 := rfl
      omega
  rw [Outline.isPattern_iff_readAll, houtline, hzero, hflag]

/-- A beginning that leaves a parenthesis open is malformed. -/
theorem compile_of_count_lt (h : IsOrderly (p.toList ++ rest))
    (hcount : p.toList.count ')' < p.toList.count '(') (hbar : p.toList.getLast? ≠ some '|') :
    compile p = .error .malformed := by
  have htokens : ∀ c ∈ p.toList, IsPatternCharacter c :=
    fun c hc => h.mem_characters c (List.mem_append_left rest hc)
  have hcloses : ClosesOnlyOpen p.toList :=
    fun l hl => h.count_le l (hl.trans (List.prefix_append p.toList rest))
  obtain ⟨e, _, herror⟩ := compile_of_unclosed htokens hcloses hcount
  obtain ⟨s, hs⟩ := exists_settle_of_isOrderly h hbar
  refine compile_of_settle hs fun hoperators hlength => ?_
  -- one fragment and no operator would be the end of a pattern that compiles
  obtain ⟨f, hf⟩ := List.length_eq_one_iff.1 hlength
  obtain ⟨a, ha⟩ := exists_compile_of_settle hs hoperators hf
  rw [herror] at ha
  cases ha

/-- **Beginnings of patterns are diagnosed as unfinished.** What a pattern that compiles begins with
is read without an error. If it does not end with a bar, then it compiles if it is not empty and
closes as many parentheses as it opens. Otherwise, that is, if it is empty or a parenthesis is still
open, it is malformed, and no other error is reported. -/
theorem compile_of_append_eq_ok (h : compile (p ++ q) = .ok m)
    (hbar : p.toList.getLast? ≠ some '|') :
    (∃ s, readAll {} (lexemes p) = .ok s) ∧
      (p ≠ "" ∧ p.toList.count ')' = p.toList.count '(' → ∃ m', compile p = .ok m') ∧
      (¬ (p ≠ "" ∧ p.toList.count ')' = p.toList.count '(') →
        (p = "" ∨ p.toList.count ')' < p.toList.count '(') ∧ compile p = .error .malformed) := by
  have horderly : IsOrderly (p.toList ++ q.toList) := by
    rw [← String.toList_append]
    exact isPattern_iff_isOrderly.1 (isPattern_of_compile_eq_ok h)
  obtain ⟨s, hs⟩ := exists_readText_of_isOrderly horderly
  refine ⟨⟨s, hs⟩, ?_, ?_⟩
  · rintro ⟨hne, hcount⟩
    exact exists_compile_of_isPattern (isPattern_of_count_eq horderly hne hcount hbar)
  · intro hnot
    by_cases hempty : p = ""
    · exact ⟨.inl hempty, by rw [hempty]; rfl⟩
    · have hle := horderly.count_le p.toList (List.prefix_append _ _)
      have hlt : p.toList.count ')' < p.toList.count '(' :=
        Nat.lt_of_le_of_ne hle fun hcount => hnot ⟨hempty, hcount⟩
      exact ⟨.inr hlt, compile_of_count_lt horderly hlt hbar⟩

/-- Cut within nested groups, where a concatenation, a bar and a star wait, and behind them. -/
theorem compile_of_append_eq_ok_nested :
    (∃ m, compile ("x(a|(bc*" ++ "d)+)y") = .ok m) ∧ compile "x(a|(bc*" = .error .malformed ∧
      ∃ m, compile "x(a|(bc*d)+)" = .ok m := by
  obtain ⟨m, hm⟩ : ∃ m, compile "x(a|(bc*d)+)y" = .ok m := ⟨_, rfl⟩
  have hfirst : compile ("x(a|(bc*" ++ "d)+)y") = .ok m := hm
  have hsecond : compile ("x(a|(bc*d)+)" ++ "y") = .ok m := hm
  exact ⟨⟨m, hfirst⟩, ((compile_of_append_eq_ok hfirst (by decide)).2.2 (by decide)).2,
    (compile_of_append_eq_ok hsecond (by decide)).2.1 (by decide)⟩

-- a bar at the end lacks its right side
example : compile "a|" = .error (.missingOperand .alternation 1) := rfl

end PatternAutomata
