import PatternAutomata.Proofs.Compilation.Account
import PatternAutomata.Proofs.Quotation

/-!
# The log of a compilation

What the records of a compilation say is true (`report_records`). Each application in the log, and
the operator that an error blames, is one that stands in the pattern, and no two of them stand at
the same position. If the pattern compiles, the log lists every operator of the pattern and ends
with the record of the whole compilation; if it does not, there is no such record.

The account of the operators has this for each of the ways in which a compilation can end. Only a
compilation that goes through applies all of its account (`accounts_of_compile_eq_ok`).
-/

namespace PatternAutomata

variable {pattern : String} {m : Automaton}

/-! ### The operators that a report names -/

/-- **A report names operators that occur in the pattern**, each at a position of its own. -/
theorem named_of_report (pattern : String) :
    ((report pattern).named.map (·.position)).Nodup ∧
      ∀ o ∈ (report pattern).named, o.OccursIn pattern.toList := by
  rw [Compilation.report_eq]
  cases h : (Compilation.readText {} 0 pattern.toList).bind Compilation.finish with
  | ok result =>
    obtain ⟨automaton, applied⟩ := result
    obtain ⟨s, hs, hfinish⟩ := exists_of_bind_eq_ok h
    have haccounts := (Compilation.accounts_of_readText hs).1
    have hnamed : applied.toList ++ [] = s.account := by
      rw [List.append_nil, Compilation.account_of_finish hfinish]
    show ((applied.toList ++ []).map PlacedOperator.position).Nodup ∧
      ∀ o ∈ applied.toList ++ [], o.OccursIn pattern.toList
    rw [hnamed]
    exact ⟨haccounts.nodup, fun o ho => (haccounts.mem_iff o).1 ho⟩
  | error r =>
    show (r.named.map (·.position)).Nodup ∧ ∀ o ∈ r.named, o.OccursIn pattern.toList
    rcases exists_of_bind_eq_error h with hread | ⟨s, hs, hfinish⟩
    · exact Compilation.named_of_readText_eq_error hread
    · have haccounts := (Compilation.accounts_of_readText hs).1
      exact haccounts.of_subperm (Compilation.named_of_finish_eq_error hfinish).sublist.subperm

/-- An operator that is blamed stands in the pattern. -/
theorem occursIn_of_compile_eq_error {operator : Operator} {position : Nat}
    (h : compile pattern = .error (.missingOperand operator position)) :
    PlacedOperator.OccursIn ⟨operator, position⟩ pattern.toList := by
  have hresult : (report pattern).result = .error (.missingOperand operator position) := h
  apply (named_of_report pattern).2
  rw [Report.named, hresult]
  exact List.mem_append_right _ (List.mem_singleton_self _)

/-- **If a pattern compiles, all its operators have been applied.** -/
theorem accounts_of_compile_eq_ok (h : compile pattern = .ok m) :
    Accounts (report pattern).applied.toList pattern.toList := by
  obtain ⟨s, hread, hfinish⟩ := exists_of_bind_eq_ok (Compilation.finish_of_compile_eq_ok h)
  rw [Compilation.account_of_finish hfinish]
  exact (Compilation.accounts_of_readText hread).1

/-! ### The records -/

theorem records_of_compile_eq_ok (h : compile pattern = .ok m) :
    (report pattern).records =
      (report pattern).applied.toList.map .applied ++ [.compiled pattern m.size] := by
  have hpattern : (report pattern).pattern = pattern := by
    rw [Compilation.report_eq]
    split <;> rfl
  have hresult : (report pattern).result = .ok m := h
  rw [Report.records, hresult, hpattern]

theorem records_of_compile_eq_error {e : PatternError} (h : compile pattern = .error e) :
    (report pattern).records = (report pattern).applied.toList.map .applied := by
  have hresult : (report pattern).result = .error e := h
  rw [Report.records, hresult, List.append_nil]

/-- The characters of a pattern that compiles are plain. -/
theorem isPlain_of_compile_eq_ok (h : compile pattern = .ok m) : ∀ c ∈ pattern.toList, IsPlain c :=
  have horderly : IsOrderly pattern.toList :=
    isPattern_iff_isOrderly.1 (isPattern_of_compile_eq_ok h)
  fun c hc => (horderly.mem_characters c hc).isPlain

/-- A pattern of plain characters stands in the log as it is. -/
theorem Record.text_compiled (isShown : Char → Bool) (states : Nat)
    (h : ∀ c ∈ pattern.toList, IsPlain c) :
    (Record.compiled pattern states).text isShown =
      "compiled pattern \"" ++ pattern ++ "\" into " ++ toString states ++ " states" := by
  have hopening : "compiled pattern " ++ "\"" = "compiled pattern \"" := rfl
  have hclosing : "\"" ++ " into " = "\" into " := rfl
  show "compiled pattern " ++ quote isShown pattern ++ " into " ++ toString states ++ " states" = _
  rw [quote_of_isPlain h, ← hopening, ← hclosing]
  simp only [String.append_assoc]

/-- **The log tells what has been done.** The applications it lists, and the operator that is blamed
if there is one, stand in the pattern, at positions of their own. After a success the applications
are all operators that stand in the pattern, and one more record gives the pattern and the number of
states. The pattern stands there as it is, since none of its characters is escaped, wherever the log
is shown. After a failure there is no such record. -/
theorem report_records (pattern : String) :
    (report pattern).records.filter (·.level = "TRACE") =
        (report pattern).applied.toList.map .applied ∧
      ((report pattern).named.map (·.position)).Nodup ∧
      (∀ o ∈ (report pattern).named, o.OccursIn pattern.toList) ∧
      (∀ m, compile pattern = .ok m →
        (∀ o, o ∈ (report pattern).applied.toList ↔ o.OccursIn pattern.toList) ∧
        (report pattern).records =
          (report pattern).applied.toList.map .applied ++ [.compiled pattern m.size] ∧
        (report pattern).records.filter (·.level = "DEBUG") = [.compiled pattern m.size] ∧
        (∀ isShown, (Record.compiled pattern m.size).text isShown =
          "compiled pattern \"" ++ pattern ++ "\" into " ++ toString m.size ++ " states") ∧
        ∀ c ∈ pattern.toList, IsPlain c) ∧
      ∀ e, compile pattern = .error e →
        (report pattern).records.filter (·.level = "DEBUG") = [] := by
  have htrace : ((report pattern).applied.toList.map Record.applied).filter (·.level = "TRACE") =
      (report pattern).applied.toList.map .applied := by
    simp [List.filter_eq_self, Record.level]
  have hdebug :
      ((report pattern).applied.toList.map Record.applied).filter (·.level = "DEBUG") = [] := by
    simp [List.filter_eq_nil_iff, Record.level]
  obtain ⟨hnodup, hoccurs⟩ := named_of_report pattern
  refine ⟨?_, hnodup, hoccurs, fun m hm => ?_, fun e he => ?_⟩
  · cases h : compile pattern with
    | ok m =>
      rw [records_of_compile_eq_ok h, List.filter_append, htrace]
      exact List.append_nil _
    | error e => rw [records_of_compile_eq_error h, htrace]
  · have hplain := isPlain_of_compile_eq_ok hm
    refine ⟨(accounts_of_compile_eq_ok hm).mem_iff, records_of_compile_eq_ok hm, ?_,
      fun isShown => Record.text_compiled isShown m.size hplain, hplain⟩
    rw [records_of_compile_eq_ok hm, List.filter_append, hdebug]
    rfl
  · rw [records_of_compile_eq_error he, hdebug]

/-- A pattern that compiles, with an operator of each priority, and one that does not. -/
theorem report_records_operators :
    (∃ m, compile "a(b|c)*" = .ok m ∧ (report "a(b|c)*").records =
        [.applied ⟨.alternation, 3⟩, .applied ⟨.repetition .star, 6⟩,
          .applied ⟨.concatenation, 1⟩, .compiled "a(b|c)*" m.size] ∧
        ∀ o, o ∈ (report "a(b|c)*").applied.toList ↔ o.OccursIn "a(b|c)*".toList) ∧
      compile "ab|" = .error (.missingOperand .alternation 2) ∧
      (report "ab|").records.filter (·.level = "DEBUG") = [] := by
  obtain ⟨m, hm⟩ : ∃ m, compile "a(b|c)*" = .ok m := ⟨_, rfl⟩
  obtain ⟨_, _, _, hok, _⟩ := report_records "a(b|c)*"
  obtain ⟨_, _, _, _, herror⟩ := report_records "ab|"
  obtain ⟨hall, hrecords, _⟩ := hok m hm
  exact ⟨⟨m, hm, hrecords, hall⟩, rfl, herror _ rfl⟩

-- the first concatenation is blamed, and the bar that makes it be applied does not reach the stack
example : (report "a(b|)*c|d").named =
    [⟨.alternation, 3⟩, ⟨.repetition .star, 5⟩, ⟨.concatenation, 6⟩, ⟨.concatenation, 1⟩] := rfl

end PatternAutomata
