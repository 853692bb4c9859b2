import PatternAutomata.Proofs.Compilation.Grammar
import PatternAutomata.Proofs.Compilation.Settling

/-!
# The verdict on a pattern

Which patterns of tokens are refused, and how, can be told without compiling them
(`compile_verdict`). There are three kinds of them. The parentheses match, or some stay open, or one
is closed that is not open; the last kind begins with a text of the first kind, and the verdict on
that text decides whether the parenthesis behind it is reached at all (`compile_of_close`).
-/

namespace PatternAutomata

/-- The text up to and including its position `d`, and no shorter one, closes more parentheses than
it opens. -/
structure OverclosesAt (text : List Char) (d : Nat) : Prop where
  count_lt : (text.take (d + 1)).count '(' < (text.take (d + 1)).count ')'
  count_le : ∀ k < d, (text.take (k + 1)).count ')' ≤ (text.take (k + 1)).count '('

instance (text : List Char) (d : Nat) : Decidable (OverclosesAt text d) :=
  decidable_of_iff ((text.take (d + 1)).count '(' < (text.take (d + 1)).count ')' ∧
      ∀ k < d, (text.take (k + 1)).count ')' ≤ (text.take (k + 1)).count '(')
    ⟨fun h => ⟨h.1, h.2⟩, fun h => ⟨h.1, h.2⟩⟩

namespace OverclosesAt

variable {text : List Char} {d : Nat}

/-- Before the first position at which too much is closed, only what is open is closed. -/
theorem closesOnlyOpen (h : OverclosesAt text d) : ClosesOnlyOpen (text.take d) := by
  intro l hl
  have hlength : l.length ≤ d := hl.length_le.trans (List.length_take_le d text)
  have htake : l = text.take l.length :=
    List.prefix_iff_eq_take.1 (hl.trans (List.take_prefix d text))
  cases hk : l.length with
  | zero =>
    rw [List.eq_nil_of_length_eq_zero hk]
    exact Nat.le_refl 0
  | succ k =>
    rw [hk] at htake hlength
    rw [htake]
    exact h.count_le k hlength

/-- At that position there is a closing parenthesis, and the parentheses before it match. -/
theorem exists_eq (h : OverclosesAt text d) :
    (text.take d).length = d ∧ IsBalanced (text.take d) ∧
      ∃ r, text = text.take d ++ ')' :: r := by
  have hcloses := h.closesOnlyOpen
  have hle := hcloses _ (List.prefix_refl _)
  have hlt := h.count_lt
  by_cases hd : d < text.length
  · rw [List.take_succ_eq_append_getElem hd, List.count_append, List.count_append] at hlt
    have hchar : text[d] = ')' := by
      by_contra hne
      have hnone : [text[d]].count ')' = 0 :=
        List.count_eq_zero.2 fun hmem => hne (List.mem_singleton.1 hmem).symm
      omega
    have hopen : [')'].count '(' = 0 := rfl
    have hclose : [')'].count ')' = 1 := rfl
    rw [hchar, hopen, hclose] at hlt
    refine ⟨List.length_take_of_le (Nat.le_of_lt hd), ⟨hcloses, by omega⟩, text.drop (d + 1), ?_⟩
    rw [← hchar, ← List.drop_eq_getElem_cons hd, List.take_append_drop]
  · -- behind the end of the text nothing is closed any more
    rw [List.take_of_length_le (by omega)] at hlt hle
    omega

end OverclosesAt

open Compilation

variable {pattern : String} {m : Compilation} {r : Rejection}

theorem compile_of_settle_error (h : settle pattern.toList = .error r) :
    compile pattern = .error r.error := by
  unfold compile
  rw [report_eq, bind_finish, h]
  rfl

theorem exists_compile_of_settle {f : Fragment} (h : settle pattern.toList = .ok m)
    (hoperators : m.operators = []) (hfragments : m.assembly.fragments = [f]) :
    ∃ a, compile pattern = .ok a := by
  obtain ⟨⟨arena, fragments, applied⟩, operators, flag⟩ := m
  cases hoperators
  cases hfragments
  refine ⟨arena.finish f, ?_⟩
  unfold compile
  rw [report_eq, bind_finish, h]
  rfl

theorem compile_of_settle (h : settle pattern.toList = .ok m)
    (hleft : m.operators = [] → m.assembly.fragments.length ≠ 1) :
    compile pattern = .error .malformed := by
  obtain ⟨⟨arena, fragments, applied⟩, operators, flag⟩ := m
  unfold compile
  rw [report_eq, bind_finish, h]
  rcases operators with _ | ⟨o, operators⟩
  · rcases fragments with _ | ⟨f, _ | ⟨g, fragments⟩⟩
    · rfl
    · exact absurd rfl (hleft rfl)
    · rfl
  · rfl

/-- If the parentheses of a pattern match, an operand is missing unless the pattern compiles or
consists of empty groups. -/
theorem settle_of_isBalanced_cases (htokens : ∀ c ∈ pattern.toList, IsPatternCharacter c)
    (h : IsBalanced pattern.toList) :
    ((IsPattern pattern ∨ ∃ n, pattern.toList = emptyGroups n) ∧
        ∃ m, settle pattern.toList = .ok m ∧ m.operators = []) ∨
      (¬ (IsPattern pattern ∨ ∃ n, pattern.toList = emptyGroups n) ∧
        ∃ r, settle pattern.toList = .error r ∧ r.error.LacksOperand) := by
  rcases settle_of_isBalanced htokens h with
    ⟨r, hr, hlacks⟩ | ⟨m, f, hm, hoperators, hfragments⟩ | ⟨n, hn⟩
  · refine .inr ⟨?_, r, hr, hlacks⟩
    rintro (hpattern | ⟨n, hn⟩)
    · obtain ⟨a, ha⟩ := exists_compile_of_isPattern hpattern
      rw [compile_of_settle_error hr] at ha
      cases ha
    · obtain ⟨flag, hsettle⟩ := settle_emptyGroups hn
      rw [hr] at hsettle
      cases hsettle
  · obtain ⟨a, ha⟩ := exists_compile_of_settle hm hoperators hfragments
    exact .inl ⟨.inl (isPattern_of_compile_eq_ok ha), m, hm, hoperators⟩
  · obtain ⟨flag, hsettle⟩ := settle_emptyGroups hn
    exact .inl ⟨.inr ⟨n, hn⟩, _, hsettle, rfl⟩

/-- **The verdict if the parentheses match.** -/
theorem compile_of_isBalanced (htokens : ∀ c ∈ pattern.toList, IsPatternCharacter c)
    (h : IsBalanced pattern.toList) :
    ((∃ a, compile pattern = .ok a) ↔ IsPattern pattern) ∧
      (compile pattern = .error .malformed ↔ ∃ n, pattern.toList = emptyGroups n) ∧
      (¬ (IsPattern pattern ∨ ∃ n, pattern.toList = emptyGroups n) →
        ∃ e, e.LacksOperand ∧ compile pattern = .error e) := by
  have hcases := settle_of_isBalanced_cases htokens h
  refine ⟨⟨fun ⟨_, ha⟩ => isPattern_of_compile_eq_ok ha, exists_compile_of_isPattern⟩,
    ⟨?_, ?_⟩, ?_⟩
  · intro hmalformed
    rcases hcases with ⟨hpattern | hgroups, _⟩ | ⟨_, r, hr, o, position, herror⟩
    · obtain ⟨a, ha⟩ := exists_compile_of_isPattern hpattern
      rw [ha] at hmalformed
      cases hmalformed
    · exact hgroups
    · rw [compile_of_settle_error hr, herror] at hmalformed
      cases hmalformed
  · rintro ⟨n, hn⟩
    obtain ⟨flag, hsettle⟩ := settle_emptyGroups hn
    exact compile_of_settle hsettle fun _ => Nat.zero_ne_one
  · intro hneither
    rcases hcases with ⟨heither, _⟩ | ⟨_, r, hr, hlacks⟩
    · exact absurd heither hneither
    · exact ⟨r.error, hlacks, compile_of_settle_error hr⟩

/-- **The verdict if a parenthesis stays open.** -/
theorem compile_of_unclosed (htokens : ∀ c ∈ pattern.toList, IsPatternCharacter c)
    (hcloses : ClosesOnlyOpen pattern.toList)
    (hcount : pattern.toList.count ')' < pattern.toList.count '(') :
    ∃ e, (e = .malformed ∨ e.LacksOperand) ∧ compile pattern = .error e := by
  rcases settle_of_closesOnlyOpen htokens hcloses with ⟨r, hr, hlacks⟩ | ⟨m, hm, _, _, hdepth⟩
  · exact ⟨r.error, .inr hlacks, compile_of_settle_error hr⟩
  · refine ⟨.malformed, .inl rfl, compile_of_settle hm fun hoperators => ?_⟩
    -- the open parenthesis still waits
    have hzero : m.outline.depth = 0 := by
      unfold outline
      rw [hoperators]
      rfl
    omega

/-- **The verdict if a parenthesis is closed behind a text whose parentheses match**: that text
decides whether the parenthesis is reached. -/
theorem compile_of_close {before : String} {rest : List Char}
    (htokens : ∀ c ∈ before.toList, IsPatternCharacter c)
    (h : IsBalanced before.toList) (htext : pattern.toList = before.toList ++ ')' :: rest) :
    (compile pattern = .error (.unmatchedParenthesis before.toList.length) ↔
        IsPattern before ∨ ∃ n, before.toList = emptyGroups n) ∧
      (¬ (IsPattern before ∨ ∃ n, before.toList = emptyGroups n) →
        ∃ e, e.LacksOperand ∧ compile before = .error e ∧ compile pattern = .error e) := by
  rcases settle_of_isBalanced_cases htokens h with
    ⟨heither, m, hm, hoperators⟩ | ⟨hneither, r, hr, hlacks⟩
  · have hpattern := settle_append_of_ok rest hm hoperators
    rw [← htext] at hpattern
    exact ⟨⟨fun _ => heither, fun _ => compile_of_settle_error hpattern⟩,
      fun hneither => absurd heither hneither⟩
  · have hpattern := settle_append_of_error rest hr
    rw [← htext] at hpattern
    have hcompile := compile_of_settle_error hpattern
    refine ⟨⟨fun hunmatched => ?_, fun heither => absurd heither hneither⟩,
      fun _ => ⟨r.error, hlacks, compile_of_settle_error hr, hcompile⟩⟩
    obtain ⟨o, position, herror⟩ := hlacks
    rw [hcompile, herror] at hunmatched
    cases hunmatched

/-- **The verdict on a pattern of tokens.** If its parentheses match, it compiles iff the grammar
derives it, is malformed iff it consists of empty groups, and otherwise lacks an operand. If one of
them stays open, it is malformed or lacks an operand. If too much is closed, the first parenthesis
without a counterpart is reported iff the text before it compiles or consists of empty groups;
otherwise that text lacks an operand, and this is reported. -/
theorem compile_verdict (pattern : String)
    (htokens : ∀ c ∈ pattern.toList, IsPatternCharacter c) :
    (IsBalanced pattern.toList →
      ((∃ a, compile pattern = .ok a) ↔ IsPattern pattern) ∧
        (compile pattern = .error .malformed ↔ ∃ n, pattern.toList = emptyGroups n) ∧
        (¬ (IsPattern pattern ∨ ∃ n, pattern.toList = emptyGroups n) →
          ∃ e, e.LacksOperand ∧ compile pattern = .error e)) ∧
    (ClosesOnlyOpen pattern.toList → pattern.toList.count ')' < pattern.toList.count '(' →
      ∃ e, (e = .malformed ∨ e.LacksOperand) ∧ compile pattern = .error e) ∧
    ∀ d before, OverclosesAt pattern.toList d → before = String.ofList (pattern.toList.take d) →
      (compile pattern = .error (.unmatchedParenthesis d) ↔
          IsPattern before ∨ ∃ n, before.toList = emptyGroups n) ∧
        (¬ (IsPattern before ∨ ∃ n, before.toList = emptyGroups n) →
          ∃ e, e.LacksOperand ∧ compile before = .error e ∧ compile pattern = .error e) := by
  refine ⟨compile_of_isBalanced htokens, compile_of_unclosed htokens, ?_⟩
  intro d before hd hbefore
  obtain ⟨hlength, hbalanced, rest, htext⟩ := hd.exists_eq
  have htoList : before.toList = pattern.toList.take d := by rw [hbefore, String.toList_ofList]
  have htokens' : ∀ c ∈ before.toList, IsPatternCharacter c := by
    intro c hc
    rw [htoList] at hc
    exact htokens c (List.mem_of_mem_take hc)
  rw [← htoList] at hlength hbalanced htext
  have hverdict := compile_of_close htokens' hbalanced htext
  rwa [hlength] at hverdict

/-- Two empty groups, an open parenthesis too many and a closing one too many. -/
theorem compile_verdict_emptyGroups :
    compile "(())" = .error .malformed ∧
      (∃ e, (e = .malformed ∨ e.LacksOperand) ∧ compile "(()" = .error e) ∧
      compile "())x" = .error (.unmatchedParenthesis 2) := by
  refine ⟨?_, ?_, ?_⟩
  · exact ((compile_verdict "(())" (by decide)).1 (by decide)).2.1.2 ⟨2, rfl⟩
  · exact (compile_verdict "(()" (by decide)).2.1 (by decide) (by decide)
  · exact ((compile_verdict "())x" (by decide)).2.2 2 "()" (by decide) rfl).1.2 (.inr ⟨1, rfl⟩)

-- what waits before the last parenthesis lacks an operand, so that no counterpart is looked for
example : compile "x(|a))" = .error (.missingOperand .concatenation 1) ∧
    compile "x(|a)" = .error (.missingOperand .concatenation 1) := ⟨rfl, rfl⟩

end PatternAutomata
