import PatternAutomata.Proofs.Compilation.Account

/-!
# Errors that a beginning decides

A compilation looks at no character behind the one that it refuses. So all patterns that begin with
the text up to there are refused in the same way and leave the same log
(`report_of_readText_eq_error`).

Which texts are refused before their end can therefore be told by their first character that is no
token, or by the parenthesis that has no counterpart (`compile_of_take_eq`). Errors that come up
only at the end of a pattern do not belong here; they report neither a symbol nor a parenthesis
(`compile_eq_error`).
-/

namespace PatternAutomata

/-- The text has the character `c` at the position `k`, and it is the first that is no token. -/
structure ForeignAt (text : List Char) (k : Nat) (c : Char) : Prop where
  char : text[k]? = some c
  foreign : ¬ IsPatternCharacter c
  before : ∀ d ∈ text.take k, IsPatternCharacter d

namespace ForeignAt

variable {text : List Char} {k : Nat} {c : Char}

/-- The text up to the foreign character. -/
theorem take_succ (h : ForeignAt text k c) :
    text.take (k + 1) = text.take k ++ [c] ∧ (text.take k).length = k := by
  obtain ⟨hlt, hchar⟩ := List.getElem?_eq_some_iff.1 h.char
  refine ⟨?_, List.length_take_of_le (Nat.le_of_lt hlt)⟩
  rw [List.take_succ_eq_append_getElem hlt, hchar]

theorem ofChar?_eq_none (h : ForeignAt text k c) : Token.ofChar? c = none := by
  rw [← Option.not_isSome_iff_eq_none]
  exact fun hsome => h.foreign (Token.isSome_ofChar?_iff.1 hsome)

end ForeignAt

namespace Compilation

variable {s s' : Compilation} {start : Nat} {text : List Char} {r : Rejection}

/-- What is read consists of tokens. -/
theorem isPatternCharacter_of_readText (h : s.readText start text = .ok s') :
    ∀ c ∈ text, IsPatternCharacter c := by
  induction text using List.reverseRecOn generalizing s' with
  | nil => exact List.forall_mem_nil _
  | append_singleton text c ih =>
    obtain ⟨m, t, hm, hc, _⟩ := exists_of_readText_concat h
    rw [List.forall_mem_append, List.forall_mem_singleton]
    exact ⟨ih hm, Token.isSome_ofChar?_iff.1 (by rw [hc]; rfl)⟩

/-- **How a text can be refused**: at a foreign character, for want of an operand, or at a closing
parenthesis. The first and the last are decided by the text up to there. -/
theorem readText_eq_error (h : readText {} 0 text = .error r) :
    (∃ k c, r.error = .unexpectedSymbol c k ∧ ForeignAt text k c) ∨
      (∃ operator k, r.error = .missingOperand operator k ∧ k < text.length) ∨
      ∃ k, r.error = .unmatchedParenthesis k ∧ text[k]? = some ')' ∧
        readText {} 0 (text.take (k + 1)) = .error r := by
  have hnamed := (named_of_readText_eq_error h).2
  obtain ⟨l, c, rest, m, htext, hm, hstep⟩ := exists_of_readText_eq_error h
  have hchar : text[l.length]? = some c := by
    rw [htext, List.getElem?_append_right (Nat.le_refl _), Nat.sub_self, List.getElem?_cons_zero]
  rw [Nat.zero_add] at hstep
  cases hc : Token.ofChar? c with
  | none =>
    rw [step_ofChar_of_none hc] at hstep
    cases hstep
    refine .inl ⟨l.length, c, rfl, hchar, ?_, ?_⟩
    · rw [← Token.isSome_ofChar?_iff, hc]
      exact Bool.false_ne_true
    · rw [htext, List.take_left]
      exact isPatternCharacter_of_readText hm
  | some t =>
    rw [step_ofChar hc] at hstep
    rcases read_eq_error hstep with ⟨operator, k, herror⟩ | ⟨rfl, _, herror⟩
    · have hmem : ⟨operator, k⟩ ∈ r.named := by
        rw [Rejection.named, herror]
        exact List.mem_append_right _ (List.mem_singleton_self _)
      exact .inr (.inl ⟨operator, k, herror, (hnamed _ hmem).position_lt⟩)
    · have hparenthesis : c = ')' := (Token.toChar_of_ofChar? hc).symm
      refine .inr (.inr ⟨l.length, herror, by rw [hchar, hparenthesis], ?_⟩)
      have htake : text.take (l.length + 1) = l ++ [c] := by
        rw [htext, List.append_cons]
        exact List.take_left' (by simp)
      rw [htake, readText_append_of_ok hm, Nat.zero_add, readText_singleton hc]
      exact hstep

/-- The end of a pattern blames an operator or nothing at all. -/
theorem finish_eq_error (h : s.finish = .error r) :
    r.error.LacksOperand ∨ r.error = .malformed := by
  rcases exists_of_finish_eq_error h with htighter | ⟨m, _, rfl⟩
  · exact .inl (lacksOperand_of_applyTighter htighter)
  · exact .inr rfl

end Compilation

open Compilation

variable {pattern other : String} {r : Rejection} {e : PatternError}

/-- **What an error means**: for want of an operand and for what is found at the end nothing is said
here; a symbol is reported because it is foreign, and a parenthesis because it has been refused. -/
theorem compile_eq_error (h : compile pattern = .error e) :
    (e.LacksOperand ∨ e = .malformed) ∨
      (∃ k c, e = .unexpectedSymbol c k ∧ ForeignAt pattern.toList k c) ∨
      ∃ k r, e = .unmatchedParenthesis k ∧ pattern.toList[k]? = some ')' ∧
        readText {} 0 (pattern.toList.take (k + 1)) = .error r ∧ r.error = e := by
  unfold compile at h
  rw [report_eq] at h
  cases hs : (readText {} 0 pattern.toList).bind finish with
  | ok result =>
    rw [hs] at h
    cases h
  | error r =>
    rw [hs] at h
    obtain rfl : r.error = e := Except.error.inj h
    rcases exists_of_bind_eq_error hs with hread | ⟨s, _, hfinish⟩
    · rcases readText_eq_error hread with
        hforeign | ⟨operator, k, herror, _⟩ | ⟨k, herror, hchar, htake⟩
      · exact .inr (.inl hforeign)
      · exact .inl (.inl ⟨operator, k, herror⟩)
      · exact .inr (.inr ⟨k, r, herror, hchar, htake, rfl⟩)
    · exact .inl (finish_eq_error hfinish)

/-- **A beginning that is refused decides the report.** -/
theorem report_of_readText_eq_error {l : List Char} (h : readText {} 0 l = .error r)
    (hl : l <+: pattern.toList) : report pattern = ⟨pattern, r.applied, .error r.error⟩ := by
  obtain ⟨rest, hrest⟩ := hl
  have hread : readText {} 0 pattern.toList = .error r := by
    rw [← hrest, readText_append, h]
    rfl
  rw [report_eq, hread]
  rfl

/-- Patterns with the same beginning, which is refused, have the same error and the same log. -/
theorem compile_of_readText_take {k : Nat}
    (h : readText {} 0 (pattern.toList.take k) = .error r)
    (hother : other.toList.take k = pattern.toList.take k) :
    compile other = .error r.error ∧ (report other).records = (report pattern).records := by
  have hpattern := report_of_readText_eq_error h (List.take_prefix k pattern.toList)
  rw [← hother] at h
  have hreport := report_of_readText_eq_error h (List.take_prefix k other.toList)
  unfold compile
  rw [hpattern, hreport]
  exact ⟨rfl, rfl⟩

/-- A text of tokens before a foreign character: it is refused there at the latest. -/
theorem exists_readText_of_foreignAt {text : List Char} {k : Nat} {c : Char}
    (h : ForeignAt text k c) :
    ∃ r, readText {} 0 (text.take (k + 1)) = .error r ∧
      (r.error = .unexpectedSymbol c k ∨
        (∃ operator j, j < k ∧ r.error = .missingOperand operator j) ∨
        ∃ j, j < k ∧ r.error = .unmatchedParenthesis j) := by
  obtain ⟨htake, hlength⟩ := h.take_succ
  rw [htake, readText_append, hlength, Nat.zero_add]
  cases hread : readText {} 0 (text.take k) with
  | ok s =>
    refine ⟨⟨.unexpectedSymbol c k, s.assembly.applied⟩, ?_, .inl rfl⟩
    show s.readText k [c] = _
    rw [readText_cons, step_ofChar_of_none h.ofChar?_eq_none]
    rfl
  | error r =>
    refine ⟨r, rfl, .inr ?_⟩
    rcases readText_eq_error hread with
      ⟨j, d, _, hforeign⟩ | ⟨operator, j, herror, hlt⟩ | ⟨j, herror, hchar, _⟩
    · -- all characters before the first foreign one are tokens
      have hmem : d ∈ text.take k := List.mem_of_getElem? hforeign.char
      exact absurd (h.before d hmem) hforeign.foreign
    · rw [hlength] at hlt
      exact .inl ⟨operator, j, hlt, herror⟩
    · have hlt := (List.getElem?_eq_some_iff.1 hchar).1
      rw [hlength] at hlt
      exact .inr ⟨j, hlt, herror⟩

/-- **Errors that a beginning decides.** A pattern with a foreign character is refused at the first
of these, unless an operator or a parenthesis before it has been refused already. A parenthesis that
is reported for want of a counterpart is a closing one. In both cases each pattern that agrees with
this one up to the character in question has the same error and the same log. Nothing but the first
foreign character of a pattern is reported as such. -/
theorem compile_of_take_eq (pattern : String) :
    (∀ k c, ForeignAt pattern.toList k c →
      ∃ e, (e = .unexpectedSymbol c k ∨ (∃ operator j, j < k ∧ e = .missingOperand operator j) ∨
          ∃ j, j < k ∧ e = .unmatchedParenthesis j) ∧
        ∀ other : String, other.toList.take (k + 1) = pattern.toList.take (k + 1) →
          compile other = .error e ∧ (report other).records = (report pattern).records) ∧
    (∀ k, compile pattern = .error (.unmatchedParenthesis k) →
      pattern.toList[k]? = some ')' ∧
        ∀ other : String, other.toList.take (k + 1) = pattern.toList.take (k + 1) →
          compile other = .error (.unmatchedParenthesis k) ∧
            (report other).records = (report pattern).records) ∧
    ∀ k c, compile pattern = .error (.unexpectedSymbol c k) → ForeignAt pattern.toList k c := by
  refine ⟨fun k c hforeign => ?_, fun k h => ?_, fun k c h => ?_⟩
  · obtain ⟨r, hread, herror⟩ := exists_readText_of_foreignAt hforeign
    exact ⟨r.error, herror, fun other hother => compile_of_readText_take hread hother⟩
  · rcases compile_eq_error h with
      (⟨_, _, herror⟩ | herror) | ⟨_, _, herror, _⟩ | ⟨j, r, herror, hchar, htake, hr⟩
    · cases herror
    · cases herror
    · cases herror
    · cases herror
      refine ⟨hchar, fun other hother => ?_⟩
      rw [← hr]
      exact compile_of_readText_take htake hother
  · rcases compile_eq_error h with
      (⟨_, _, herror⟩ | herror) | ⟨_, _, herror, hforeign⟩ | ⟨_, _, herror, _⟩
    · cases herror
    · cases herror
    · cases herror
      exact hforeign
    · cases herror

/-- A bar without a left side is noticed when its group is closed, before the foreign character
behind it; a bar outside is not noticed before that. -/
theorem compile_of_take_eq_foreign :
    (∃ e, compile "(|a)#" = .error e ∧ compile "(|a)#)((" = .error e ∧
        (report "(|a)#)((").records = (report "(|a)#").records) ∧
      compile "a)|#" = .error (.unmatchedParenthesis 1) ∧ "a)|#".toList[1]? = some ')' ∧
      compile "|a#" = .error (.unexpectedSymbol '#' 2) ∧ ForeignAt "|a#".toList 2 '#' := by
  have hforeign : ForeignAt "(|a)#".toList 4 '#' := ⟨rfl, by decide, by decide⟩
  refine ⟨?_, rfl, ((compile_of_take_eq "a)|#").2.1 1 rfl).1, rfl,
    (compile_of_take_eq "|a#").2.2 2 '#' rfl⟩
  obtain ⟨e, _, hsame⟩ := (compile_of_take_eq "(|a)#").1 4 '#' hforeign
  exact ⟨e, (hsame "(|a)#" rfl).1, hsame "(|a)#)((" rfl⟩

end PatternAutomata
