import Mathlib.Data.List.Basic
import PatternAutomata.Proofs.Token
import PatternAutomata.Quotation

/-!
# Plain characters

A character is plain if it stands for itself between quotes wherever the log is shown
(`isPlain_iff`). All characters that can stand in a pattern are, so a pattern that consists of them
is quoted as it is (`quote_of_isPlain`).
-/

namespace PatternAutomata

/-- The character is a printable one of ASCII, and neither the quote nor the backslash. -/
def IsPlain (c : Char) : Prop := 32 ≤ c.toNat ∧ c.toNat < 127 ∧ c ≠ '\"' ∧ c ≠ '\\'

instance (c : Char) : Decidable (IsPlain c) :=
  inferInstanceAs (Decidable (32 ≤ c.toNat ∧ c.toNat < 127 ∧ c ≠ '\"' ∧ c ≠ '\\'))

variable {isShown : Char → Bool} {c : Char} {s : String}

theorem quoteChar_of_isPlain (h : IsPlain c) : quoteChar isShown c = [c] := by
  obtain ⟨hlow, hhigh, hquote, hbackslash⟩ := h
  -- the characters that are written with a letter are below the printable ones
  have hne {d : Char} (hd : d.toNat < 32) : c ≠ d := by
    rintro rfl
    omega
  unfold quoteChar
  rw [if_neg (hne (by decide)), if_neg (hne (by decide)), if_neg (hne (by decide)),
    if_neg (hne (by decide)), if_neg (not_or.2 ⟨hquote, hbackslash⟩), if_pos (.inl ⟨hlow, hhigh⟩)]

/-- An escape by number is longer than a character. -/
theorem numberEscape_ne_singleton : numberEscape c ≠ [c] := by
  intro h
  have hlength := congrArg List.length h
  simp [numberEscape] at hlength

/-- **A plain character is one that is never escaped.** -/
theorem isPlain_iff : IsPlain c ↔ ∀ isShown, quoteChar isShown c = [c] := by
  constructor
  · exact fun h isShown => quoteChar_of_isPlain h
  · intro h
    -- where nothing beyond ASCII is shown, all escapes can be seen
    have hnone := h fun _ => false
    unfold quoteChar at hnone
    split_ifs at hnone with _ _ _ _ hmark hprinted
    iterate 5 cases hnone
    · rcases hprinted with ⟨hlow, hhigh⟩ | ⟨_, hshown⟩
      · obtain ⟨hquote, hbackslash⟩ := not_or.1 hmark
        exact ⟨hlow, hhigh, hquote, hbackslash⟩
      · cases hshown
    · exact absurd hnone numberEscape_ne_singleton

/-- A text of plain characters is only put between quotes. -/
theorem quote_of_isPlain (h : ∀ c ∈ s.toList, IsPlain c) :
    quote isShown s = "\"" ++ s ++ "\"" := by
  have hsame : s.toList.flatMap (quoteChar isShown) = s.toList := by
    calc s.toList.flatMap (quoteChar isShown)
        = s.toList.flatMap fun c => [c] :=
          List.flatMap_congr fun c hc => quoteChar_of_isPlain (h c hc)
      _ = s.toList := List.flatMap_singleton' s.toList
  rw [quote, hsame, String.ofList_toList]

/-- Every character that can stand in a pattern is plain. -/
theorem IsPatternCharacter.isPlain (hc : IsPatternCharacter c) : IsPlain c := by
  have halphabet : (alphabet.toList.all fun d => decide (IsPlain d)) = true := by decide +kernel
  have hmarks : (".*+?|()".toList.all fun d => decide (IsPlain d)) = true := by decide +kernel
  rcases hc with hc | hc
  · exact of_decide_eq_true (List.all_eq_true.1 halphabet c hc)
  · exact of_decide_eq_true (List.all_eq_true.1 hmarks c hc)

-- what is escaped by a mark, by a letter and by its number
example : quote (fun _ => true) "a\\\n\x1b" = "\"a\\\\\\n\\u\x7b1b\x7d\"" := by decide

end PatternAutomata
