import Mathlib.Data.List.TakeWhile

/-!
# Numbers in a text

A number is written in decimal digits, and nothing marks where it ends. If what follows it does not
begin with a digit, the number and what follows it can be told apart (`toString_append_inj`).
-/

namespace PatternAutomata

/-- A number that stands before the text ends there: the text does not begin with a digit. -/
def EndsNumber (l : List Char) : Prop := ∀ c ∈ l.head?, c.isDigit = false

variable {m n : Nat} {l r : List Char}

/-- A number can be computed from its digits. -/
theorem ofDigitChars_toString (n : Nat) : Nat.ofDigitChars 10 (toString n).toList 0 = n := by
  rw [Nat.toString_eq_repr, Nat.toList_repr]
  exact Nat.ofDigitChars_toDigits (by decide) (by decide)

/-- Different numbers have different digits. -/
theorem toString_inj (h : (toString m).toList = (toString n).toList) : m = n := by
  rw [← ofDigitChars_toString m, h, ofDigitChars_toString]

theorem isDigit_of_mem_toString {c : Char} (hc : c ∈ (toString n).toList) : c.isDigit = true := by
  rw [Nat.toString_eq_repr, Nat.toList_repr] at hc
  exact Nat.isDigit_of_mem_toDigits (by decide) (by decide) hc

/-- The digits at the beginning of a text, if there is a number. -/
theorem takeWhile_isDigit_toString_append (n : Nat) (hl : EndsNumber l) :
    ((toString n).toList ++ l).takeWhile Char.isDigit = (toString n).toList := by
  have hrest : l.takeWhile Char.isDigit = [] := by
    cases l with
    | nil => rfl
    | cons c l => exact List.takeWhile_cons_of_neg (by simp [hl c rfl])
  rw [List.takeWhile_append_of_pos fun c hc => isDigit_of_mem_toString hc, hrest, List.append_nil]

/-- **A number can be told apart from what follows it.** -/
theorem toString_append_inj (hl : EndsNumber l) (hr : EndsNumber r)
    (h : (toString m).toList ++ l = (toString n).toList ++ r) : m = n ∧ l = r := by
  have hdigits : (toString m).toList = (toString n).toList := by
    rw [← takeWhile_isDigit_toString_append m hl, h, takeWhile_isDigit_toString_append n hr]
  rw [hdigits] at h
  exact ⟨toString_inj hdigits, List.append_cancel_left h⟩

end PatternAutomata
