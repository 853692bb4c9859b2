import Mathlib.Algebra.Order.Kleene
import Mathlib.Order.CompletePartialOrder
import PatternAutomata.Phrase.Language

/-!
# Quantifiers in a row

Two quantifiers in a row amount to one (`onLanguage_onLanguage`): to either of them if they are
equal, and to the star if they are not. They can therefore change places
(`onLanguage_comm`), and a run of quantifiers means the same whether it is applied in the order in
which it is written or in the reverse one (`foldl_onLanguage`). All of it amounts to one quantifier,
which can be told without regard to the order (`foldl_onLanguage_eq_collapse`), and makes no more of
a language than a star does (`foldl_onLanguage_le_kstar`).
-/

namespace PatternAutomata

open scoped Computability

namespace Quantifier

/-- What two quantifiers in a row amount to. -/
def combine (q r : Quantifier) : Quantifier := if q = r then q else star

theorem combine_comm (q r : Quantifier) : q.combine r = r.combine q := by
  cases q <;> cases r <;> rfl

section Kleene

variable {α : Type*} [KleeneAlgebra α] (a : α)

theorem kstar_mul_kstar_self : (a * a∗)∗ = a∗ := by
  apply le_antisymm
  · calc (a * a∗)∗ ≤ a∗∗ := kstar_mono mul_kstar_le_kstar
      _ = a∗ := kstar_idem a
  · apply kstar_mono
    calc a = a * 1 := (mul_one a).symm
      _ ≤ a * a∗ := by
        gcongr
        exact one_le_kstar

theorem kstar_one_add : (1 + a)∗ = a∗ := by
  apply le_antisymm
  · calc (1 + a)∗ ≤ a∗∗ := kstar_mono (add_le one_le_kstar le_kstar)
      _ = a∗ := kstar_idem a
  · exact kstar_mono le_add_self

end Kleene

/-- **Two quantifiers in a row amount to one.** -/
theorem onLanguage_onLanguage (q r : Quantifier) (l : Language Char) :
    q.onLanguage (r.onLanguage l) = (q.combine r).onLanguage l := by
  cases q <;> cases r
  case star.star => exact kstar_idem l
  case star.plus => exact kstar_mul_kstar_self l
  case star.optional => exact kstar_one_add l
  case plus.star =>
    show l∗ * l∗∗ = l∗
    rw [kstar_idem, kstar_mul_kstar]
  case plus.plus =>
    show l * l∗ * (l * l∗)∗ = l * l∗
    rw [kstar_mul_kstar_self, mul_assoc, kstar_mul_kstar]
  case plus.optional =>
    show (1 + l) * (1 + l)∗ = l∗
    rw [kstar_one_add, add_mul, one_mul]
    exact add_eq_left_iff_le.mpr mul_kstar_le_kstar
  case optional.star =>
    show 1 + l∗ = l∗
    exact add_eq_right_iff_le.mpr one_le_kstar
  case optional.plus => exact one_add_mul_kstar
  case optional.optional =>
    show 1 + (1 + l) = 1 + l
    rw [← add_assoc, add_idem]

/-- Quantifiers in a row can change places. -/
theorem onLanguage_comm (q r : Quantifier) (l : Language Char) :
    q.onLanguage (r.onLanguage l) = r.onLanguage (q.onLanguage l) := by
  rw [onLanguage_onLanguage, onLanguage_onLanguage, combine_comm]

/-- A quantifier under a run can come to stand over it. -/
theorem foldr_onLanguage (q : Quantifier) (run : List Quantifier) (l : Language Char) :
    run.foldr onLanguage (q.onLanguage l) = q.onLanguage (run.foldr onLanguage l) := by
  induction run with
  | nil => rfl
  | cons r run ih => rw [List.foldr_cons, ih, onLanguage_comm, List.foldr_cons]

/-- **The order in which a run of quantifiers is applied does not matter.** -/
theorem foldl_onLanguage (run : List Quantifier) (l : Language Char) :
    run.foldl (fun l q => q.onLanguage l) l = run.foldr onLanguage l := by
  induction run generalizing l with
  | nil => rfl
  | cons q run ih => rw [List.foldl_cons, ih, foldr_onLanguage, List.foldr_cons]

/-- A quantifier makes rows of an operand's words, as a star does. -/
theorem onLanguage_le_kstar (q : Quantifier) (l : Language Char) : q.onLanguage l ≤ l∗ := by
  cases q with
  | star => exact le_rfl
  | plus => exact mul_kstar_le_kstar
  | optional => exact add_le one_le_kstar le_kstar

/-- A run of quantifiers makes no more than a star does. -/
theorem foldl_onLanguage_le_kstar (run : List Quantifier) (l : Language Char) :
    run.foldl (fun l q => q.onLanguage l) l ≤ l∗ := by
  induction run generalizing l with
  | nil => exact le_kstar
  | cons q run ih =>
    calc run.foldl (fun l q => q.onLanguage l) (q.onLanguage l)
        ≤ (q.onLanguage l)∗ := ih _
      _ ≤ l∗∗ := kstar_mono (q.onLanguage_le_kstar l)
      _ = l∗ := kstar_idem l

/-- What a run of quantifiers amounts to: the plus or the optional if there is nothing else in the
run, and the star otherwise. -/
def collapse (run : List Quantifier) : Quantifier :=
  if run.all (· = plus) then plus else if run.all (· = optional) then optional else star

theorem collapse_cons (q : Quantifier) {run : List Quantifier} (hrun : run ≠ []) :
    collapse (q :: run) = q.combine (collapse run) := by
  obtain ⟨r, run, rfl⟩ := List.exists_cons_of_ne_nil hrun
  cases q <;> cases r <;> simp [collapse, combine] <;> split_ifs <;> simp

/-- **A run of quantifiers amounts to one.** -/
theorem foldl_onLanguage_eq_collapse {run : List Quantifier} (hrun : run ≠ [])
    (l : Language Char) :
    run.foldl (fun l q => q.onLanguage l) l = (collapse run).onLanguage l := by
  rw [foldl_onLanguage]
  induction run with
  | nil => exact absurd rfl hrun
  | cons q run ih =>
    cases run with
    | nil => cases q <;> rfl
    | cons r run =>
      rw [List.foldr_cons, ih (List.cons_ne_nil r run), onLanguage_onLanguage,
        collapse_cons q (List.cons_ne_nil r run)]

end Quantifier

end PatternAutomata
