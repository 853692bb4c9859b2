import Mathlib.Data.Set.List
import PatternAutomata.Proofs.Compilation.Language
import PatternAutomata.Proofs.Compilation.Trim
import PatternAutomata.Proofs.Phrase.Run

/-!
# Stacked quantifiers collapse

Of several quantifiers in a row in a pattern, no more matters for what is accepted than whether they
are all the same: one quantifier can take their place (`accepts_of_collapsed`). The automaton is
another one, with fewer states or fewer edges, so this is a law about accepted inputs and not about
automata.

Runs that amount to the same quantifier can be exchanged (`exists_compile_of_collapsed_eq`). In
which order a run is written is therefore of no account, and neither is it that the compilation
applies its quantifiers in the reverse order.
-/

namespace PatternAutomata

variable {l r w w' : String} {m : Automaton} {run : List Quantifier}

/-- The text consists of quantifiers, and there is at least one. -/
structure IsRun (w : String) : Prop where
  ne_empty : w ≠ ""
  mem_quantifiers : ∀ c ∈ w.toList, c ∈ ['*', '+', '?']

instance (w : String) : Decidable (IsRun w) :=
  decidable_of_iff (w ≠ "" ∧ w.toList.all (· ∈ ['*', '+', '?']) = true)
    ⟨fun h => ⟨h.1, by simpa using h.2⟩, fun h => ⟨h.1, by simpa using h.2⟩⟩

/-- The character of the one quantifier to which a run of quantifiers amounts: that of the run if
all its characters are plus signs or all are question marks, and otherwise the star. -/
def collapsed (w : String) : Char :=
  if w.toList.all (· = '+') then '+' else if w.toList.all (· = '?') then '?' else '*'

/-- A run as a list of quantifiers. -/
theorem IsRun.exists_map_toChar_eq (h : IsRun w) :
    ∃ run : List Quantifier, run ≠ [] ∧ run.map Quantifier.toChar = w.toList := by
  have hmem : w.toList ∈ Set.range (List.map Quantifier.toChar) := by
    rw [Set.range_list_map]
    intro c hc
    have hquantifier := h.mem_quantifiers c hc
    simp only [List.mem_cons, List.not_mem_nil, or_false] at hquantifier
    rcases hquantifier with rfl | rfl | rfl
    · exact ⟨.star, rfl⟩
    · exact ⟨.plus, rfl⟩
    · exact ⟨.optional, rfl⟩
  obtain ⟨run, hrun⟩ := hmem
  refine ⟨run, ?_, hrun⟩
  rintro rfl
  exact h.ne_empty (String.toList_eq_nil_iff.1 hrun.symm)

/-- The character of what the list of quantifiers amounts to. -/
theorem toChar_collapse (h : run.map Quantifier.toChar = w.toList) :
    (Quantifier.collapse run).toChar = collapsed w := by
  have hall (q : Quantifier) : w.toList.all (· = q.toChar) = run.all (· = q) := by
    rw [← h, List.all_map]
    congr 1
    funext r
    exact decide_eq_decide.2 Quantifier.toChar_injective.eq_iff
  have hplus : w.toList.all (· = '+') = run.all (· = .plus) := hall .plus
  have hoptional : w.toList.all (· = '?') = run.all (· = .optional) := hall .optional
  unfold collapsed Quantifier.collapse
  rw [hplus, hoptional]
  split_ifs <;> rfl

/-- A single quantifier amounts to itself. -/
theorem isRun_collapsed (w : String) :
    IsRun (String.singleton (collapsed w)) ∧
      collapsed (String.singleton (collapsed w)) = collapsed w := by
  have hcases : collapsed w = '*' ∨ collapsed w = '+' ∨ collapsed w = '?' := by
    unfold collapsed
    split_ifs <;> simp
  rcases hcases with h | h | h <;> rw [h] <;> exact ⟨by decide, by decide⟩

/-- The order of a run does not matter. -/
theorem IsRun.perm (h : IsRun w) (hperm : w'.toList.Perm w.toList) :
    IsRun w' ∧ collapsed w' = collapsed w := by
  refine ⟨⟨?_, fun c hc => h.mem_quantifiers c (hperm.subset hc)⟩, ?_⟩
  · rintro rfl
    exact h.ne_empty (String.toList_eq_nil_iff.1 hperm.nil_eq.symm)
  · unfold collapsed
    rw [hperm.all_eq, hperm.all_eq]

/-- **Runs that amount to the same quantifier can be exchanged** in a pattern. -/
theorem exists_compile_of_collapsed_eq (hw : IsRun w) (hw' : IsRun w')
    (hsame : collapsed w' = collapsed w) (h : compile (l ++ w ++ r) = .ok m) :
    ∃ m', compile (l ++ w' ++ r) = .ok m' ∧
      ∀ input : String, m'.accepts input = m.accepts input := by
  obtain ⟨run, hne, hrun⟩ := hw.exists_map_toChar_eq
  obtain ⟨run', hne', hrun'⟩ := hw'.exists_map_toChar_eq
  have hcollapse : Quantifier.collapse run = Quantifier.collapse run' := by
    apply Quantifier.toChar_injective
    rw [toChar_collapse hrun, toChar_collapse hrun', hsame]
  have hlanguages (L : Language Char) : run.foldl (fun L q => q.onLanguage L) L =
      run'.foldl (fun L q => q.onLanguage L) L := by
    rw [Quantifier.foldl_onLanguage_eq_collapse hne, Quantifier.foldl_onLanguage_eq_collapse hne',
      hcollapse]
  obtain ⟨e, he, rfl⟩ := exists_phrase_of_compile_eq_ok h
  rw [String.toList_append, String.toList_append, ← hrun] at he
  obtain ⟨e', he', hlanguage⟩ := e.exists_replace_run hne hlanguages he
  rw [hrun', ← String.toList_append, ← String.toList_append] at he'
  refine ⟨(e'.tree 0).automaton, compile_of_text he', fun input => ?_⟩
  rw [Bool.eq_iff_iff, Phrase.accepts_automaton, Phrase.accepts_automaton, hlanguage]

/-- **Stacked quantifiers collapse.** In a pattern that compiles, a run of quantifiers can be
replaced by one: the plus if there are only plus signs in the run, the question mark if there are
only question marks, and otherwise the star. It can also be written in any other order. What results
compiles too, and accepts the same inputs. -/
theorem accepts_of_collapsed (hw : IsRun w) (h : compile (l ++ w ++ r) = .ok m) :
    (∃ m', compile (l ++ String.singleton (collapsed w) ++ r) = .ok m' ∧
        ∀ input : String, m'.accepts input = m.accepts input) ∧
      ∀ w' : String, w'.toList.Perm w.toList → ∃ m', compile (l ++ w' ++ r) = .ok m' ∧
        ∀ input : String, m'.accepts input = m.accepts input := by
  constructor
  · obtain ⟨hrun, hsame⟩ := isRun_collapsed w
    exact exists_compile_of_collapsed_eq hw hrun hsame h
  · intro w' hperm
    obtain ⟨hrun, hsame⟩ := hw.perm hperm
    exact exists_compile_of_collapsed_eq hw hrun hsame h

/-- A run within a group, with one more quantifier before it and one behind. In the group there can
be any number of `a` before the `b`, but the `b` must be there. -/
theorem accepts_of_collapsed_inner :
    ∃ m m', compile "x(a*+??b)*" = .ok m ∧ compile "x(a**?b)*" = .ok m' ∧
      (∀ input : String, m'.accepts input = m.accepts input) ∧
      m'.accepts "xbaab" = true ∧ m'.accepts "xba" = false := by
  obtain ⟨m, hm⟩ : ∃ m, compile "x(a*+??b)*" = .ok m := ⟨_, rfl⟩
  have hcut : compile ("x(a*" ++ "+?" ++ "?b)*") = .ok m := hm
  obtain ⟨⟨m', hm', haccepts⟩, _⟩ := accepts_of_collapsed (by decide) hcut
  have hwords : (compile "x(a*+??b)*").toOption.all
      (fun m => m.accepts "xbaab" && !m.accepts "xba") = true := by decide +kernel
  rw [hm] at hwords
  obtain ⟨hyes, hno⟩ := Bool.and_eq_true_iff.1 hwords
  refine ⟨m, m', hm, hm', haccepts, ?_, ?_⟩
  · rw [haccepts, hyes]
  · rw [haccepts]
    simpa using hno

-- the automata differ, as a question mark and a star have states of their own
example : (compile "a?*").toOption.map Automaton.size = some 6 ∧
    (compile "a*").toOption.map Automaton.size = some 4 := ⟨rfl, rfl⟩

end PatternAutomata
