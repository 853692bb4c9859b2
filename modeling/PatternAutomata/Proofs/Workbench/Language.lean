import PatternAutomata.Automaton.Language
import PatternAutomata.Proofs.Arena.Fragment
import PatternAutomata.Proofs.Automaton.Acceptance
import PatternAutomata.Proofs.Workbench.Basic

/-!
# Operations on arbitrary fragments

What the fragment operations do to accepted words, in every arena that some construction leads to
and for fragments of any two of its states. The operands may share states, be one and the same
fragment, have been used before or lie on cycles; the languages on the right-hand sides are those of
the arena before the operation.

* `language_quantify`: repetition is exact without any condition.
* `language_join`: so are alternation and concatenation, but for the ways that cross from one
  operand to the other. Where no way crosses, they are sum and product.

An automaton accepts what its paths spell (`language_eq_words`), and a construction keeps edges
within the arena, so these are the laws of `words_quantify`, `words_alternate` and
`words_concatenate`.
-/

namespace PatternAutomata

open scoped Computability

namespace Arena

variable {a : Arena} {f g : Fragment}

/-- A fragment accepts the words between its ends. -/
theorem language_eq_words (hexit : f.exit < a.size) :
    a.language f = a.words f.entry f.exit := by
  ext w
  have haccepts := accepts_finish hexit (String.ofList w)
  rw [String.toList_ofList] at haccepts
  exact haccepts

theorem Contains.language_eq_words (hf : a.Contains f) :
    a.language f = a.words f.entry f.exit :=
  Arena.language_eq_words hf.exit_lt

/-- A fragment accepts nothing if no path leads from its entry to its exit. -/
theorem language_eq_zero (hexit : f.exit < a.size) (h : ∀ v, ¬ a.Path f.entry v f.exit) :
    a.language f = 0 := by
  rw [language_eq_words hexit]
  exact Set.eq_empty_of_forall_notMem h

/-- A quantifier makes of a fragment what it makes of its language. -/
theorem language_quantify_eq_onLanguage (ha : a.IsClosed) (hf : a.Contains f) (q : Quantifier) :
    (a.quantify q f).1.language (a.quantify q f).2 = q.onLanguage (a.language f) := by
  have hmakes := Makes.quantify ha hf q
  rw [hmakes.contains.language_eq_words, hf.language_eq_words,
    words_quantify ha hf.entry_lt hf.exit_lt]

theorem language_alternate_eq (ha : a.IsClosed) (hf : a.Contains f) (hg : a.Contains g) :
    (a.alternate f g).1.language (a.alternate f g).2 =
      a.language f + a.language g + a.language ⟨f.entry, g.exit⟩ +
        a.language ⟨g.entry, f.exit⟩ := by
  have hmakes := Makes.alternate ha hf hg
  rw [hmakes.contains.language_eq_words, hf.language_eq_words, hg.language_eq_words,
    language_eq_words (f := ⟨f.entry, g.exit⟩) hg.exit_lt,
    language_eq_words (f := ⟨g.entry, f.exit⟩) hf.exit_lt,
    words_alternate ha hf.entry_lt hf.exit_lt hg.entry_lt hg.exit_lt]

theorem language_concatenate_eq (ha : a.IsClosed) (hf : a.Contains f) (hg : a.Contains g) :
    (a.concatenate f g).1.language (a.concatenate f g).2 =
      a.language ⟨f.entry, g.exit⟩ +
        a.language f * (a.language ⟨g.entry, f.exit⟩)∗ * a.language g := by
  have hmakes := Makes.concatenate ha hf hg
  rw [hmakes.contains.language_eq_words, hf.language_eq_words, hg.language_eq_words,
    language_eq_words (f := ⟨f.entry, g.exit⟩) hg.exit_lt,
    language_eq_words (f := ⟨g.entry, f.exit⟩) hf.exit_lt, words_concatenate hf.exit_lt]

end Arena

namespace Workbench

variable {w : Workbench} {steps : List Step} {products : List Product} {f g : Fragment}

/-! ### One operand -/

/-- **Repetition is exact.** Whatever has been built, and whatever two states are taken for the ends
of a fragment, the quantifiers make of it what it accepts, one or more times, any number of times,
and at most once. -/
theorem language_quantify (h : ({} : Workbench).performAll steps = some (products, w))
    (hentry : f.entry < w.arena.size) (hexit : f.exit < w.arena.size) :
    (w.arena.quantify .plus f).1.language (w.arena.quantify .plus f).2 =
        w.arena.language f * (w.arena.language f)∗ ∧
      (w.arena.quantify .star f).1.language (w.arena.quantify .star f).2 =
        (w.arena.language f)∗ ∧
      (w.arena.quantify .optional f).1.language (w.arena.quantify .optional f).2 =
        1 + w.arena.language f := by
  have hclosed := (isValid_of_performAll h).isClosed
  have hf : w.arena.Contains f := ⟨hentry, hexit⟩
  have hlaw := Arena.language_quantify_eq_onLanguage hclosed hf
  exact ⟨hlaw .plus, hlaw .star, hlaw .optional⟩

/-- The fragment repeated here begins and ends in the same state, on which there are two loops
already. -/
theorem language_quantify_loop :
    ∃ products w, ({} : Workbench).performAll [.literal 'a', .edge 1 .empty 0,
        .edge 0 (.char 'b') 0, .edge 0 .empty 0] = some (products, w) ∧ 0 < w.arena.size ∧
      (w.arena.quantify .star ⟨0, 0⟩).1.language (w.arena.quantify .star ⟨0, 0⟩).2 =
        (w.arena.language ⟨0, 0⟩)∗ ∧
      ['b', 'a', 'b'] ∈ w.arena.language ⟨0, 0⟩ := by
  have hrun : ({} : Workbench).performAll [.literal 'a', .edge 1 .empty 0, .edge 0 (.char 'b') 0,
      .edge 0 .empty 0] = some (_, _) := rfl
  refine ⟨_, _, hrun, by decide, ?_, ?_⟩
  · exact (language_quantify (f := ⟨0, 0⟩) hrun (by decide) (by decide)).2.1
  · rw [Arena.language_eq_words (by decide)]
    refine .char (t := 0) (by decide) (.char (t := 1) (by decide) (.empty (t := 0) (by decide) ?_))
    exact .char (t := 0) (by decide) (.nil 0)

/-! ### Two operands -/

/-- **Alternation and concatenation are exact.** Whatever has been built, and whatever states are
taken for the ends of two fragments, alternation accepts what leads from one of the entries to one
of the exits. Concatenation accepts what leads past the new edge, and what takes it, returns any
number of times from the second entry to the first exit to take it again, and leads on. Where no
path leads from an operand to the exit of the other, these are the sum and the product. -/
theorem language_join (h : ({} : Workbench).performAll steps = some (products, w))
    (hf : f.entry < w.arena.size ∧ f.exit < w.arena.size)
    (hg : g.entry < w.arena.size ∧ g.exit < w.arena.size) :
    (w.arena.alternate f g).1.language (w.arena.alternate f g).2 =
        w.arena.language f + w.arena.language g + w.arena.language ⟨f.entry, g.exit⟩ +
          w.arena.language ⟨g.entry, f.exit⟩ ∧
      (w.arena.concatenate f g).1.language (w.arena.concatenate f g).2 =
        w.arena.language ⟨f.entry, g.exit⟩ +
          w.arena.language f * (w.arena.language ⟨g.entry, f.exit⟩)∗ * w.arena.language g ∧
      ((∀ v, ¬ w.arena.Path f.entry v g.exit) → (∀ v, ¬ w.arena.Path g.entry v f.exit) →
        (w.arena.alternate f g).1.language (w.arena.alternate f g).2 =
            w.arena.language f + w.arena.language g ∧
          (w.arena.concatenate f g).1.language (w.arena.concatenate f g).2 =
            w.arena.language f * w.arena.language g) := by
  have hclosed := (isValid_of_performAll h).isClosed
  have hf' : w.arena.Contains f := ⟨hf.1, hf.2⟩
  have hg' : w.arena.Contains g := ⟨hg.1, hg.2⟩
  have halternate := Arena.language_alternate_eq hclosed hf' hg'
  have hconcatenate := Arena.language_concatenate_eq hclosed hf' hg'
  refine ⟨halternate, hconcatenate, ?_⟩
  intro hforward hback
  -- without crossings the two mixed languages are empty
  have hforward' := Arena.language_eq_zero (f := ⟨f.entry, g.exit⟩) hg.2 hforward
  have hback' := Arena.language_eq_zero (f := ⟨g.entry, f.exit⟩) hf.2 hback
  constructor
  · rw [halternate, hforward', hback', add_zero, add_zero]
  · rw [hconcatenate, hforward', hback', kstar_zero, mul_one, zero_add]

/-- Two literals lie apart, so that their alternation accepts one of them but not both in a row. A
literal concatenated with itself is repeated: once is enough, but the empty word is not accepted. -/
theorem language_join_literals :
    ∃ products w, ({} : Workbench).performAll [.literal 'a', .literal 'b'] = some (products, w) ∧
      (w.arena.alternate ⟨0, 1⟩ ⟨2, 3⟩).1.language (w.arena.alternate ⟨0, 1⟩ ⟨2, 3⟩).2 =
        w.arena.language ⟨0, 1⟩ + w.arena.language ⟨2, 3⟩ ∧
      (w.arena.concatenate ⟨0, 1⟩ ⟨0, 1⟩).1.language (w.arena.concatenate ⟨0, 1⟩ ⟨0, 1⟩).2 =
        w.arena.language ⟨0, 1⟩ +
          w.arena.language ⟨0, 1⟩ * (w.arena.language ⟨0, 1⟩)∗ * w.arena.language ⟨0, 1⟩ ∧
      (['b'] ∈ (w.arena.alternate ⟨0, 1⟩ ⟨2, 3⟩).1.language (w.arena.alternate ⟨0, 1⟩ ⟨2, 3⟩).2 ∧
        ['a', 'b'] ∉
          (w.arena.alternate ⟨0, 1⟩ ⟨2, 3⟩).1.language (w.arena.alternate ⟨0, 1⟩ ⟨2, 3⟩).2) ∧
      ['a'] ∈ (w.arena.concatenate ⟨0, 1⟩ ⟨0, 1⟩).1.language
          (w.arena.concatenate ⟨0, 1⟩ ⟨0, 1⟩).2 ∧
        [] ∉ (w.arena.concatenate ⟨0, 1⟩ ⟨0, 1⟩).1.language
          (w.arena.concatenate ⟨0, 1⟩ ⟨0, 1⟩).2 := by
  have hrun : ({} : Workbench).performAll [.literal 'a', .literal 'b'] = some (_, _) := rfl
  refine ⟨_, _, hrun, ?_, ?_, ⟨?_, ?_⟩, ?_, ?_⟩
  · refine ((language_join (f := ⟨0, 1⟩) (g := ⟨2, 3⟩) hrun (by decide) (by decide)).2.2 ?_ ?_).1
    -- neither the states below 2 nor the states 2 and 3 can be left
    · intro v hpath
      have hlt : 3 < 2 := hpath.preserves (P := (· < 2)) (by decide) (by decide)
      exact absurd hlt (by decide)
    · intro v hpath
      have hmem : 1 = 2 ∨ 1 = 3 :=
        hpath.preserves (P := fun s => s = 2 ∨ s = 3) (by rintro _ (rfl | rfl) <;> decide)
          (.inl rfl)
      exact absurd hmem (by decide)
  · exact (language_join (f := ⟨0, 1⟩) (g := ⟨0, 1⟩) hrun (by decide) (by decide)).2.1
  · show Automaton.accepts _ (String.ofList ['b']) = true
    decide +kernel
  · show ¬ Automaton.accepts _ (String.ofList ['a', 'b']) = true
    decide +kernel
  · show Automaton.accepts _ (String.ofList ['a']) = true
    decide +kernel
  · show ¬ Automaton.accepts _ (String.ofList []) = true
    decide +kernel

end Workbench

end PatternAutomata
