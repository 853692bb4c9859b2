import PatternAutomata.Proofs.Arena.Making
import PatternAutomata.Proofs.Automaton.Acceptance
import PatternAutomata.Proofs.Compilation.Tree
import PatternAutomata.Proofs.Tree.Language

/-!
# What a compiled pattern accepts

The compilation of a pattern builds the automaton of its tree (`report_phrase`), the fragment of a
tree stands for the language of the tree (`Tree.builds`), and a phrase means the same as its tree
(`Phrase.language_tree`). An automaton accepts what is spelt on its paths
(`Automaton.accepts_iff_path`). Together: a compiled pattern accepts the words that it stands for.
-/

namespace PatternAutomata

/-- The automaton of a tree accepts the words of the tree. -/
theorem Tree.accepts_automaton (t : Tree) (input : String) :
    t.automaton.accepts input = true ↔ input.toList ∈ t.language := by
  obtain ⟨_, hadds, hwords⟩ := t.builds Arena.isClosed_empty
  rw [← hwords, Arena.mem_words]
  exact Arena.accepts_finish hadds.exit_mem.2 input

/-- The automaton of a phrase accepts the words of the phrase. -/
theorem Phrase.accepts_automaton (e : Phrase .expression) (input : String) :
    (e.tree 0).automaton.accepts input = true ↔ input.toList ∈ e.language := by
  rw [Tree.accepts_automaton, language_tree]

/-- **A pattern compiles, and what is compiled accepts an input iff the pattern stands for it.** -/
theorem compile_accepts_iff (e : Phrase .expression) :
    ∃ m, compile (String.ofList e.text) = .ok m ∧
      ∀ input : String, m.accepts input = true ↔ input.toList ∈ e.language := by
  refine ⟨(e.tree 0).automaton, ?_, ?_⟩
  · unfold compile
    rw [report_phrase]
  · intro input
    rw [Tree.accepts_automaton, Phrase.language_tree]

end PatternAutomata
