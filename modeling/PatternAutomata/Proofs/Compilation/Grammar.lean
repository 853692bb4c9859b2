import PatternAutomata.Proofs.Compilation.Outline
import PatternAutomata.Proofs.Compilation.Tree

/-!
# What compiles

The texts that compile are those that the grammar derives (`exists_compile_eq_ok_iff`). A derivation
tells how the compilation goes, which settles one direction. In the other direction there is no tree
to start from: counting shows that a compilation which goes through has left out no operand, hence
follows an outline that ends well, and from this a derivation can be put together.
-/

namespace PatternAutomata

/-- A text that the grammar derives compiles. -/
theorem exists_compile_of_isPattern {pattern : String} (h : IsPattern pattern) :
    ∃ m, compile pattern = .ok m := by
  obtain ⟨e, he⟩ := h
  exact ⟨(e.tree 0).automaton, compile_of_text he⟩

/-- A text that compiles is derived by the grammar. -/
theorem isPattern_of_compile_eq_ok {pattern : String} {m : Automaton}
    (h : compile pattern = .ok m) : IsPattern pattern :=
  Outline.isPattern_iff_readAll.2 (readAll_of_compile_eq_ok h)

/-- **A text compiles iff the grammar derives it**, and that is so iff it is orderly: no character
is foreign, parentheses match, and an operand begins at the beginning, behind every open parenthesis
and behind every bar. -/
theorem exists_compile_eq_ok_iff (pattern : String) :
    ((∃ m, compile pattern = .ok m) ↔ IsPattern pattern) ∧
      ((∃ m, compile pattern = .ok m) ↔ IsOrderly pattern.toList) := by
  have hgrammar : (∃ m, compile pattern = .ok m) ↔ IsPattern pattern :=
    ⟨fun ⟨_, h⟩ => isPattern_of_compile_eq_ok h, exists_compile_of_isPattern⟩
  exact ⟨hgrammar, hgrammar.trans isPattern_iff_isOrderly⟩

-- the bar is applied to an operand from outside its group, and the concatenation then misses it
example : (report "x(|a)").applied = #[⟨.alternation, 2⟩] ∧
    compile "x(|a)" = .error (.missingOperand .concatenation 1) := ⟨rfl, rfl⟩

end PatternAutomata
