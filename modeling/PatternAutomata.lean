import PatternAutomata.Arena.Path
import PatternAutomata.Automaton.Dump
import PatternAutomata.Automaton.Language
import PatternAutomata.Phrase.Language
import PatternAutomata.Phrase.Tree
import PatternAutomata.Regex
import PatternAutomata.Workbench.History
import PatternAutomata.Workbench.Language
import PatternAutomata.Proofs.Automaton.Acceptance
import PatternAutomata.Proofs.Arena.Fragment
import PatternAutomata.Proofs.Arena.Extension
import PatternAutomata.Proofs.Phrase.Quantifier
import PatternAutomata.Proofs.Tree.Language
import PatternAutomata.Proofs.Token
import PatternAutomata.Proofs.Compilation.Assembly
import PatternAutomata.Proofs.Compilation.Basic
import PatternAutomata.Proofs.Compilation.Tree
import PatternAutomata.Proofs.Phrase.Outline
import PatternAutomata.Proofs.Phrase.Orderly
import PatternAutomata.Proofs.Compilation.Outline
import PatternAutomata.Proofs.Compilation.Grammar
import PatternAutomata.Proofs.Compilation.Language
import PatternAutomata.Proofs.Workbench.Basic
import PatternAutomata.Proofs.Workbench.Language
import PatternAutomata.Proofs.Arena.Separation
import PatternAutomata.Proofs.Workbench.Linear
import PatternAutomata.Proofs.Compilation.Failure
import PatternAutomata.Proofs.Compilation.Verdict
import PatternAutomata.Proofs.Arena.Trim
import PatternAutomata.Proofs.Compilation.Trim
import PatternAutomata.Proofs.Compilation.Account
import PatternAutomata.Proofs.Compilation.Log
import PatternAutomata.Proofs.Compilation.Prefix
import PatternAutomata.Proofs.Compilation.Blame
import PatternAutomata.Proofs.Compilation.Unfinished
import PatternAutomata.Proofs.Phrase.Run
import PatternAutomata.Proofs.Compilation.Collapse
import PatternAutomata.Proofs.Compilation.Relocation
import PatternAutomata.Proofs.Compilation.Parentheses
import PatternAutomata.Proofs.Automaton.Dump
import PatternAutomata.Proofs.Arena.Order
import PatternAutomata.Proofs.Workbench.History
import PatternAutomata.Proofs.Workbench.Reordering
import PatternAutomata.Proofs.Workbench.Growth
import PatternAutomata.Proofs.Compilation.Stacks
import PatternAutomata.Proofs.Automaton.Worklist
import PatternAutomata.Proofs.PatternError
import PatternAutomata.Proofs.Compilation.Alphabet
