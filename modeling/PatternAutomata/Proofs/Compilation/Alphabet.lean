import Mathlib.Data.List.TFAE
import PatternAutomata.Proofs.Compilation.Language
import PatternAutomata.Proofs.Compilation.Trim
import PatternAutomata.Proofs.Lexeme

/-!
# Texts without operators

A text of which all characters are in the alphabet is a pattern for itself and for nothing else, and
a row of dots of the same length matches it. Both are rows of atoms, and what a row of atoms accepts
can be told place by place (`exists_compile_row`).

Conversely, whatever the pattern is, the words that it accepts are written in the alphabet
(`mem_alphabet_of_accepts`): an operator can make rows of what the wildcard stands for, but nothing
else (`Phrase.language_le_kstar`). A text with a mark or a foreign character is therefore accepted by
no pattern, least of all by itself, even where it compiles. So the range test by which literals are
read and the list from which the wildcard is built come to the same (`tfae_mem_alphabet`).
-/

namespace PatternAutomata

open scoped Computability

/-! ### Words over the alphabet -/

section

variable {k : Category} {e : Phrase k} {w : List Char}

/-- **What a phrase stands for are rows of characters that the wildcard matches.** -/
theorem Phrase.language_le_kstar (e : Phrase k) : e.language ≤ dot.language∗ := by
  induction e with
  | literal c hc =>
    have hdot : (literal c hc).language ≤ dot.language := by
      rintro w rfl
      exact ⟨c, hc, rfl⟩
    exact hdot.trans le_kstar
  | dot => exact le_kstar
  | group inner ih | branch inner ih | single inner ih => exact ih
  | factor base run ih =>
    calc (factor base run).language
        ≤ base.language∗ := Quantifier.foldl_onLanguage_le_kstar run base.language
      _ ≤ dot.language∗∗ := kstar_mono ih
      _ = dot.language∗ := kstar_idem _
  | juxtapose first rest ihf ihr =>
    calc first.language * rest.language
        ≤ dot.language∗ * dot.language∗ := mul_le_mul' ihf ihr
      _ = dot.language∗ := kstar_mul_kstar _
  | choice first rest ihf ihr => exact add_le ihf ihr

theorem mem_alphabet_of_mem_language (hw : w ∈ e.language) : ∀ c ∈ w, c ∈ alphabet.toList := by
  obtain ⟨pieces, rfl, hpieces⟩ := Language.mem_kstar.1 (e.language_le_kstar hw)
  intro c hc
  obtain ⟨piece, hpiece, hmem⟩ := List.mem_flatten.1 hc
  obtain ⟨d, hd, rfl⟩ := hpieces piece hpiece
  rwa [List.mem_singleton.1 hmem]

/-- **What is accepted is written in the alphabet**, whatever the pattern. -/
theorem mem_alphabet_of_accepts {pattern input : String} {m : Automaton}
    (h : compile pattern = .ok m) (haccepts : m.accepts input = true) :
    ∀ c ∈ input.toList, c ∈ alphabet.toList := by
  obtain ⟨e, _, rfl⟩ := exists_phrase_of_compile_eq_ok h
  rw [Phrase.accepts_automaton] at haccepts
  exact mem_alphabet_of_mem_language haccepts

end

/-! ### Rows of atoms -/

/-- The word has in each place a character that the atom in that place of the row matches. -/
def IsMatchedBy (w : List Char) (row : List Atom) : Prop :=
  List.Forall₂ (fun c x => c ∈ x.characters) w row

/-- An atom by itself is a factor, and stands for its characters. -/
theorem Atom.exists_factor {x : Atom} (hx : (Token.atom x).IsWritten) :
    ∃ e : Phrase .factor, e.text = [x.toChar] ∧
      ∀ w, w ∈ e.language ↔ ∃ c ∈ x.characters, w = [c] := by
  cases x with
  | literal c =>
    refine ⟨.factor (.literal c hx) [], rfl, fun w => ?_⟩
    simp only [characters, List.mem_singleton, exists_eq_left]
    exact Iff.rfl
  | dot => exact ⟨.factor .dot [], rfl, fun w => Iff.rfl⟩

/-- A row of atoms is a term, and stands for the words that it matches. -/
theorem exists_term_row (x : Atom) (row : List Atom)
    (h : ∀ y ∈ x :: row, (Token.atom y).IsWritten) :
    ∃ e : Phrase .term, e.text = (x :: row).map Atom.toChar ∧
      ∀ w, w ∈ e.language ↔ IsMatchedBy w (x :: row) := by
  induction row generalizing x with
  | nil =>
    obtain ⟨f, hf, hlanguage⟩ := Atom.exists_factor (h x List.mem_cons_self)
    refine ⟨.single f, hf, fun w => ?_⟩
    rw [Phrase.language, hlanguage, IsMatchedBy, List.forall₂_cons_right_iff]
    simp
  | cons y row ih =>
    obtain ⟨hx, hrow⟩ := List.forall_mem_cons.1 h
    obtain ⟨f, hf, hlanguage⟩ := Atom.exists_factor hx
    obtain ⟨e, he, hrest⟩ := ih y hrow
    refine ⟨.juxtapose f e, ?_, fun w => ?_⟩
    · rw [Phrase.text, hf, he]
      rfl
    · rw [Phrase.language, Language.mem_mul, IsMatchedBy, List.forall₂_cons_right_iff]
      constructor
      · rintro ⟨u, hu, v, hv, rfl⟩
        obtain ⟨c, hc, rfl⟩ := (hlanguage u).1 hu
        exact ⟨c, v, hc, (hrest v).1 hv, rfl⟩
      · rintro ⟨c, v, hc, hv, rfl⟩
        exact ⟨[c], (hlanguage [c]).2 ⟨c, hc, rfl⟩, v, (hrest v).2 hv, rfl⟩

/-- **A row of atoms compiles, and accepts the words that match it place by place.** -/
theorem exists_compile_row {pattern : String} {row : List Atom} (hne : row ≠ [])
    (hrow : ∀ x ∈ row, (Token.atom x).IsWritten) (h : pattern.toList = row.map Atom.toChar) :
    ∃ m, compile pattern = .ok m ∧
      ∀ input : String, m.accepts input = true ↔ IsMatchedBy input.toList row := by
  obtain ⟨x, row, rfl⟩ := List.exists_cons_of_ne_nil hne
  obtain ⟨e, he, hlanguage⟩ := exists_term_row x row hrow
  have htext : (Phrase.branch e).text = pattern.toList := he.trans h.symm
  refine ⟨((Phrase.branch e).tree 0).automaton, compile_of_text htext, fun input => ?_⟩
  rw [Phrase.accepts_automaton, Phrase.language, hlanguage]

/-- Literals match one word. -/
theorem isMatchedBy_literals_iff {w l : List Char} :
    IsMatchedBy w (l.map .literal) ↔ w = l := by
  rw [IsMatchedBy, List.forall₂_map_right_iff]
  simp only [Atom.characters, List.mem_singleton, List.forall₂_eq_eq_eq]

/-- As many dots as there are characters match the word if it is written in the alphabet. -/
theorem isMatchedBy_dots_iff {w : List Char} :
    IsMatchedBy w (w.map fun _ => .dot) ↔ ∀ c ∈ w, c ∈ alphabet.toList := by
  rw [IsMatchedBy, List.forall₂_map_right_iff, List.forall₂_same]
  rfl

/-! ### The two definitions of the alphabet -/

/-- The text as a pattern accepts itself and nothing else. -/
def IsPatternForItself (w : String) : Prop :=
  ∃ m, compile w = .ok m ∧ ∀ input : String, m.accepts input = true ↔ input = w

/-- A pattern of as many dots as the text has characters accepts the text. -/
def IsAcceptedByDots (w : String) : Prop :=
  ∃ m, compile (String.ofList (List.replicate w.length '.')) = .ok m ∧ m.accepts w = true

variable {w : String}

theorem isPatternForItself_of_mem_alphabet (hne : w ≠ "")
    (h : ∀ c ∈ w.toList, c ∈ alphabet.toList) : IsPatternForItself w := by
  have hrow : w.toList.map Atom.literal ≠ [] := by simpa using hne
  have htext : w.toList = (w.toList.map Atom.literal).map Atom.toChar := by
    rw [List.map_map]
    exact (List.map_id _).symm
  obtain ⟨m, hm, haccepts⟩ := exists_compile_row hrow (List.forall_mem_map.2 h) htext
  refine ⟨m, hm, fun input => ?_⟩
  rw [haccepts, isMatchedBy_literals_iff, String.toList_inj]

theorem isAcceptedByDots_of_mem_alphabet (hne : w ≠ "")
    (h : ∀ c ∈ w.toList, c ∈ alphabet.toList) : IsAcceptedByDots w := by
  have hrow : (w.toList.map fun _ => Atom.dot) ≠ [] := by simpa using hne
  have htext : (String.ofList (List.replicate w.length '.')).toList =
      (w.toList.map fun _ => Atom.dot).map Atom.toChar := by
    rw [String.toList_ofList, List.map_map, ← String.length_toList]
    exact (List.map_const' ..).symm
  obtain ⟨m, hm, haccepts⟩ := exists_compile_row hrow (by simp [Token.IsWritten]) htext
  exact ⟨m, hm, (haccepts w).2 (isMatchedBy_dots_iff.2 h)⟩

/-- **The two definitions of the alphabet agree.** If a text is not empty, the following are
equivalent: it is read as literals only; all of its characters are listed in the alphabet; as many
dots accept it; it compiles and accepts itself and nothing else. And of any text, all lexemes stand
at their positions, counted from zero, and written one after the other they give the text back, those
included that are no tokens. -/
theorem tfae_mem_alphabet (w : String) :
    (w ≠ "" → List.TFAE [
      ∀ x ∈ lexemes w, Lexeme.IsLiteral x,
      ∀ c ∈ w.toList, c ∈ alphabet.toList,
      IsAcceptedByDots w,
      IsPatternForItself w]) ∧
    (lexemes w).map Lexeme.position? = (List.range w.length).map some ∧
    (lexemes w).map Lexeme.character? = w.toList.map some := by
  refine ⟨fun hne => ?_, map_position?_lexemes w, map_character?_lexemes w⟩
  tfae_have 1 ↔ 2 := forall_isLiteral_lexemes_iff w
  tfae_have 2 → 3 := isAcceptedByDots_of_mem_alphabet hne
  tfae_have 3 → 2 := fun ⟨_, hm, haccepts⟩ => mem_alphabet_of_accepts hm haccepts
  tfae_have 2 → 4 := isPatternForItself_of_mem_alphabet hne
  tfae_have 4 → 2 := fun ⟨_, hm, haccepts⟩ => mem_alphabet_of_accepts hm ((haccepts w).2 rfl)
  tfae_finish

/-- Two characters of the alphabet; and a pattern that compiles but does not accept itself. -/
theorem tfae_mem_alphabet_group :
    "b7" ≠ "" ∧ IsAcceptedByDots "b7" ∧ IsPatternForItself "b7" ∧
      "(a)" ≠ "" ∧ (∃ m, compile "(a)" = .ok m) ∧ ¬ IsAcceptedByDots "(a)" ∧
        ¬ IsPatternForItself "(a)" := by
  have hword : "b7" ≠ "" := by decide
  have hgroup : "(a)" ≠ "" := by decide
  have hlexemes : lexemes "b7" =
      [.ok ⟨0, .atom (.literal 'b')⟩, .ok ⟨1, .atom (.literal '7')⟩] := rfl
  have hliterals : ∀ x ∈ lexemes "b7", Lexeme.IsLiteral x := by
    rw [hlexemes]
    simp [Lexeme.IsLiteral]
  have hforeign : ¬ ∀ c ∈ "(a)".toList, c ∈ alphabet.toList := by
    intro h
    exact absurd (inAlphabet_iff.2 (h '(' (by decide))) (by decide)
  have hequivalent := (tfae_mem_alphabet "b7").1 hword
  have hequivalent' := (tfae_mem_alphabet "(a)").1 hgroup
  exact ⟨hword, (hequivalent.out 0 2).1 hliterals, (hequivalent.out 0 3).1 hliterals, hgroup,
    ⟨_, rfl⟩, fun h => hforeign ((hequivalent'.out 2 1).1 h),
    fun h => hforeign ((hequivalent'.out 3 1).1 h)⟩

end PatternAutomata
