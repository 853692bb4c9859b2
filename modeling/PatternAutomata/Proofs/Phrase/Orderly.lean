import PatternAutomata.Proofs.Phrase.Outline

/-!
# Patterns by their neighbours

A text follows the grammar iff it is orderly (`isPattern_iff_isOrderly`): it has no foreign
character, its parentheses match, and wherever an operand is due, one begins. An operand is due at
the beginning, behind an open parenthesis and behind a bar. This rules out empty groups and empty
alternatives, quantifiers without an operand, and a bar at the end, at any depth.
-/

namespace PatternAutomata

/-- What can be said of a pattern without a derivation. -/
structure IsOrderly (text : List Char) : Prop where
  /-- There is no character but those of the alphabet and the marks. -/
  mem_characters : ∀ c ∈ text, IsPatternCharacter c
  /-- At the beginning, behind `(` and behind `|` an operand begins. -/
  operand : ∀ l r, text = l ++ r → OperandDue l → ∃ c ∈ r.head?, BeginsOperand c
  /-- No parenthesis is closed before it has been opened. -/
  count_le : ∀ l, l <+: text → l.count ')' ≤ l.count '('
  /-- No parenthesis stays open. -/
  count_eq : text.count ')' = text.count '('

namespace Outline

variable {s s' : Outline} {l r text : List Char} {t : Token}

/-- Which tokens can stand where. -/
theorem isSome_read_iff :
    (s.read t).isSome = true ↔
      t.beginsOperand = true ∨
        s.afterOperand = true ∧ (t = .rightParenthesis → 0 < s.depth) := by
  obtain ⟨depth, flag⟩ := s
  cases t with
  | atom _ | leftParenthesis => exact ⟨fun _ => .inl rfl, fun _ => rfl⟩
  | quantifier _ | pipe => cases flag <;> simp [read, Token.beginsOperand]
  | rightParenthesis => cases flag <;> cases depth <;> simp [read, Token.beginsOperand]

/-- What a token changes: the parentheses are counted, and behind `(` and `|` an operand is due. -/
theorem read_eq_some (h : s.read t = some s') :
    s'.depth + (if t = .rightParenthesis then 1 else 0) =
        s.depth + (if t = .leftParenthesis then 1 else 0) ∧
      (s'.afterOperand = false ↔ t = .leftParenthesis ∨ t = .pipe) := by
  obtain ⟨depth, flag⟩ := s
  cases t with
  | atom _ | leftParenthesis =>
    cases h
    simp
  | quantifier _ | pipe =>
    cases flag with
    | false => cases h
    | true =>
      cases h
      simp
  | rightParenthesis =>
    cases depth with
    | zero => cases flag <;> cases h
    | succ depth =>
      cases flag with
      | false => cases h
      | true =>
        cases h
        simp

/-- The outline of a text counts its parentheses and knows its last character. -/
theorem readAll_eq_some (h : readAll {} l = some s) :
    s.depth + l.count ')' = l.count '(' ∧
      (s.afterOperand = false ↔ OperandDue l) := by
  induction l using List.reverseRecOn generalizing s with
  | nil =>
    cases h
    simp [OperandDue]
  | append_singleton l c ih =>
    obtain ⟨m, hm, hc⟩ := readAll_concat_eq_some.1 h
    obtain ⟨t, ht, hread⟩ := Option.bind_eq_some_iff.1 hc
    obtain ⟨rfl, hwritten⟩ := Token.ofChar?_eq_some_iff.1 ht
    -- the last character is one of the three that matter iff the token is
    have hopen : t.toChar = '(' ↔ t = .leftParenthesis :=
      Token.toChar_inj (u := .leftParenthesis) hwritten trivial
    have hclose : t.toChar = ')' ↔ t = .rightParenthesis :=
      Token.toChar_inj (u := .rightParenthesis) hwritten trivial
    have hbar : t.toChar = '|' ↔ t = .pipe := Token.toChar_inj (u := .pipe) hwritten trivial
    obtain ⟨hdepth, hflag⟩ := read_eq_some hread
    have hcount := (ih hm).1
    constructor
    · rw [List.count_append, List.count_append, List.count_singleton, List.count_singleton]
      simp only [beq_iff_eq, hopen, hclose]
      omega
    · rw [hflag]
      simp [OperandDue, hopen, hbar]

theorem exists_of_readAll_append (h : readAll {} (l ++ r) = some s) :
    ∃ m, readAll {} l = some m ∧ m.readAll r = some s := by
  rw [readAll_append] at h
  exact Option.bind_eq_some_iff.1 h

/-- What an outline that ends well says about the text. -/
theorem isOrderly_of_readAll (h : readAll {} text = some ⟨0, true⟩) : IsOrderly text where
  mem_characters := by
    intro c hc
    obtain ⟨l, r, rfl⟩ := List.append_of_mem hc
    obtain ⟨m, _, hr⟩ := exists_of_readAll_append h
    obtain ⟨m', hm', _⟩ := Option.bind_eq_some_iff.1 hr
    obtain ⟨t, ht, _⟩ := Option.bind_eq_some_iff.1 hm'
    exact Token.isSome_ofChar?_iff.1 (by rw [ht]; rfl)
  operand := by
    rintro l r rfl hdue
    obtain ⟨m, hl, hr⟩ := exists_of_readAll_append h
    have hflag : m.afterOperand = false := (readAll_eq_some hl).2.2 hdue
    cases r with
    | nil =>
      cases hr
      cases hflag
    | cons c r =>
      obtain ⟨m', hm', _⟩ := Option.bind_eq_some_iff.1 hr
      obtain ⟨t, ht, hread⟩ := Option.bind_eq_some_iff.1 hm'
      refine ⟨c, rfl, (Token.beginsOperand_iff ht).1 ?_⟩
      have hsome : (m.read t).isSome = true := by rw [hread]; rfl
      rcases isSome_read_iff.1 hsome with hbegins | ⟨hafter, _⟩
      · exact hbegins
      · rw [hflag] at hafter
        cases hafter
  count_le := by
    rintro l ⟨r, rfl⟩
    obtain ⟨m, hl, _⟩ := exists_of_readAll_append h
    have hcount := (readAll_eq_some hl).1
    omega
  count_eq := by
    have hcount := (readAll_eq_some h).1
    rwa [Nat.zero_add] at hcount

end Outline

namespace IsOrderly

variable {text : List Char}

/-- An orderly text has an outline, as far as one reads. -/
theorem exists_readAll (h : IsOrderly text) {l : List Char} (hl : l <+: text) :
    ∃ s, Outline.readAll {} l = some s := by
  induction l using List.reverseRecOn with
  | nil => exact ⟨{}, rfl⟩
  | append_singleton l c ih =>
    obtain ⟨s, hs⟩ := ih ((List.prefix_append l [c]).trans hl)
    obtain ⟨hcount, hdue⟩ := Outline.readAll_eq_some hs
    have hmem : c ∈ text := hl.mem (List.mem_append_right l (List.mem_singleton_self c))
    obtain ⟨t, ht⟩ := Option.isSome_iff_exists.1
      (Token.isSome_ofChar?_iff.2 (h.mem_characters c hmem))
    have hread : (s.read t).isSome = true := by
      rw [Outline.isSome_read_iff, or_iff_not_imp_left]
      intro hbegins
      constructor
      · -- otherwise an operand would be due here, and would begin
        by_contra hflag
        obtain ⟨r, rfl⟩ := hl
        obtain ⟨d, hd, hchar⟩ := h.operand l ([c] ++ r) (List.append_assoc l [c] r)
          (hdue.1 (Bool.not_eq_true _ ▸ hflag))
        cases hd
        exact hbegins ((Token.beginsOperand_iff ht).2 hchar)
      · -- otherwise the text up to here would close more than it opens
        rintro rfl
        obtain ⟨rfl, _⟩ := Token.ofChar?_eq_some_iff.1 ht
        have hle := h.count_le _ hl
        rw [List.count_append, List.count_append] at hle
        have hclose : [Token.rightParenthesis.toChar].count ')' = 1 := rfl
        have hopen : [Token.rightParenthesis.toChar].count '(' = 0 := rfl
        omega
    obtain ⟨s', hs'⟩ := Option.isSome_iff_exists.1 hread
    refine ⟨s', Outline.readAll_concat_eq_some.2 ⟨s, hs, ?_⟩⟩
    unfold Outline.readChar
    rw [ht]
    exact hs'

/-- The outline of an orderly text ends well. -/
theorem readAll_eq (h : IsOrderly text) : Outline.readAll {} text = some ⟨0, true⟩ := by
  obtain ⟨⟨depth, flag⟩, hs⟩ := h.exists_readAll (List.prefix_refl text)
  obtain ⟨hcount, hdue⟩ := Outline.readAll_eq_some hs
  have hdepth : depth = 0 := by
    have heq := h.count_eq
    simp only at hcount
    omega
  have hflag : flag = true := by
    cases flag with
    | true => rfl
    | false =>
      obtain ⟨c, hc, _⟩ := h.operand text [] (List.append_nil text).symm (hdue.1 rfl)
      cases hc
  rw [hs, hdepth, hflag]

end IsOrderly

/-- **A text follows the grammar iff it is orderly.** -/
theorem isPattern_iff_isOrderly {pattern : String} :
    IsPattern pattern ↔ IsOrderly pattern.toList := by
  rw [Outline.isPattern_iff_readAll]
  exact ⟨Outline.isOrderly_of_readAll, IsOrderly.readAll_eq⟩

end PatternAutomata
