import PatternAutomata.Token

/-!
# Characters and tokens

The alphabet as a list and the test by range agree (`inAlphabet_iff`). With this,
`Token.ofChar?_eq_some_iff` says what a character is read as: as the one token that is written with
it, if there is such a token.

Some properties of characters are needed wherever texts are described that need not be patterns:
that a character is a token at all (`IsPatternCharacter`), that an operand can begin or end with it
(`BeginsOperand`, `EndsOperand`), and that one has to begin behind it (`OperandDue`). They are
stated for the characters as such and then compared with the tokens that are read.
-/

namespace PatternAutomata

/-! ### The alphabet -/

/-- Letters and digits in the sense of the range test are ASCII characters. -/
theorem toNat_lt_of_inAlphabet {c : Char} (h : inAlphabet c = true) : c.toNat < 128 := by
  have hbounds : ((decide ('A'.val ≤ c.val ∧ c.val ≤ 'Z'.val) ||
      decide ('a'.val ≤ c.val) && decide (c.val ≤ 'z'.val)) ||
      decide ('0'.val ≤ c.val) && decide (c.val ≤ '9'.val)) = true := h
  simp only [Bool.or_eq_true, Bool.and_eq_true, decide_eq_true_eq, UInt32.le_iff_toNat_le]
    at hbounds
  change ((65 ≤ c.toNat ∧ c.toNat ≤ 90) ∨ (97 ≤ c.toNat ∧ c.toNat ≤ 122)) ∨
    (48 ≤ c.toNat ∧ c.toNat ≤ 57) at hbounds
  omega

/-- The test by range finds exactly the listed characters. -/
theorem inAlphabet_iff {c : Char} : inAlphabet c = true ↔ c ∈ alphabet.toList := by
  constructor
  · intro h
    -- finitely many characters are left, and each of them can be looked up
    have hascii : ∀ n < 128, inAlphabet (Char.ofNat n) = true →
        Char.ofNat n ∈ alphabet.toList := by decide +kernel
    have hc := hascii c.toNat (toNat_lt_of_inAlphabet h)
    rw [Char.ofNat_toNat] at hc
    exact hc h
  · have hlisted : alphabet.toList.all inAlphabet = true := by decide +kernel
    exact List.all_eq_true.1 hlisted c

/-! ### Characters of a pattern -/

/-- The character can stand in a pattern: it is in the alphabet, or it is one of the marks. -/
def IsPatternCharacter (c : Char) : Prop := c ∈ alphabet.toList ∨ c ∈ ".*+?|()".toList

/-- An operand can begin with the character. -/
def BeginsOperand (c : Char) : Prop := c ∈ alphabet.toList ∨ c = '.' ∨ c = '('

/-- An operand can end with the character. -/
def EndsOperand (c : Char) : Prop := c ∈ alphabet.toList ∨ c ∈ ".)*+?".toList

/-- An operand is due behind the text: at the beginning, behind `(` and behind `|`. -/
def OperandDue (text : List Char) : Prop := ∀ c ∈ text.getLast?, c = '(' ∨ c = '|'

instance (text : List Char) : Decidable (OperandDue text) :=
  decidable_of_iff ((text.getLast?.all fun c => c == '(' || c == '|') = true)
    (by simp [OperandDue, Option.all_eq_true])

/-! ### Tokens -/

namespace Token

/-- A token that can stand in a pattern: a literal must be in the alphabet. -/
def IsWritten : Token → Prop
  | atom (.literal c) => c ∈ alphabet.toList
  | _ => True

/-- A token with which an operand can begin. -/
def beginsOperand : Token → Bool
  | atom _ | leftParenthesis => true
  | quantifier _ | pipe | rightParenthesis => false

/-- A token with which an operand can end. -/
def endsOperand : Token → Bool
  | atom _ | quantifier _ | rightParenthesis => true
  | pipe | leftParenthesis => false

/-- A character of the alphabet stands for itself, as none of the marks is in the alphabet. -/
theorem ofChar?_literal {c : Char} (h : c ∈ alphabet.toList) :
    ofChar? c = some (atom (.literal c)) := by
  have hlisted : (alphabet.toList.all fun d => ofChar? d == some (atom (.literal d))) = true := by
    decide +kernel
  exact beq_iff_eq.1 (List.all_eq_true.1 hlisted c h)

theorem ofChar?_toChar (t : Token) (h : t.IsWritten) : ofChar? t.toChar = some t := by
  rcases t with (_ | _) | (_ | _ | _) | _ | _ | _
  · exact ofChar?_literal h
  all_goals rfl

/-- Only characters of the alphabet become literals. -/
theorem isWritten_of_ofChar? {c : Char} {t : Token} (h : ofChar? c = some t) : t.IsWritten := by
  unfold ofChar? at h
  repeat' split at h
  all_goals first | contradiction | cases h
  -- a mark is under no condition; a literal comes from the branch that tests for the alphabet
  all_goals first | trivial | exact inAlphabet_iff.1 ‹inAlphabet c = true›

/-- **A character is read as the token that is written with it.** -/
theorem ofChar?_eq_some_iff {c : Char} {t : Token} :
    ofChar? c = some t ↔ c = t.toChar ∧ t.IsWritten := by
  constructor
  · intro h
    exact ⟨(toChar_of_ofChar? h).symm, isWritten_of_ofChar? h⟩
  · rintro ⟨rfl, h⟩
    exact ofChar?_toChar t h

theorem toChar_inj {t u : Token} (ht : t.IsWritten) (hu : u.IsWritten) :
    t.toChar = u.toChar ↔ t = u := by
  constructor
  · intro h
    have hread : ofChar? t.toChar = ofChar? u.toChar := by rw [h]
    rw [ofChar?_toChar t ht, ofChar?_toChar u hu] at hread
    exact Option.some.inj hread
  · intro h
    rw [h]

/-- The characters that are tokens: the alphabet and the seven marks. -/
theorem isSome_ofChar?_iff {c : Char} :
    (ofChar? c).isSome = true ↔ IsPatternCharacter c := by
  constructor
  · intro h
    obtain ⟨t, ht⟩ := Option.isSome_iff_exists.1 h
    obtain ⟨rfl, hwritten⟩ := ofChar?_eq_some_iff.1 ht
    rcases t with (_ | _) | (_ | _ | _) | _ | _ | _
    · exact .inl hwritten
    all_goals exact .inr (by decide)
  · rintro (h | h)
    · rw [ofChar?_literal h]
      rfl
    · have hmarks : (".*+?|()".toList.all fun d => (ofChar? d).isSome) = true := by
        decide +kernel
      exact List.all_eq_true.1 hmarks c h

/-- The characters with which an operand can begin. -/
theorem beginsOperand_iff {c : Char} {t : Token} (h : ofChar? c = some t) :
    t.beginsOperand = true ↔ BeginsOperand c := by
  constructor
  · intro hbegins
    obtain ⟨rfl, ht⟩ := ofChar?_eq_some_iff.1 h
    rcases t with (_ | _) | _ | _ | _ | _
    · exact .inl ht
    · exact .inr (.inl rfl)
    · cases hbegins
    · cases hbegins
    · exact .inr (.inr rfl)
    · cases hbegins
  · rintro (hc | rfl | rfl)
    · rw [ofChar?_literal hc] at h
      cases h
      rfl
    · cases h
      rfl
    · cases h
      rfl

/-- The characters with which an operand can end. -/
theorem endsOperand_iff {c : Char} {t : Token} (h : ofChar? c = some t) :
    t.endsOperand = true ↔ EndsOperand c := by
  constructor
  · intro hends
    obtain ⟨rfl, ht⟩ := ofChar?_eq_some_iff.1 h
    rcases t with (_ | _) | (_ | _ | _) | _ | _ | _
    · exact .inl ht
    case pipe => cases hends
    case leftParenthesis => cases hends
    all_goals exact .inr (by decide)
  · rintro (hc | hc)
    · rw [ofChar?_literal hc] at h
      cases h
      rfl
    · have hmarks : (".)*+?".toList.all fun d => (ofChar? d).any endsOperand) = true := by
        decide +kernel
      have hany := List.all_eq_true.1 hmarks c hc
      rw [h] at hany
      exact hany

end Token

/-- Whether a character can stand in a pattern is told by reading it. -/
instance (c : Char) : Decidable (IsPatternCharacter c) :=
  decidable_of_iff ((Token.ofChar? c).isSome = true) Token.isSome_ofChar?_iff

instance (text : List Char) : Decidable (∀ c ∈ text, IsPatternCharacter c) :=
  decidable_of_iff ((text.all fun c => decide (IsPatternCharacter c)) = true) (by simp)

end PatternAutomata
