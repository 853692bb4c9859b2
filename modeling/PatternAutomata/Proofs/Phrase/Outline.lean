import Mathlib.Data.List.Induction
import PatternAutomata.Phrase.Basic
import PatternAutomata.Proofs.Token

/-!
# The outline of a text

Whether a text follows the grammar can be decided from left to right with a counter and a flag: an
`Outline` knows how many parentheses are open and whether the last token ended an operand. A text is
derived by the grammar iff its outline can be read to the end and then nothing is open and an
operand has ended (`isPattern_iff_readAll`).

That every derived text has such an outline is an induction on the derivation (`readAll_phrase`).
For the converse a derivation is put together while the text is read (`Outline.Covers`): behind each
open parenthesis there is a `Frame`, that is, complete terms with a bar behind each of them and then
complete factors. A bar makes one term of the factors, and a closing parenthesis makes one factor of
the innermost frame.
-/

namespace PatternAutomata

/-- How far a text has come: how many parentheses are open, and whether the last token ended an
operand. -/
structure Outline where
  depth : Nat := 0
  afterOperand : Bool := false
deriving DecidableEq, Repr

namespace Outline

/-- Reads a token, if it can stand here: what ends an operand or continues it needs one, and a
closing parenthesis an open one. -/
def read : Outline → Token → Option Outline
  | ⟨depth, _⟩, .atom _ => some ⟨depth, true⟩
  | ⟨depth, _⟩, .leftParenthesis => some ⟨depth + 1, false⟩
  | ⟨depth, true⟩, .quantifier _ => some ⟨depth, true⟩
  | ⟨depth, true⟩, .pipe => some ⟨depth, false⟩
  | ⟨depth + 1, true⟩, .rightParenthesis => some ⟨depth, true⟩
  | _, _ => none

/-- Reads a character, which must be a token. -/
def readChar (s : Outline) (c : Char) : Option Outline := (Token.ofChar? c).bind s.read

/-- Reads a text. -/
def readAll (s : Outline) (text : List Char) : Option Outline := text.foldlM readChar s

variable {s s' : Outline} {c : Char} {t : Token} {l r : List Char}

theorem readAll_cons : s.readAll (c :: l) = (s.readChar c).bind (·.readAll l) := rfl

theorem readAll_append : s.readAll (l ++ r) = (s.readAll l).bind (·.readAll r) :=
  List.foldlM_append

theorem readChar_toChar (s : Outline) (t : Token) (h : t.IsWritten) :
    s.readChar t.toChar = s.read t := by
  unfold readChar
  rw [Token.ofChar?_toChar t h]
  rfl

theorem readAll_concat_eq_some :
    s.readAll (l ++ [c]) = some s' ↔ ∃ m, s.readAll l = some m ∧ m.readChar c = some s' := by
  rw [readAll_append]
  cases s.readAll l with
  | none => simp
  | some m =>
    show (m.readChar c).bind some = some s' ↔ _
    simp

/-! ### From the derivation to the outline -/

theorem readAll_run (depth : Nat) (run : List Quantifier) :
    readAll ⟨depth, true⟩ (run.map Quantifier.toChar) = some ⟨depth, true⟩ := by
  induction run with
  | nil => rfl
  | cons q run ih =>
    rw [List.map_cons, readAll_cons]
    show ((readChar ⟨depth, true⟩ (Token.quantifier q).toChar).bind _) = _
    rw [readChar_toChar _ (.quantifier q) trivial]
    exact ih

/-- **A phrase is read as one operand**, wherever it stands. -/
theorem readAll_phrase {k : Category} (e : Phrase k) (s : Outline) :
    s.readAll e.text = some ⟨s.depth, true⟩ := by
  induction e generalizing s with
  | literal c hc =>
    show (s.readChar (Token.atom (.literal c)).toChar).bind some = _
    rw [readChar_toChar _ (.atom (.literal c)) hc]
    rfl
  | dot => rfl
  | group inner ih =>
    show s.readAll (('(' :: inner.text) ++ [')']) = _
    have hopen : s.readAll ('(' :: inner.text) = some ⟨s.depth + 1, true⟩ :=
      ih ⟨s.depth + 1, false⟩
    rw [readAll_append, hopen]
    rfl
  | factor base run ih =>
    rw [Phrase.text, readAll_append, ih]
    exact readAll_run s.depth run
  | single f ih | branch f ih => exact ih s
  | juxtapose first rest ihf ihr =>
    rw [Phrase.text, readAll_append, ihf]
    exact ihr _
  | choice first rest ihf ihr =>
    rw [Phrase.text, readAll_append, ihf]
    exact ihr ⟨s.depth, false⟩

/-! ### From the outline to the derivation -/

/-- The part of a text between an open parenthesis and the end: terms with a bar behind each, and
behind them factors. -/
structure Frame where
  terms : List (Phrase .term) := []
  factors : List (Phrase .factor) := []

namespace Frame

variable {f : Frame}

/-- The text of a frame. -/
def text (f : Frame) : List Char :=
  f.terms.flatMap (·.text ++ ['|']) ++ f.factors.flatMap (·.text)

/-- Factors side by side are a term. -/
theorem exists_term (h : f.factors ≠ []) :
    ∃ t : Phrase .term, t.text = f.factors.flatMap (·.text) := by
  obtain ⟨terms, factors⟩ := f
  induction factors with
  | nil => exact absurd rfl h
  | cons f factors ih =>
    cases factors with
    | nil => exact ⟨.single f, by simp [Phrase.text]⟩
    | cons g factors =>
      obtain ⟨t, ht⟩ := ih (List.cons_ne_nil g factors)
      refine ⟨.juxtapose f t, ?_⟩
      rw [Phrase.text, ht]
      rfl

/-- Terms with a bar behind each and then one more are an expression. -/
theorem exists_expression (h : f.factors ≠ []) : ∃ e : Phrase .expression, e.text = f.text := by
  obtain ⟨last, hlast⟩ := exists_term h
  obtain ⟨terms, factors⟩ := f
  unfold text
  rw [← hlast]
  induction terms with
  | nil => exact ⟨.branch last, rfl⟩
  | cons t terms ih =>
    obtain ⟨e, he⟩ := ih h hlast
    refine ⟨.choice t e, ?_⟩
    rw [Phrase.text, he]
    simp

theorem text_push (f : Frame) (g : Phrase .factor) :
    (Frame.mk f.terms (f.factors ++ [g])).text = f.text ++ g.text := by
  simp [text]

end Frame

/-- A text that ends with an open parenthesis or is empty, where so many parentheses are open: a
frame before each of them. -/
def Encloses : Nat → List Char → Prop
  | 0, l => l = []
  | depth + 1, l => ∃ outer, ∃ f : Frame, Encloses depth outer ∧ l = outer ++ f.text ++ ['(']

/-- The text consists of open parentheses with a frame before each of them and one behind the last,
which is in the midst of a term if an operand has just ended. -/
def Covers (s : Outline) (text : List Char) : Prop :=
  ∃ outer, ∃ f : Frame, Encloses s.depth outer ∧ text = outer ++ f.text ∧
    (s.afterOperand = true ↔ f.factors ≠ [])

namespace Covers

theorem empty : Covers {} [] := ⟨[], {}, rfl, rfl, by decide⟩

/-- A factor in the innermost frame. -/
theorem push {depth : Nat} {outer : List Char} (f : Frame) (hencloses : Encloses depth outer)
    (g : Phrase .factor) : Covers ⟨depth, true⟩ (outer ++ f.text ++ g.text) := by
  refine ⟨outer, ⟨f.terms, f.factors ++ [g]⟩, hencloses, ?_, by simp⟩
  rw [Frame.text_push, List.append_assoc]

/-- An atom is a factor by itself. -/
theorem atom {flag : Bool} {depth : Nat} (h : Covers ⟨depth, flag⟩ l) (a : Phrase .atom) :
    Covers ⟨depth, true⟩ (l ++ a.text) := by
  obtain ⟨outer, f, hencloses, rfl, _⟩ := h
  have hpush := push f hencloses (.factor a [])
  rwa [Phrase.text, List.map_nil, List.append_nil] at hpush

/-- A quantifier continues the last factor. -/
theorem quantifier {depth : Nat} (h : Covers ⟨depth, true⟩ l) (q : Quantifier) :
    Covers ⟨depth, true⟩ (l ++ [q.toChar]) := by
  obtain ⟨outer, ⟨terms, factors⟩, hencloses, rfl, hflag⟩ := h
  obtain ⟨factors, g, rfl⟩ := (List.eq_nil_or_concat factors).resolve_left (hflag.1 rfl)
  cases g with
  | factor base run =>
    have htext : (Frame.mk terms (factors ++ [.factor base run])).text ++ [q.toChar] =
        (Frame.mk terms factors).text ++ (Phrase.factor base (run ++ [q])).text := by
      simp [Frame.text, Phrase.text]
    rw [List.concat_eq_append, List.append_assoc, htext, ← List.append_assoc]
    exact push _ hencloses _

/-- A bar makes a term of the factors. -/
theorem pipe {depth : Nat} (h : Covers ⟨depth, true⟩ l) : Covers ⟨depth, false⟩ (l ++ ['|']) := by
  obtain ⟨outer, f, hencloses, rfl, hflag⟩ := h
  obtain ⟨t, ht⟩ := f.exists_term (hflag.1 rfl)
  refine ⟨outer, ⟨f.terms ++ [t], []⟩, hencloses, ?_, by simp⟩
  simp [Frame.text, ht]

/-- An open parenthesis begins a frame. -/
theorem leftParenthesis {flag : Bool} {depth : Nat} (h : Covers ⟨depth, flag⟩ l) :
    Covers ⟨depth + 1, false⟩ (l ++ ['(']) := by
  obtain ⟨outer, f, hencloses, rfl, _⟩ := h
  exact ⟨_, {}, ⟨outer, f, hencloses, rfl⟩, by simp [Frame.text], by simp⟩

/-- A closing parenthesis makes an atom of the innermost frame. -/
theorem rightParenthesis {depth : Nat} (h : Covers ⟨depth + 1, true⟩ l) :
    Covers ⟨depth, true⟩ (l ++ [')']) := by
  obtain ⟨_, f, ⟨outer, g, hencloses, rfl⟩, rfl, hflag⟩ := h
  -- `f` stands inside the parentheses, `g` is the frame that they belong to
  obtain ⟨e, he⟩ := f.exists_expression (hflag.1 rfl)
  have hpush := push g hencloses (.factor (.group e) [])
  rw [Phrase.text, Phrase.text, he] at hpush
  simpa using hpush

/-- **What one token does to the derivation.** -/
theorem read (h : s.Covers l) (ht : t.IsWritten) (hread : s.read t = some s') :
    s'.Covers (l ++ [t.toChar]) := by
  obtain ⟨depth, flag⟩ := s
  cases t with
  | atom a =>
    cases hread
    cases a with
    | literal c => exact h.atom (.literal c ht)
    | dot => exact h.atom .dot
  | leftParenthesis =>
    cases hread
    exact h.leftParenthesis
  | quantifier q =>
    cases flag with
    | false => cases hread
    | true =>
      cases hread
      exact h.quantifier q
  | pipe =>
    cases flag with
    | false => cases hread
    | true =>
      cases hread
      exact h.pipe
  | rightParenthesis =>
    cases depth with
    | zero => cases flag <;> cases hread
    | succ depth =>
      cases flag with
      | false => cases hread
      | true =>
        cases hread
        exact h.rightParenthesis

/-- What a whole text does to the derivation. -/
theorem readAll (h : readAll {} l = some s) : s.Covers l := by
  induction l using List.reverseRecOn generalizing s with
  | nil =>
    cases h
    exact empty
  | append_singleton l c ih =>
    obtain ⟨m, hm, hc⟩ := readAll_concat_eq_some.1 h
    obtain ⟨t, ht, hread⟩ := Option.bind_eq_some_iff.1 hc
    obtain ⟨rfl, hwritten⟩ := Token.ofChar?_eq_some_iff.1 ht
    exact (ih hm).read hwritten hread

end Covers

/-- **The grammar derives a text iff its outline ends with no parenthesis open, behind an operand.**
-/
theorem isPattern_iff_readAll {pattern : String} :
    IsPattern pattern ↔ readAll {} pattern.toList = some ⟨0, true⟩ := by
  constructor
  · rintro ⟨e, he⟩
    rw [← he]
    exact readAll_phrase e {}
  · intro h
    -- no parenthesis is open, so the only frame is the whole text
    obtain ⟨_, f, rfl, htext, hflag⟩ := Covers.readAll h
    obtain ⟨e, he⟩ := f.exists_expression (hflag.1 rfl)
    exact ⟨e, by rw [he, htext, List.nil_append]⟩

end Outline

end PatternAutomata
