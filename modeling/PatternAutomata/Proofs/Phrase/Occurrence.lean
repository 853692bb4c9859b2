import Mathlib.Data.List.Nodup
import PatternAutomata.Operator
import PatternAutomata.Proofs.Token

/-!
# Where operators stand in a text

An operator with a position occurs in a text if its character stands there. A concatenation has no
character; it occurs where an operand begins right behind the end of another one. Nothing is assumed
of the text, in which operands may be missing and parentheses need not match.

A text that grows by a token gets at most one occurrence more, at its new end (`Token.brings`), so
that a list of all occurrences can be kept up token by token (`Accounts.concat`). Positions in it
are distinct.
-/

namespace PatternAutomata

/-- The operator stands in the text at its position. -/
def PlacedOperator.OccursIn (o : PlacedOperator) (text : List Char) : Prop :=
  match o.operator with
  | .alternation => text[o.position]? = some '|'
  | .repetition q => text[o.position]? = some q.toChar
  | .concatenation => ∃ k c d, o.position = k + 1 ∧ text[k]? = some c ∧ text[k + 1]? = some d ∧
      EndsOperand c ∧ BeginsOperand d
  | .group => False

/-- The last character of the text, if there is one, ends an operand. -/
def EndsWithOperand (text : List Char) : Prop := ∃ c ∈ text.getLast?, EndsOperand c

variable {o : PlacedOperator} {text : List Char} {t : Token} {flag : Bool} {n : Nat}

/-! ### Occurrences in a longer text -/

namespace PlacedOperator

theorem OccursIn.position_lt (h : o.OccursIn text) : o.position < text.length := by
  obtain ⟨operator, position⟩ := o
  cases operator with
  | alternation | repetition q => exact (List.getElem?_eq_some_iff.1 h).1
  | concatenation =>
    obtain ⟨k, c, d, hk, _, hd, _⟩ := h
    rw [hk]
    exact (List.getElem?_eq_some_iff.1 hd).1
  | group => cases h

/-- An operator that occurs in a text occurs in every text that begins with it. -/
theorem OccursIn.mono {l : List Char} (h : o.OccursIn l) (hl : l <+: text) : o.OccursIn text := by
  have hkeep {k : Nat} {c : Char} (hc : l[k]? = some c) : text[k]? = some c := by
    obtain ⟨r, rfl⟩ := hl
    rw [List.getElem?_append_left (List.getElem?_eq_some_iff.1 hc).1]
    exact hc
  obtain ⟨operator, position⟩ := o
  cases operator with
  | alternation | repetition q => exact hkeep h
  | concatenation =>
    obtain ⟨k, c, d, hk, hc, hd, hends⟩ := h
    exact ⟨k, c, d, hk, hkeep hc, hkeep hd, hends⟩
  | group => cases h

end PlacedOperator

/-- What the token at the position `n` brings: an operator of its own, or a concatenation if it
begins an operand behind the end of another one. -/
def Token.brings (t : Token) (afterOperand : Bool) (n : Nat) : List PlacedOperator :=
  match t with
  | atom _ | leftParenthesis => if afterOperand then [⟨.concatenation, n⟩] else []
  | quantifier q => [⟨.repetition q, n⟩]
  | pipe => [⟨.alternation, n⟩]
  | rightParenthesis => []

theorem Token.mem_brings : o ∈ t.brings flag n ↔
    o.position = n ∧
      match o.operator with
      | .alternation => t = .pipe
      | .repetition q => t = .quantifier q
      | .concatenation => flag = true ∧ t.beginsOperand = true
      | .group => False := by
  obtain ⟨operator, position⟩ := o
  cases t with
  | atom _ | leftParenthesis =>
    cases flag <;> cases operator <;> simp [brings, beginsOperand]
  | quantifier _ | pipe | rightParenthesis =>
    cases operator <;> simp [brings, beginsOperand, and_comm, eq_comm]

/-- A character of a text with one more at its end. -/
theorem getElem?_concat_eq_some {k : Nat} {c d : Char} :
    (text ++ [c])[k]? = some d ↔ text[k]? = some d ∨ k = text.length ∧ c = d := by
  rcases Nat.lt_trichotomy k text.length with hlt | rfl | hgt
  · rw [List.getElem?_append_left hlt]
    simp [Nat.ne_of_lt hlt]
  · simp
  · rw [List.getElem?_eq_none (by simp; omega), List.getElem?_eq_none (by omega)]
    simp [Nat.ne_of_gt hgt]

/-- **An operator occurs in a longer text iff it has occurred before or the last token brings it.**
-/
theorem occursIn_concat_iff (ht : t.IsWritten) (hflag : flag = true ↔ EndsWithOperand text) :
    o.OccursIn (text ++ [t.toChar]) ↔ o.OccursIn text ∨ o ∈ t.brings flag text.length := by
  have hread := Token.ofChar?_toChar t ht
  rw [Token.mem_brings]
  obtain ⟨operator, position⟩ := o
  cases operator with
  | alternation =>
    have hchar : t.toChar = '|' ↔ t = .pipe := Token.toChar_inj (u := .pipe) ht trivial
    show (text ++ [t.toChar])[position]? = some '|' ↔ _
    rw [getElem?_concat_eq_some, hchar]
    exact Iff.rfl
  | repetition q =>
    have hchar : t.toChar = q.toChar ↔ t = .quantifier q :=
      Token.toChar_inj (u := .quantifier q) ht trivial
    show (text ++ [t.toChar])[position]? = some q.toChar ↔ _
    rw [getElem?_concat_eq_some, hchar]
    exact Iff.rfl
  | concatenation =>
    have hbegins : BeginsOperand t.toChar ↔ t.beginsOperand = true :=
      (Token.beginsOperand_iff hread).symm
    simp only [PlacedOperator.OccursIn, getElem?_concat_eq_some, hflag, ← hbegins]
    constructor
    · rintro ⟨k, c, d, rfl, hc, hd, hends, hbegin⟩
      rcases hd with hd | ⟨hlength, rfl⟩
      · have hlt := (List.getElem?_eq_some_iff.1 hd).1
        rcases hc with hc | ⟨hlength, _⟩
        · exact .inl ⟨k, c, d, rfl, hc, hd, hends, hbegin⟩
        · omega
      · rcases hc with hc | ⟨hlength', _⟩
        · refine .inr ⟨hlength, ⟨c, ?_, hends⟩, hbegin⟩
          rw [List.getLast?_eq_getElem?, ← hlength]
          exact hc
        · omega
    · rintro (⟨k, c, d, hk, hc, hd, hends, hbegin⟩ | ⟨hposition, ⟨c, hc, hends⟩, hbegin⟩)
      · exact ⟨k, c, d, hk, .inl hc, .inl hd, hends, hbegin⟩
      · have hpos : 0 < text.length :=
          List.length_pos_of_mem (List.mem_of_getLast? hc)
        rw [List.getLast?_eq_getElem?] at hc
        have hlast : text.length - 1 + 1 = text.length := Nat.sub_add_cancel hpos
        exact ⟨text.length - 1, c, t.toChar, by rw [hlast]; exact hposition, .inl hc,
          .inr ⟨hlast, rfl⟩, hends, hbegin⟩
  | group => simp [PlacedOperator.OccursIn]

theorem endsWithOperand_concat_iff (ht : t.IsWritten) :
    EndsWithOperand (text ++ [t.toChar]) ↔ t.endsOperand = true := by
  unfold EndsWithOperand
  rw [List.getLast?_concat, Token.endsOperand_iff (Token.ofChar?_toChar t ht)]
  simp

/-! ### Lists of all occurrences -/

/-- The list names all operators that occur in the text, each at a position of its own. -/
structure Accounts (l : List PlacedOperator) (text : List Char) : Prop where
  nodup : (l.map (·.position)).Nodup
  mem_iff : ∀ o, o ∈ l ↔ o.OccursIn text

namespace Accounts

variable {l l' : List PlacedOperator}

theorem empty : Accounts [] [] := by
  refine ⟨List.nodup_nil, fun o => ⟨fun ho => absurd ho List.not_mem_nil, fun ho => ?_⟩⟩
  exact absurd ho.position_lt (Nat.not_lt_zero _)

theorem perm (h : Accounts l text) (hperm : l'.Perm l) : Accounts l' text :=
  ⟨(hperm.map _).nodup_iff.2 h.nodup, fun o => hperm.mem_iff.trans (h.mem_iff o)⟩

/-- A token at the end of the text. -/
theorem concat (h : Accounts l text) (ht : t.IsWritten)
    (hflag : flag = true ↔ EndsWithOperand text) :
    Accounts (t.brings flag text.length ++ l) (text ++ [t.toChar]) := by
  constructor
  · rw [List.map_append, List.nodup_append]
    refine ⟨?_, h.nodup, ?_⟩
    · -- a token brings one operator at most
      cases t with
      | atom _ | leftParenthesis => cases flag <;> simp [Token.brings]
      | quantifier _ | pipe | rightParenthesis => simp [Token.brings]
    · rintro _ hnew _ hold rfl
      obtain ⟨o, ho, hposition⟩ := List.mem_map.1 hnew
      obtain ⟨o', ho', hposition'⟩ := List.mem_map.1 hold
      have hlt := ((h.mem_iff o').1 ho').position_lt
      have heq := (Token.mem_brings.1 ho).1
      omega
  · intro o
    rw [List.mem_append, h.mem_iff, occursIn_concat_iff ht hflag, or_comm]

/-- What can be said of some of the operators. -/
theorem of_subperm (h : Accounts l text) (hsub : l'.Subperm l) :
    (l'.map (·.position)).Nodup ∧ ∀ o ∈ l', o.OccursIn text := by
  obtain ⟨l₀, hperm, hsublist⟩ := hsub
  constructor
  · exact (hperm.map _).nodup_iff.1 (h.nodup.sublist (hsublist.map _))
  · intro o ho
    exact (h.mem_iff o).1 (hsublist.subset (hperm.mem_iff.2 ho))

end Accounts

end PatternAutomata
