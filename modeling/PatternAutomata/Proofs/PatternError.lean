import PatternAutomata.PatternError
import PatternAutomata.Proofs.Numeral

/-!
# What the text of an error tells

The unexpected symbol stands in the text of an error as it is, so it may well be a quote, a blank or
a digit. Still the text tells the error (`PatternError.message_inj`). What kind of error it is, and
which operator lacks an operand, shows in the words with which the text opens. There are nine such
openings, and none of them is the beginning of another one (`Kind.eq_of_prefix_opening`), so that an
opening is recognised before anything behind it is looked at. The symbol is then the one character
that follows, whatever it is, and a number ends where the text ends or a blank stands.
-/

namespace PatternAutomata.PatternError

/-! ### Kinds -/

/-- What an error says, apart from its symbol and its position. -/
inductive Kind where
  | unexpectedSymbol
  | missingOperand (operator : Operator)
  | unmatchedParenthesis
  | malformed
deriving DecidableEq

/-- The kind of an error. -/
def kind : PatternError → Kind
  | unexpectedSymbol _ _ => .unexpectedSymbol
  | missingOperand operator _ => .missingOperand operator
  | unmatchedParenthesis _ => .unmatchedParenthesis
  | malformed => .malformed

namespace Kind

variable {k k' : Kind} {l r : List Char}

/-- All kinds of errors. -/
def all : List Kind :=
  [.unexpectedSymbol, .missingOperand .alternation, .missingOperand .concatenation,
    .missingOperand (.repetition .star), .missingOperand (.repetition .plus),
    .missingOperand (.repetition .optional), .missingOperand .group, .unmatchedParenthesis,
    .malformed]

theorem mem_all (k : Kind) : k ∈ all := by
  rcases k with _ | (_ | _ | (_ | _ | _) | _) | _ | _
  all_goals decide

/-- The words with which the text of an error opens. -/
def opening : Kind → String
  | unexpectedSymbol => "unexpected symbol '"
  | missingOperand operator => operator.name ++ " at position "
  | unmatchedParenthesis => "unmatched ')' at position "
  | malformed => "malformed pattern"

/-- **No opening is the beginning of another.** -/
theorem eq_of_prefix_opening (h : k.opening.toList <+: k'.opening.toList) : k = k' := by
  have hlisted : ∀ k ∈ all, ∀ k' ∈ all, k.opening.toList <+: k'.opening.toList → k = k' := by
    decide +kernel
  exact hlisted k k.mem_all k' k'.mem_all h

/-- A kind of error can be told from the opening, whatever follows. -/
theorem opening_append_inj (h : k.opening.toList ++ l = k'.opening.toList ++ r) :
    k = k' ∧ l = r := by
  have hkind : k = k' := by
    rcases List.prefix_or_prefix_of_prefix (List.prefix_append _ l) ⟨r, h.symm⟩ with hk | hk
    · exact eq_of_prefix_opening hk
    · exact (eq_of_prefix_opening hk).symm
  subst hkind
  exact ⟨rfl, List.append_cancel_left h⟩

end Kind

/-! ### Details -/

variable {e e' : PatternError}

/-- What stands behind the opening: the symbol, if there is one, and the position. -/
def details : PatternError → List Char
  | unexpectedSymbol symbol position =>
    symbol :: ("' at position ".toList ++ (toString position).toList)
  | missingOperand _ position => (toString position).toList ++ " is missing an operand".toList
  | unmatchedParenthesis position => (toString position).toList
  | malformed => []

theorem toList_message (e : PatternError) :
    e.message.toList = e.kind.opening.toList ++ e.details := by
  cases e with
  | unexpectedSymbol | missingOperand | unmatchedParenthesis =>
    unfold message details kind Kind.opening
    simp only [String.toList_append, String.toList_singleton, List.append_assoc, List.cons_append,
      List.nil_append]
  | malformed => exact (List.append_nil _).symm

/-- Among errors of one kind, what stands behind the opening tells the symbol and the position. -/
theorem eq_of_details_eq (hkind : e.kind = e'.kind) (h : e.details = e'.details) : e = e' := by
  cases e with
  | unexpectedSymbol symbol position =>
    cases e' with
    | unexpectedSymbol symbol' position' =>
      obtain ⟨rfl, hrest⟩ := List.cons.inj h
      obtain rfl := toString_inj (List.append_cancel_left hrest)
      rfl
    | missingOperand | unmatchedParenthesis | malformed => cases hkind
  | missingOperand operator position =>
    cases e' with
    | missingOperand operator' position' =>
      -- behind the number stands a blank
      have hends : EndsNumber " is missing an operand".toList := by
        rintro _ ⟨⟩
        rfl
      obtain rfl : operator = operator' := Kind.missingOperand.inj hkind
      obtain ⟨rfl, _⟩ := toString_append_inj hends hends h
      rfl
    | unexpectedSymbol | unmatchedParenthesis | malformed => cases hkind
  | unmatchedParenthesis position =>
    cases e' with
    | unmatchedParenthesis position' =>
      obtain rfl := toString_inj h
      rfl
    | unexpectedSymbol | missingOperand | malformed => cases hkind
  | malformed =>
    cases e' with
    | malformed => rfl
    | unexpectedSymbol | missingOperand | unmatchedParenthesis => cases hkind

/-- **The text of an error tells the error**: its kind, the symbol or the operator, and the
position. The symbol may be any character, the operator also an open parenthesis, and the position
any number. -/
theorem message_inj (e e' : PatternError) : e.message = e'.message ↔ e = e' := by
  constructor
  · intro h
    have htext := congrArg String.toList h
    rw [toList_message, toList_message] at htext
    obtain ⟨hkind, hdetails⟩ := Kind.opening_append_inj htext
    exact eq_of_details_eq hkind hdetails
  · intro h
    rw [h]

-- a quote as the symbol
example : (unexpectedSymbol '\'' 12).message = "unexpected symbol ''' at position 12" := rfl

end PatternAutomata.PatternError
