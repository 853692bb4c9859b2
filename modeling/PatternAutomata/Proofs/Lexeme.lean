import PatternAutomata.Lexeme
import PatternAutomata.Proofs.Token

/-!
# The lexemes of a pattern

A pattern is classified character by character, and nothing of it is lost: a token and a character
that is none both keep where the character stands and which one it is. The positions count up from
zero (`map_position?_lexemes`), and the characters written one after the other give the pattern back
(`map_character?_lexemes`). Nothing but literals is found in a text exactly if the text is written in
the alphabet (`forall_isLiteral_lexemes_iff`).
-/

namespace PatternAutomata

namespace Lexeme

variable {position : Nat} {c : Char}

/-- The position of a classified character, whether it is a token or not. -/
def position? : Except PatternError Lexeme → Option Nat
  | .ok lexeme => some lexeme.position
  | .error (.unexpectedSymbol _ position) => some position
  | .error _ => none

/-- What is written for a classified character: that of the token, or the unexpected symbol. -/
def character? : Except PatternError Lexeme → Option Char
  | .ok lexeme => some lexeme.token.toChar
  | .error (.unexpectedSymbol symbol _) => some symbol
  | .error _ => none

/-- The character has been classified as one that stands for itself. -/
def IsLiteral (x : Except PatternError Lexeme) : Prop :=
  ∃ position c, x = .ok ⟨position, .atom (.literal c)⟩

theorem position?_ofChar (position : Nat) (c : Char) :
    position? (ofChar position c) = some position := by
  unfold ofChar
  split <;> rfl

theorem character?_ofChar (position : Nat) (c : Char) :
    character? (ofChar position c) = some c := by
  unfold ofChar
  split
  · next t ht => exact congrArg some (Token.toChar_of_ofChar? ht)
  · rfl

/-- The characters that stand for themselves are those of the alphabet. -/
theorem isLiteral_ofChar_iff : IsLiteral (ofChar position c) ↔ c ∈ alphabet.toList := by
  constructor
  · rintro ⟨position', d, h⟩
    unfold ofChar at h
    split at h
    · next t ht =>
      obtain ⟨rfl, rfl⟩ := Lexeme.mk.inj (Except.ok.inj h)
      obtain ⟨rfl, hwritten⟩ := Token.ofChar?_eq_some_iff.1 ht
      exact hwritten
    · cases h
  · intro h
    refine ⟨position, c, ?_⟩
    unfold ofChar
    rw [Token.ofChar?_literal h]

end Lexeme

variable (pattern : String)

/-- A map over the lexemes, as one over the characters with their positions. -/
theorem map_lexemes {α : Type} (f : Except PatternError Lexeme → α) :
    (lexemes pattern).map f =
      pattern.toList.zipIdx.map fun x => f (Lexeme.ofChar x.2 x.1) :=
  List.map_map

/-- **The lexemes stand at the positions from zero on**, one for each character. -/
theorem map_position?_lexemes :
    (lexemes pattern).map Lexeme.position? = (List.range pattern.length).map some := by
  calc (lexemes pattern).map Lexeme.position?
      = pattern.toList.zipIdx.map (some ∘ Prod.snd) := by
        rw [map_lexemes]
        exact List.map_congr_left fun x _ => Lexeme.position?_ofChar x.2 x.1
    _ = (pattern.toList.zipIdx.map Prod.snd).map some := List.map_map.symm
    _ = (List.range pattern.length).map some := by
        rw [List.zipIdx_map_snd, List.range_eq_range', String.length_toList]

/-- **The lexemes, written one after the other, give the pattern back.** -/
theorem map_character?_lexemes :
    (lexemes pattern).map Lexeme.character? = pattern.toList.map some := by
  calc (lexemes pattern).map Lexeme.character?
      = pattern.toList.zipIdx.map (some ∘ Prod.fst) := by
        rw [map_lexemes]
        exact List.map_congr_left fun x _ => Lexeme.character?_ofChar x.2 x.1
    _ = (pattern.toList.zipIdx.map Prod.fst).map some := List.map_map.symm
    _ = pattern.toList.map some := by rw [List.zipIdx_map_fst]

-- a character that is no token keeps its place among the others
example : lexemes "a#*" = [.ok ⟨0, .atom (.literal 'a')⟩, .error (.unexpectedSymbol '#' 1),
    .ok ⟨2, .quantifier .star⟩] := rfl

/-- Only characters that stand for themselves are in a text iff all of them are in the alphabet. -/
theorem forall_isLiteral_lexemes_iff :
    (∀ x ∈ lexemes pattern, Lexeme.IsLiteral x) ↔ ∀ c ∈ pattern.toList, c ∈ alphabet.toList := by
  calc (∀ x ∈ lexemes pattern, Lexeme.IsLiteral x)
      ↔ ∀ x ∈ pattern.toList.zipIdx, x.1 ∈ alphabet.toList := by
        rw [lexemes, List.forall_mem_map]
        exact forall₂_congr fun x _ => Lexeme.isLiteral_ofChar_iff
    _ ↔ ∀ c ∈ pattern.toList.zipIdx.map Prod.fst, c ∈ alphabet.toList := List.forall_mem_map.symm
    _ ↔ ∀ c ∈ pattern.toList, c ∈ alphabet.toList := by rw [List.zipIdx_map_fst]

end PatternAutomata
