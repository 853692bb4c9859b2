import PatternAutomata.Phrase.Language
import PatternAutomata.Proofs.Arena.Words

/-!
# The languages of fragment operations

What each operation on fragments does to the words between entry and exit, as an equation between
languages of the arena before the operation. Nothing is assumed of the operands but that their
states exist: they may overlap, be equal, or be fragments that have been used before.

* `words_quantify`: a quantifier makes of a fragment what it makes of its language.
* `words_concatenate`: besides the product there are the ways past the new edge, and the ways that
  return from the second operand to the first.
* `words_alternate`: besides the sum there are the ways that cross from one operand to the other.

All follow from the law of an added edge. The new states of a pair are a source and a sink, so that
their edges can be taken once at most.
-/

namespace PatternAutomata

open scoped Computability

namespace Arena

variable {a : Arena} {f g : Fragment}

/-! ### Arenas stay closed -/

theorem IsClosed.addState (ha : a.IsClosed) : a.addState.IsClosed := by
  intro s e he
  rw [edges_addState] at he
  rw [size_addState]
  exact Nat.lt_succ_of_lt (ha s e he)

theorem IsClosed.addEdge {x y : Nat} (ha : a.IsClosed) (hx : x < a.size) (hy : y < a.size)
    (symbol : Symbol) : (a.addEdge x symbol y).IsClosed := by
  intro s e he
  rw [size_addEdge]
  rcases (mem_edges_addEdge hx).mp he with ⟨_, rfl⟩ | he
  · exact hy
  · exact ha s e he

theorem IsClosed.repeated (ha : a.IsClosed) (hentry : f.entry < a.size) (hexit : f.exit < a.size) :
    (a.repeated f).1.IsClosed :=
  ha.addEdge hexit hentry .empty

/-! ### A pair of new states -/

@[simp] theorem size_addPair (a : Arena) : a.addPair.1.size = a.size + 2 := by
  simp [addPair]

@[simp] theorem edges_addPair (a : Arena) (s : Nat) : a.addPair.1.edges s = a.edges s := by
  simp [addPair]

@[simp] theorem words_addPair (a : Arena) (s t : Nat) : a.addPair.1.words s t = a.words s t := by
  simp [addPair]

/-- Nothing leads to the new entry. -/
theorem IsClosed.isSource_addPair (ha : a.IsClosed) : a.addPair.1.IsSource a.size := by
  intro s e he
  rw [edges_addPair] at he
  exact ha.isSource (Nat.le_refl _) s e he

/-- The new exit leads nowhere. -/
theorem isSink_addPair (a : Arena) : a.addPair.1.IsSink (a.size + 1) := by
  intro e he
  rw [edges_addPair] at he
  exact isSink_of_size_le (Nat.le_succ _) e he

/-- No word leads from a state to one that is still to come. -/
theorem IsClosed.words_eq_zero {s t : Nat} (ha : a.IsClosed) (hs : s < a.size) (ht : a.size ≤ t) :
    a.words s t = 0 := by
  rw [(ha.isSource ht).words_eq, if_neg (by omega)]

/-- A new entry with an edge to `y` leads where `y` leads. -/
theorem IsClosed.words_addPair_addEmpty {y t : Nat} (ha : a.IsClosed) (hy : y < a.size)
    (ht : a.size ≠ t) : (a.addPair.1.addEmpty a.size y).words a.size t = a.words y t := by
  rw [ha.isSource_addPair.words_addEmpty (by simp) (by omega), words_addPair, words_addPair,
    (isSink_of_size_le (Nat.le_refl _)).words_eq, if_neg ht, zero_add]

/-! ### Repetition -/

/-- Once or more: the way back can be taken any number of times. -/
theorem words_repeated (hexit : f.exit < a.size) :
    (a.repeated f).1.words f.entry f.exit =
      a.words f.entry f.exit * (a.words f.entry f.exit)∗ := by
  set l := a.words f.entry f.exit with hl
  calc (a.repeated f).1.words f.entry f.exit = l + l * l∗ * l := words_addEmpty hexit _ _
    _ = l * (1 + l∗ * l) := by rw [mul_add, mul_one, mul_assoc]
    _ = l * l∗ := by rw [one_add_kstar_mul]

/-- Once or not at all: through the fragment, or past it. -/
theorem words_skippable (ha : a.IsClosed) (hentry : f.entry < a.size) (hexit : f.exit < a.size) :
    (a.skippable f).1.words (a.skippable f).2.entry (a.skippable f).2.exit =
      1 + a.words f.entry f.exit := by
  have hx := Nat.succ_le_of_lt hentry
  have hy := Nat.succ_le_of_lt hexit
  set n := a.size with hn
  set a₁ := a.addPair.1.addEmpty n f.entry with ha₁
  have hsize₁ : a₁.size = n + 2 := by rw [ha₁, size_addEmpty, size_addPair]
  set a₂ := a₁.addEmpty f.exit (n + 1) with ha₂
  have hsize₂ : a₂.size = n + 2 := by rw [ha₂, size_addEmpty, hsize₁]
  show (a₂.addEmpty n (n + 1)).words n (n + 1) = _
  -- the entry is a source until its last edge is added, and the exit is a sink
  have hsource₁ : a₁.IsSource n := ha.isSource_addPair.addEmpty (by simp [hn]) (by omega)
  have hsource₂ : a₂.IsSource n := hsource₁.addEmpty (by omega) (by omega)
  have hsink₁ : a₁.IsSink (n + 1) := (isSink_addPair a).addEmpty (by simp [hn]) (by omega)
  have hsink₂ : a₂.IsSink (n + 1) := hsink₁.addEmpty (by omega) (by omega)
  rw [hsource₂.words_addEmpty (by omega) (by omega), hsink₂.words_eq, if_pos rfl,
    hsink₁.words_addEmpty (by omega) (by omega), ha.words_addPair_addEmpty hentry (by omega),
    ha.words_addPair_addEmpty hentry (by omega), ha.words_eq_zero hentry (by omega), zero_add,
    add_comm]

/-- **A quantifier makes of a fragment what it makes of its language.** -/
theorem words_quantify (ha : a.IsClosed) (hentry : f.entry < a.size) (hexit : f.exit < a.size)
    (q : Quantifier) :
    (a.quantify q f).1.words (a.quantify q f).2.entry (a.quantify q f).2.exit =
      q.onLanguage (a.words f.entry f.exit) := by
  cases q with
  | plus => exact words_repeated hexit
  | optional => exact words_skippable ha hentry hexit
  | star =>
    have hsize : (a.repeated f).1.size = a.size := size_repeated a f
    have h := words_skippable (ha.repeated hentry hexit) (hsize ▸ hentry) (hsize ▸ hexit)
    rw [words_repeated hexit, one_add_mul_kstar] at h
    exact h

/-! ### Two operands -/

/-- One after the other: past the new edge, or over it and any number of times back and over it
again. -/
theorem words_concatenate (hexit : f.exit < a.size) :
    (a.concatenate f g).1.words (a.concatenate f g).2.entry (a.concatenate f g).2.exit =
      a.words f.entry g.exit +
        a.words f.entry f.exit * (a.words g.entry f.exit)∗ * a.words g.entry g.exit :=
  words_addEmpty hexit _ _

/-- If no word leads from one operand to the other, the product is left. -/
theorem words_concatenate_of_apart (hexit : f.exit < a.size)
    (hpast : a.words f.entry g.exit = 0) (hback : a.words g.entry f.exit = 0) :
    (a.concatenate f g).1.words (a.concatenate f g).2.entry (a.concatenate f g).2.exit =
      a.words f.entry f.exit * a.words g.entry g.exit := by
  rw [words_concatenate hexit, hpast, hback, kstar_zero, mul_one, zero_add]

/-- Either: from one of the entries to one of the exits. -/
theorem words_alternate (ha : a.IsClosed) (hf : f.entry < a.size) (hf' : f.exit < a.size)
    (hg : g.entry < a.size) (hg' : g.exit < a.size) :
    (a.alternate f g).1.words (a.alternate f g).2.entry (a.alternate f g).2.exit =
      a.words f.entry f.exit + a.words g.entry g.exit +
        a.words f.entry g.exit + a.words g.entry f.exit := by
  have hx := Nat.succ_le_of_lt hf
  have hx' := Nat.succ_le_of_lt hf'
  have hy := Nat.succ_le_of_lt hg
  have hy' := Nat.succ_le_of_lt hg'
  set n := a.size with hn
  set a₁ := a.addPair.1.addEmpty n f.entry with ha₁
  have hsize₁ : a₁.size = n + 2 := by rw [ha₁, size_addEmpty, size_addPair]
  set a₂ := a₁.addEmpty n g.entry with ha₂
  have hsize₂ : a₂.size = n + 2 := by rw [ha₂, size_addEmpty, hsize₁]
  set a₃ := a₂.addEmpty f.exit (n + 1) with ha₃
  have hsize₃ : a₃.size = n + 2 := by rw [ha₃, size_addEmpty, hsize₂]
  show (a₃.addEmpty g.exit (n + 1)).words n (n + 1) = _
  have hsource₁ : a₁.IsSource n := ha.isSource_addPair.addEmpty (by simp [hn]) (by omega)
  have hsink₁ : a₁.IsSink (n + 1) := (isSink_addPair a).addEmpty (by simp [hn]) (by omega)
  have hsink₂ : a₂.IsSink (n + 1) := hsink₁.addEmpty (by omega) (by omega)
  have hsink₃ : a₃.IsSink (n + 1) := hsink₂.addEmpty (by omega) (by omega)
  -- before the exit is linked, the entry leads where the operands' entries lead
  have hout (t : Nat) (ht : n ≠ t) : a₂.words n t = a.words f.entry t + a.words g.entry t := by
    rw [hsource₁.words_addEmpty (by omega) (by omega), ha.words_addPair_addEmpty hf ht,
      ha.isSource_addPair.words_addEmpty_of_ne (by simp) (by omega), words_addPair]
  rw [hsink₃.words_addEmpty (by omega) (by omega), hsink₂.words_addEmpty (by omega) (by omega),
    hsink₂.words_addEmpty_of_ne (by omega) (by omega), hout _ (by omega), hout _ (by omega),
    hout _ (by omega), ha.words_eq_zero hf (by omega), ha.words_eq_zero hg (by omega), zero_add,
    zero_add]
  ac_rfl

/-- If no word leads from one operand to the other, the sum is left. -/
theorem words_alternate_of_apart (ha : a.IsClosed) (hf : f.entry < a.size) (hf' : f.exit < a.size)
    (hg : g.entry < a.size) (hg' : g.exit < a.size) (hpast : a.words f.entry g.exit = 0)
    (hback : a.words g.entry f.exit = 0) :
    (a.alternate f g).1.words (a.alternate f g).2.entry (a.alternate f g).2.exit =
      a.words f.entry f.exit + a.words g.entry g.exit := by
  rw [words_alternate ha hf hf' hg hg', hpast, hback, add_zero, add_zero]

end Arena

end PatternAutomata
