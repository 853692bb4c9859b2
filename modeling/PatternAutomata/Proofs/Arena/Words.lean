import Mathlib.Algebra.Order.Kleene
import Mathlib.Computability.Language
import Mathlib.Order.CompletePartialOrder
import PatternAutomata.Proofs.Arena.Path

/-!
# The words between two states

`Arena.words a s t` is the language of all words spelt on the paths from `s` to `t`. The languages
that lead to `t` form the least family that contains the empty word at `t` and is closed under
reading an edge backwards (`words_le`), so that what a new edge does to them can be computed in the
algebra of languages.

`words_addEdge` is that computation, for an edge from `x` to `y` that reads `σ`: a path in the new
arena either avoids the edge, or it leads to `x`, takes the edge, returns from `y` to `x` any number
of times and takes the edge again, and at last leads on from `y`. Nothing is assumed of the arena.
Two cases are simpler: an edge from a state to which no edge leads can be taken once at most
(`words_addEmpty_of_isSource`), and so can an edge to a state that no edge leaves
(`words_addEmpty_of_isSink`).
-/

namespace PatternAutomata

open scoped Computability

/-- What an edge on a symbol spells. -/
def Symbol.language : Symbol → Language Char
  | empty => 1
  | char c => {[c]}

namespace Arena

/-- The words spelt on the paths from one state to another. -/
def words (a : Arena) (s t : StateId) : Language Char := {w | a.Path s w t}

variable {a b : Arena} {s t u x y z : Nat} {w : List Char}

theorem mem_words : w ∈ a.words s t ↔ a.Path s w t := Iff.rfl

/-! ### The least family closed under edges -/

theorem one_le_words (a : Arena) (s : Nat) : 1 ≤ a.words s s := by
  intro w hw
  rw [(Language.mem_one w).mp hw]
  exact .nil s

theorem words_mul_words_le (a : Arena) (s t u : Nat) :
    a.words s t * a.words t u ≤ a.words s u := by
  rintro _ ⟨v, hv, w, hw, rfl⟩
  exact Path.append hv hw

theorem language_le_words {e : Edge} (he : e ∈ a.edges s) :
    e.symbol.language ≤ a.words s e.target := by
  obtain ⟨symbol, t⟩ := e
  intro w hw
  cases symbol with
  | empty =>
    rw [(Language.mem_one w).mp hw]
    exact .empty he (.nil t)
  | char c =>
    obtain rfl : w = [c] := hw
    exact .char he (.nil t)

/-- An edge can be put in front of a path. -/
theorem language_mul_words_le {e : Edge} (he : e ∈ a.edges s) (t : Nat) :
    e.symbol.language * a.words e.target t ≤ a.words s t :=
  (mul_le_mul_left (language_le_words he) _).trans (words_mul_words_le a s e.target t)

/-- The words that lead to `t` are contained in every family of languages that has the empty word at
`t` and is closed under putting an edge in front. -/
theorem words_le {L : Nat → Language Char} (hnil : 1 ≤ L t)
    (hedge : ∀ s, ∀ e ∈ a.edges s, e.symbol.language * L e.target ≤ L s) (s : Nat) :
    a.words s t ≤ L s := by
  intro w hw
  induction hw with
  | nil => exact hnil (Language.nil_mem_one)
  | empty he _ ih =>
    refine hedge _ _ he ?_
    rw [Symbol.language, one_mul]
    exact ih hnil
  | char he _ ih =>
    refine hedge _ _ he ?_
    exact Language.append_mem_mul (Set.mem_singleton _) (ih hnil)

/-! ### Arenas with more edges -/

theorem words_mono (h : ∀ s, ∀ e ∈ a.edges s, e ∈ b.edges s) (s t : Nat) :
    a.words s t ≤ b.words s t :=
  fun _ hw => Path.mono h hw

@[simp] theorem words_addState (a : Arena) (s t : Nat) : a.addState.words s t = a.words s t := by
  ext w
  exact path_congr fun s e => by rw [edges_addState]

/-- **The law of an added edge.** With an edge from `x` to `y` on `symbol`, a word that leads from
`s` to `t` either did so before, or it leads to `x`, along the edge, any number of times from `y`
back to `x` and along the edge again, and on from `y`. -/
theorem words_addEdge (hx : x < a.size) (symbol : Symbol) (s t : Nat) :
    (a.addEdge x symbol y).words s t =
      a.words s t + a.words s x * (symbol.language * a.words y x)∗ *
        (symbol.language * a.words y t) := by
  set σ := symbol.language with hσ
  set loop := (σ * a.words y x)∗ with hloop
  set b := a.addEdge x symbol y with hb
  apply le_antisymm
  · -- the right side has the empty word at `t` and is closed under edges, old and new
    refine words_le (L := fun s => a.words s t + a.words s x * loop * (σ * a.words y t)) ?_ ?_ s
    · exact (one_le_words a t).trans le_self_add
    · intro s e he
      rcases (mem_edges_addEdge hx).mp he with ⟨rfl, rfl⟩ | he
      · have hfold : σ * (a.words y t + a.words y s * loop * (σ * a.words y t)) =
            loop * (σ * a.words y t) := by
          rw [hloop]
          nth_rewrite 2 [← one_add_mul_kstar]
          rw [add_mul, one_mul, mul_add]
          simp only [mul_assoc]
        calc σ * (a.words y t + a.words y s * loop * (σ * a.words y t))
            = 1 * loop * (σ * a.words y t) := by rw [hfold, one_mul]
          _ ≤ a.words s s * loop * (σ * a.words y t) := by
            gcongr
            exact one_le_words a s
          _ ≤ _ := le_add_self
      · simp only [mul_add, ← mul_assoc]
        gcongr
        · exact language_mul_words_le he t
        · exact language_mul_words_le he x
  · -- each way of using the new edge is a path
    have hmono (s t : Nat) : a.words s t ≤ b.words s t :=
      words_mono (fun s e he => (mem_edges_addEdge hx).mpr (.inr he)) s t
    have hedge : σ * b.words y t ≤ b.words x t :=
      language_mul_words_le (e := ⟨symbol, y⟩) ((mem_edges_addEdge hx).mpr (.inl ⟨rfl, rfl⟩)) t
    have hlast : σ * a.words y t ≤ b.words x t := (mul_le_mul_right (hmono y t) σ).trans hedge
    have hround : σ * a.words y x * b.words x t ≤ b.words x t := by
      calc σ * a.words y x * b.words x t ≤ σ * (b.words y x * b.words x t) := by
            rw [mul_assoc]
            gcongr
            exact hmono y x
        _ ≤ σ * b.words y t := by
            gcongr
            exact words_mul_words_le b y x t
        _ ≤ b.words x t := hedge
    refine add_le (hmono s t) ?_
    calc a.words s x * loop * (σ * a.words y t) ≤ b.words s x * b.words x t := by
          rw [mul_assoc]
          exact mul_le_mul' (hmono s x) (kstar_mul_le hlast hround)
      _ ≤ b.words s t := words_mul_words_le b s x t

/-- The law for an edge that reads nothing. -/
theorem words_addEmpty (hx : x < a.size) (s t : Nat) :
    (a.addEmpty x y).words s t = a.words s t + a.words s x * (a.words y x)∗ * a.words y t := by
  show (a.addEdge x .empty y).words s t = _
  rw [words_addEdge hx, Symbol.language, one_mul, one_mul]

/-! ### Edges that can be taken once at most -/

/-- No edge leads to the state. -/
def IsSource (a : Arena) (x : Nat) : Prop := ∀ s, ∀ e ∈ a.edges s, e.target ≠ x

/-- No edge leaves the state. -/
def IsSink (a : Arena) (x : Nat) : Prop := ∀ e, e ∉ a.edges x

/-- A source is reached from itself alone. -/
theorem IsSource.words_eq (h : a.IsSource x) (s : Nat) :
    a.words s x = if s = x then 1 else 0 := by
  apply le_antisymm
  · -- no edge leads to `x`, so the family that is empty elsewhere is closed under edges
    refine words_le (L := fun s => if s = x then 1 else 0) (by rw [if_pos rfl]) ?_ s
    intro s e he
    rw [if_neg (h s e he), mul_zero]
    exact zero_le
  · split_ifs with hs
    · rw [hs]
      exact one_le_words a x
    · exact zero_le

/-- A sink reaches itself alone. -/
theorem IsSink.words_eq (h : a.IsSink x) (t : Nat) :
    a.words x t = if x = t then 1 else 0 := by
  have hpath (w : List Char) (hp : a.Path x w t) : x = t ∧ w = [] := by
    cases hp with
    | nil => exact ⟨rfl, rfl⟩
    | empty he _ => exact absurd he (h _)
    | char he _ => exact absurd he (h _)
  split_ifs with ht
  · subst ht
    exact le_antisymm (fun w hw => (hpath w hw).2) (one_le_words a x)
  · exact le_antisymm (fun w hw => absurd (hpath w hw).1 ht) zero_le

theorem IsSource.addEmpty (h : a.IsSource z) (hx : x < a.size) (hy : y ≠ z) :
    (a.addEmpty x y).IsSource z := by
  intro s e he
  rcases (mem_edges_addEdge hx).mp he with ⟨_, rfl⟩ | he
  · exact hy
  · exact h s e he

theorem IsSink.addEmpty (h : a.IsSink z) (hx : x < a.size) (hz : x ≠ z) :
    (a.addEmpty x y).IsSink z := by
  intro e he
  rcases (mem_edges_addEdge hx).mp he with ⟨rfl, _⟩ | he
  · exact hz rfl
  · exact h e he

/-- An edge from a source lets it reach what its target reaches. -/
theorem IsSource.words_addEmpty (h : a.IsSource x) (hx : x < a.size) (hy : y ≠ x) (t : Nat) :
    (a.addEmpty x y).words x t = a.words x t + a.words y t := by
  rw [Arena.words_addEmpty hx, h.words_eq, h.words_eq, if_pos rfl, if_neg hy, kstar_zero, one_mul,
    one_mul]

/-- An edge from a source is of no use to other states. -/
theorem IsSource.words_addEmpty_of_ne (h : a.IsSource x) (hx : x < a.size) (hs : s ≠ x)
    (t : Nat) : (a.addEmpty x y).words s t = a.words s t := by
  rw [Arena.words_addEmpty hx, h.words_eq, if_neg hs, zero_mul, zero_mul, add_zero]

/-- An edge to a sink lets it be reached from where its source is. -/
theorem IsSink.words_addEmpty (h : a.IsSink y) (hx : x < a.size) (hxy : y ≠ x) (s : Nat) :
    (a.addEmpty x y).words s y = a.words s y + a.words s x := by
  rw [Arena.words_addEmpty hx, h.words_eq, h.words_eq, if_pos rfl, if_neg hxy, kstar_zero, mul_one,
    mul_one]

/-- An edge to a sink does not lead to other states. -/
theorem IsSink.words_addEmpty_of_ne (h : a.IsSink y) (hx : x < a.size) (ht : y ≠ t)
    (s : Nat) : (a.addEmpty x y).words s t = a.words s t := by
  rw [Arena.words_addEmpty hx, h.words_eq t, if_neg ht, mul_zero, add_zero]

/-! ### Arenas whose edges lead to states -/

/-- Every edge leads to a state. -/
def IsClosed (a : Arena) : Prop := ∀ s, ∀ e ∈ a.edges s, e.target < a.size

/-- What is not yet a state has no edges. -/
theorem isSink_of_size_le (hx : a.size ≤ x) : a.IsSink x :=
  fun _ he => absurd (lt_of_mem_edges he) (Nat.not_lt.mpr hx)

/-- What is not yet a state is led to by no edge. -/
theorem IsClosed.isSource (ha : a.IsClosed) (hx : a.size ≤ x) : a.IsSource x :=
  fun s e he => Nat.ne_of_lt (Nat.lt_of_lt_of_le (ha s e he) hx)

end Arena

end PatternAutomata
