import Mathlib.Data.List.Induction
import PatternAutomata.Automaton.Acceptance
import PatternAutomata.Proofs.Automaton.Closure
import PatternAutomata.Workbench.Basic

/-!
# Correctness of `Automaton.accepts`

`accepts_iff_spells`: the automaton of a fragment accepts a word exactly if some path from the entry
to the exit spells it, in every arena and for every two of its states. Nothing is assumed of the
edges: they may form cycles, occur several times, come in any order or lead from a state to itself.

The states that a word leads to (`active`) are followed without the early end of `accepts`. They are
those at the end of a path that spells the word (`mem_active`), by induction on the word from its
right end. The early end changes nothing, since nothing is reached from an empty set
(`go_eq_contains`), nor does the order in which the members of a set are visited
(`mem_foldl_advance_congr`).
-/

namespace PatternAutomata

/-! ### The active states -/

theorem Arena.mem_successors {a : Arena} {s : StateSet a.size} {c : Char} {r : StateId} :
    r ∈ a.successors s c ↔ ∃ q ∈ s.members, ⟨.char c, r⟩ ∈ a.edges q := by
  simp only [successors, List.mem_eraseDups, List.mem_flatMap, Array.mem_toList_iff, mem_targets]

namespace Automaton

variable {m : Automaton}

/-- The states that the automaton may be in after a character, given those before it. -/
def advance (m : Automaton) (s : StateSet m.arena.size) (c : Char) : StateSet m.arena.size :=
  m.arena.closure (m.arena.successors s c)

/-- The states that the automaton may be in after a word. -/
def active (m : Automaton) (w : List Char) : StateSet m.arena.size :=
  w.foldl m.advance (m.arena.closure [m.start])

theorem mem_advance {s : StateSet m.arena.size} {c : Char} {t : StateId} :
    t ∈ (m.advance s c).members ↔
      t < m.arena.size ∧ ∃ q ∈ s.members, ∃ r, ⟨.char c, r⟩ ∈ m.arena.edges q ∧
        m.arena.Path r [] t := by
  rw [advance, Arena.mem_closure]
  refine and_congr_right fun _ => ?_
  simp only [Arena.mem_successors]
  constructor
  · rintro ⟨r, ⟨q, hq, hr⟩, hp⟩
    exact ⟨q, hq, r, hr, hp⟩
  · rintro ⟨q, hq, r, hr, hp⟩
    exact ⟨r, ⟨q, hq, hr⟩, hp⟩

/-- **The active states are those at the end of a path that spells what has been read.** -/
theorem mem_active {w : List Char} {t : StateId} :
    t ∈ (m.active w).members ↔ t < m.arena.size ∧ m.arena.Path m.start w t := by
  induction w using List.reverseRecOn generalizing t with
  | nil => simp [active, Arena.mem_closure]
  | append_singleton w c ih =>
    rw [active, List.foldl_append, List.foldl_cons, List.foldl_nil, ← active, mem_advance]
    refine and_congr_right fun ht => ?_
    constructor
    · rintro ⟨q, hq, r, hr, hp⟩
      exact (ih.mp hq).2.append (.char hr hp)
    · -- the path is cut before the edge that reads `c`: up to there it spells `w`
      intro h
      obtain ⟨q', hq', hp⟩ := h.exists_of_append
      obtain ⟨q, r, hq, hr, hp⟩ := hp.exists_of_cons
      have hpath : m.arena.Path m.start w q := by simpa using hq'.append hq
      exact ⟨q, ih.mpr ⟨Arena.lt_of_mem_edges hr, hpath⟩, r, hr, hp⟩

/-! ### The early end and the order of visits -/

/-- Sets with the same members stay so, whatever is read. -/
theorem mem_foldl_advance_congr {s s' : StateSet m.arena.size}
    (h : ∀ i, i ∈ s.members ↔ i ∈ s'.members) (w : List Char) (t : StateId) :
    t ∈ (w.foldl m.advance s).members ↔ t ∈ (w.foldl m.advance s').members := by
  induction w generalizing s s' with
  | nil => exact h t
  | cons c w ih =>
    refine ih fun i => ?_
    simp only [mem_advance, h]

/-- Nothing is reached from an empty set. -/
theorem foldl_advance_of_size_eq_zero {s : StateSet m.arena.size} (h : s.size = 0)
    (w : List Char) (t : StateId) : t ∉ (w.foldl m.advance s).members := by
  induction w generalizing s with
  | nil =>
    rw [List.foldl_nil, Array.eq_empty_of_size_eq_zero h]
    exact Array.not_mem_empty t
  | cons c w ih =>
    refine ih ?_
    rw [StateSet.size, Array.size_eq_zero_iff, Array.eq_empty_iff_forall_not_mem]
    intro i hi
    obtain ⟨_, q, hq, _⟩ := mem_advance.mp hi
    rw [Array.eq_empty_of_size_eq_zero h] at hq
    exact Array.not_mem_empty q hq

/-- Ending early gives the answer that reading on would give. -/
theorem go_eq_contains (s : StateSet m.arena.size) (w : List Char) :
    accepts.go m s w = (w.foldl m.advance s).contains m.final := by
  induction w generalizing s with
  | nil => rfl
  | cons c w ih =>
    rw [accepts.go, List.foldl_cons]
    change (if (m.advance s c).size = 0 then false else accepts.go m (m.advance s c) w) = _
    split
    · next h =>
      symm
      rw [← Bool.not_eq_true, StateSet.contains_eq_true_iff]
      exact foldl_advance_of_size_eq_zero h w m.final
    · exact ih _

theorem accepts_eq_contains (m : Automaton) (input : String) :
    m.accepts input = (m.active input.toList).contains m.final :=
  go_eq_contains _ _

/-- An automaton with an accepting state that exists accepts what is spelt on the way to it. -/
theorem accepts_iff_path (h : m.final < m.arena.size) (input : String) :
    m.accepts input = true ↔ m.arena.Path m.start input.toList m.final := by
  rw [accepts_eq_contains, StateSet.contains_eq_true_iff, mem_active]
  exact and_iff_right h

end Automaton

/-! ### Acceptance by a fragment -/

namespace Arena

variable {a : Arena} {f : Fragment}

/-- The automaton of a fragment decides what the fragment spells. -/
theorem accepts_finish (hexit : f.exit < a.size) (input : String) :
    (a.finish f).accepts input = true ↔ a.Spells f input.toList :=
  Automaton.accepts_iff_path (m := a.finish f) hexit input

/-- **Acceptance is the existence of a path.** For every arena, every fragment of existing states
and every input, the automaton accepts exactly what is spelt from the entry to the exit. The answer
is the one that following all active states to the end of the input would give, whether or not the
set of them becomes empty on the way; it depends on the edges but not on their order or
multiplicity; and from any moment on it depends on the members of the set but not on the order of
their visits. -/
theorem accepts_iff_spells (hexit : f.exit < a.size) (input : String) :
    ((a.finish f).accepts input = true ↔ a.Spells f input.toList) ∧
    (a.finish f).accepts input = ((a.finish f).active input.toList).contains f.exit ∧
    (∀ b : Arena, b.size = a.size → (∀ s e, e ∈ b.edges s ↔ e ∈ a.edges s) →
      (b.finish f).accepts input = (a.finish f).accepts input) ∧
    ∀ s s' : StateSet (a.finish f).arena.size, (∀ i, i ∈ s.members ↔ i ∈ s'.members) → ∀ rest,
      Automaton.accepts.go (a.finish f) s rest = Automaton.accepts.go (a.finish f) s' rest := by
  refine ⟨accepts_finish hexit input, Automaton.accepts_eq_contains _ _, ?_, ?_⟩
  · intro b hsize hedges
    rw [Bool.eq_iff_iff, accepts_finish (hsize ▸ hexit), accepts_finish hexit]
    exact path_congr hedges
  · intro s s' h rest
    rw [Automaton.go_eq_contains, Automaton.go_eq_contains, Bool.eq_iff_iff,
      StateSet.contains_eq_true_iff, StateSet.contains_eq_true_iff]
    exact Automaton.mem_foldl_advance_congr h rest f.exit

/-- A construction with a cycle of empty edges, a doubled loop, an edge that reads the character `ε`
and a state that nothing reaches. -/
theorem accepts_iff_spells_cyclic :
    ∃ products w, ({} : Workbench).performAll [.literal 'a', .edge 1 .empty 0, .edge 0 .empty 0,
        .edge 0 .empty 0, .edge 0 .empty 1, .edge 1 (.char 'ε') 1, .state] = some (products, w) ∧
      1 < w.arena.size ∧ w.arena.Spells ⟨0, 1⟩ "aaε".toList ∧
      (w.arena.finish ⟨0, 1⟩).accepts "aaε" = true := by
  refine ⟨_, _, rfl, by decide, ?_⟩
  suffices h : Arena.Spells _ ⟨0, 1⟩ "aaε".toList from
    ⟨h, (accepts_iff_spells (by decide) "aaε").1.mpr h⟩
  refine .char (t := 1) (by decide) (.empty (t := 0) (by decide) ?_)
  exact .char (t := 1) (by decide) (.char (t := 1) (by decide) (.nil 1))

end Arena

end PatternAutomata
