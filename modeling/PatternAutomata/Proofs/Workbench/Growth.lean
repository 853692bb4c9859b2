import PatternAutomata.Proofs.Automaton.Acceptance
import PatternAutomata.Proofs.Workbench.History

/-!
# What later steps leave alone

Steps only add states and edges. So whatever two states are taken for the ends of a fragment, what
was accepted from the one to the other is still accepted after any further steps. And nothing else
is accepted, as long as none of the edges added meanwhile starts at a state that could be reached
from the entry before (`Workbench.accepts_of_performAll`): what is reached then does not grow either
(`Arena.Path.of_unreached`), however many edges have been added elsewhere.
-/

namespace PatternAutomata

namespace Arena

variable {a b : Arena} {s t x : StateId} {v : List Char} {l added : List Addition} {e : Edge}

/-- An arena with more additions has the edges added as well. -/
theorem Holds.mem_edges_append (h : a.Holds l) (h' : b.Holds (l ++ added)) :
    e ∈ b.edges s ↔ e ∈ a.edges s ∨ ⟨s, e⟩ ∈ added := by
  rw [h', h, mem_edgesFrom, mem_edgesFrom, List.mem_append]

/-- **What is reached stays what it was** if no state that is reached gets an edge: a path that
starts where an old path ends is an old path. -/
theorem Path.of_unreached (h : ∀ s, (∃ v, a.Path x v s) → ∀ e ∈ b.edges s, e ∈ a.edges s)
    (hp : b.Path s v t) (hs : ∃ u, a.Path x u s) : a.Path s v t := by
  induction hp with
  | nil s => exact .nil s
  | empty he _ ih =>
    have he' := h _ hs _ he
    obtain ⟨u, hu⟩ := hs
    exact .empty he' (ih ⟨u ++ [], hu.append (.empty he' (.nil _))⟩)
  | @char s t _ c _ he _ ih =>
    have he' := h _ hs _ he
    obtain ⟨u, hu⟩ := hs
    exact .char he' (ih ⟨u ++ [c], hu.append (.char he' (.nil _))⟩)

end Arena

namespace History

variable {k k' : History} {step : Step} {steps : List Step}

theorem states_le_of_perform (h : k.perform step = some k') : k.states ≤ k'.states := by
  cases step with
  | state =>
    cases h
    exact Nat.le_succ _
  | edge | fragment =>
    simp only [perform] at h
    split_ifs at h
    cases h
    exact Nat.le_refl _
  | literal | wildcard =>
    cases h
    exact Nat.le_add_right _ _
  | concatenate | alternate =>
    obtain ⟨f, _, h⟩ := Option.bind_eq_some_iff.1 h
    obtain ⟨g, _, h⟩ := Option.bind_eq_some_iff.1 h
    cases h
    exact Nat.le_add_right _ _
  | quantify q =>
    cases q <;>
    · obtain ⟨f, _, h⟩ := Option.bind_eq_some_iff.1 h
      cases h
      exact Nat.le_add_right _ _

/-- Histories lose no states. -/
theorem states_le_of_performAll (h : k.performAll steps = some k') : k.states ≤ k'.states := by
  induction steps generalizing k with
  | nil =>
    cases h
    exact Nat.le_refl _
  | cons step rest ih =>
    obtain ⟨m, hm, hrest⟩ := Option.bind_eq_some_iff.1 h
    exact (states_le_of_perform hm).trans (ih hrest)

end History

namespace Workbench

variable {w w' : Workbench} {steps more : List Step} {products products' : List Product}
  {f : Fragment}

/-- **Further steps take nothing away, and add nothing to what they do not touch.** Two histories
tell what has been added before and after. What is accepted between any two states is accepted after
all further steps; and it is all that is accepted then, if none of the further edges starts at a
state that was reached from the first one before. -/
theorem accepts_of_performAll (h : ({} : Workbench).performAll steps = some (products, w))
    (hmore : w.performAll more = some (products', w')) (hexit : f.exit < w.arena.size) :
    ∃ l added, ({} : History).performAll steps = some (w.history l) ∧
      (w.history l).performAll more = some (w'.history (l ++ added)) ∧
      (∀ input : String, (w.arena.finish f).accepts input = true →
        (w'.arena.finish f).accepts input = true) ∧
      ((∀ d ∈ added, ∀ v, ¬ w.arena.Path f.entry v d.source) →
        ∀ input : String,
          (w'.arena.finish f).accepts input = (w.arena.finish f).accepts input) := by
  obtain ⟨l, hl, hholds⟩ := exists_additions h
  obtain ⟨added, hadded, hholds'⟩ :=
    exists_performAll_history (isValid_of_performAll h) hholds hmore
  have hsize : w.arena.size ≤ w'.arena.size := History.states_le_of_performAll hadded
  have hexit' : f.exit < w'.arena.size := Nat.lt_of_lt_of_le hexit hsize
  have hmono (input : String) (haccepts : (w.arena.finish f).accepts input = true) :
      (w'.arena.finish f).accepts input = true := by
    rw [Arena.accepts_finish hexit] at haccepts
    rw [Arena.accepts_finish hexit']
    exact haccepts.mono fun s e he => (hholds.mem_edges_append hholds').2 (.inl he)
  refine ⟨l, added, hl, hadded, hmono, fun hapart input => ?_⟩
  rw [Bool.eq_iff_iff]
  refine ⟨fun haccepts => ?_, hmono input⟩
  rw [Arena.accepts_finish hexit'] at haccepts
  rw [Arena.accepts_finish hexit]
  apply Arena.Path.of_unreached (x := f.entry) _ haccepts ⟨[], .nil _⟩
  rintro s ⟨v, hv⟩ e he
  rcases (hholds.mem_edges_append hholds').1 he with hold | hnew
  · exact hold
  · exact absurd hv (hapart ⟨s, e⟩ hnew v)

/-- A second literal is repeated and then led back to the first one, which goes on as before. -/
theorem accepts_of_performAll_apart :
    ∃ products w products' w',
      ({} : Workbench).performAll [.literal 'a', .literal 'b'] = some (products, w) ∧
      w.performAll [.quantify .star 1, .edge 3 .empty 0, .state, .edge 4 (.char 'ε') 6] =
        some (products', w') ∧ 1 < w.arena.size ∧
      ∀ input : String,
        (w'.arena.finish ⟨0, 1⟩).accepts input = (w.arena.finish ⟨0, 1⟩).accepts input := by
  have hrun : ({} : Workbench).performAll [.literal 'a', .literal 'b'] = some (_, _) := rfl
  refine ⟨_, _, _, _, hrun, rfl, by decide, ?_⟩
  obtain ⟨l, added, hl, hadded, _, hsame⟩ :=
    accepts_of_performAll (f := ⟨0, 1⟩) hrun
      (show performAll _ [.quantify .star 1, .edge 3 .empty 0, .state, .edge 4 (.char 'ε') 6] =
        some (_, _) from rfl) (by decide)
  have hold : [⟨0, .char 'a', 1⟩, ⟨2, .char 'b', 3⟩] = l :=
    congrArg History.additions (Option.some.inj hl)
  subst hold
  have hnew : [⟨0, .char 'a', 1⟩, ⟨2, .char 'b', 3⟩, ⟨3, .empty, 2⟩, ⟨4, .empty, 2⟩,
      ⟨3, .empty, 5⟩, ⟨4, .empty, 5⟩, ⟨3, .empty, 0⟩, ⟨4, .char 'ε', 6⟩] =
      ⟨0, .char 'a', 1⟩ :: ⟨2, .char 'b', 3⟩ :: added :=
    congrArg History.additions (Option.some.inj hadded)
  obtain rfl := (List.cons.inj (List.cons.inj hnew).2).2
  apply hsame
  intro d hd v hpath
  -- the first literal has no way out, and the edges start at the states of the second or later ones
  have hlt : d.source < 2 := hpath.preserves (P := (· < 2)) (by decide) (by decide)
  clear hpath
  revert d
  decide

end Workbench

end PatternAutomata
