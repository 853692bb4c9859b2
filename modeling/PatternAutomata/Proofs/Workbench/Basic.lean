import PatternAutomata.Proofs.Arena.Making
import PatternAutomata.Workbench.Basic

/-!
# Constructions stay well formed

Whatever steps are carried out, every edge of the arena leads to a state and every fragment consists
of states (`Workbench.IsValid`). A step keeps this (`IsValid.perform`), and so does a whole
construction (`isValid_of_performAll`).
-/

namespace PatternAutomata

namespace Workbench

variable {w w' : Workbench} {step : Step} {product : Product} {steps : List Step}
  {products : List Product}

/-- Every edge leads to a state, and every fragment consists of states. -/
structure IsValid (w : Workbench) : Prop where
  isClosed : w.arena.IsClosed
  contains : ∀ f ∈ w.fragments, w.arena.Contains f

namespace IsValid

theorem empty : IsValid {} := ⟨Arena.isClosed_empty, fun _ hf => absurd hf (Array.not_mem_empty _)⟩

theorem place (h : w.IsValid) {r : Arena × Fragment} (hr : w.arena.Makes r) :
    (w.place r).2.IsValid := by
  refine ⟨hr.isClosed, fun f hf => ?_⟩
  rcases Array.mem_push.1 hf with hf | rfl
  · exact (h.contains f hf).mono hr.size_le
  · exact hr.contains

theorem contains_of_getElem? (h : w.IsValid) {k : Nat} {f : Fragment}
    (hf : w.fragments[k]? = some f) : w.arena.Contains f :=
  h.contains f (Array.mem_of_getElem? hf)

/-- **What one step keeps.** -/
theorem perform (h : w.IsValid) (hstep : w.perform step = some (product, w')) : w'.IsValid := by
  cases step with
  | state =>
    cases hstep
    exact ⟨h.isClosed.addState, fun f hf => (h.contains f hf).mono (by simp)⟩
  | edge source symbol target =>
    simp only [Workbench.perform] at hstep
    split_ifs at hstep with hlt
    cases hstep
    exact ⟨h.isClosed.addEdge hlt.1 hlt.2 symbol, fun f hf => (h.contains f hf).mono (by simp)⟩
  | fragment entry exit =>
    simp only [Workbench.perform] at hstep
    split_ifs at hstep with hlt
    cases hstep
    have hmakes : w.arena.Makes (w.arena, ⟨entry, exit⟩) :=
      ⟨Nat.le_refl _, h.isClosed, ⟨hlt.1, hlt.2⟩⟩
    exact h.place hmakes
  | literal c =>
    cases hstep
    exact h.place (.wildcard h.isClosed [c])
  | wildcard characters =>
    cases hstep
    exact h.place (.wildcard h.isClosed characters)
  | concatenate first second =>
    obtain ⟨f, hf, hstep⟩ := Option.bind_eq_some_iff.1 hstep
    obtain ⟨g, hg, hstep⟩ := Option.bind_eq_some_iff.1 hstep
    cases hstep
    exact h.place (.concatenate h.isClosed (h.contains_of_getElem? hf) (h.contains_of_getElem? hg))
  | alternate left right =>
    obtain ⟨f, hf, hstep⟩ := Option.bind_eq_some_iff.1 hstep
    obtain ⟨g, hg, hstep⟩ := Option.bind_eq_some_iff.1 hstep
    cases hstep
    exact h.place (.alternate h.isClosed (h.contains_of_getElem? hf) (h.contains_of_getElem? hg))
  | quantify q inner =>
    obtain ⟨f, hf, hstep⟩ := Option.bind_eq_some_iff.1 hstep
    cases hstep
    exact h.place (.quantify h.isClosed (h.contains_of_getElem? hf) q)

/-- What a construction keeps. -/
theorem performAll (h : w.IsValid) (hsteps : w.performAll steps = some (products, w')) :
    w'.IsValid := by
  induction steps generalizing w products with
  | nil =>
    cases hsteps
    exact h
  | cons step rest ih =>
    obtain ⟨⟨product, m⟩, hstep, hsteps⟩ := Option.bind_eq_some_iff.1 hsteps
    obtain ⟨⟨_, _⟩, hrest, hsteps⟩ := Option.bind_eq_some_iff.1 hsteps
    cases hsteps
    exact ih (h.perform hstep) hrest

end IsValid

/-- **Every construction from nothing is well formed.** -/
theorem isValid_of_performAll (h : ({} : Workbench).performAll steps = some (products, w)) :
    w.IsValid :=
  IsValid.empty.performAll h

end Workbench

end PatternAutomata
