import PatternAutomata.Automaton.Closure
import PatternAutomata.Proofs.Arena.Path

/-!
# Correctness of `Arena.closure`

`mem_closure`: the closure of some states holds exactly the states to which a path leads from one of
them that spells the empty word.

The search keeps an invariant (`Exploration.Invariant`): whatever has been found is reachable, the
initial states have been found, and so have the successors of every processed state. A round keeps
it (`Invariant.round`), hence the whole search does (`Invariant.run`), and when the search stops
every found state has been processed. The set found is then closed under empty edges, and a path
cannot leave it. Targets that are no states need no care: no edge leaves them, so that a path which
ends at a state does not pass through them (`Path.start_lt`).
-/

namespace PatternAutomata

/-! ### Insertion keeps the order of arrival -/

namespace StateSet

variable {n : Nat}

/-- Members that are in the set already keep their places. -/
theorem members_insertMany (s : StateSet n) (l : List Nat) :
    ∃ new, (s.insertMany l).members = s.members ++ new := by
  unfold insertMany
  induction l generalizing s with
  | nil => exact ⟨#[], by simp⟩
  | cons i l ih =>
    obtain ⟨new, hnew⟩ := ih (s.insert i)
    rw [List.foldl_cons, hnew]
    unfold insert
    split
    · split
      · exact ⟨new, rfl⟩
      · exact ⟨#[i] ++ new, by simp⟩
    · exact ⟨new, rfl⟩

theorem getElem?_members_insertMany (s : StateSet n) (l : List Nat) {i : Nat}
    (h : i < s.members.size) : (s.insertMany l).members[i]? = s.members[i]? := by
  obtain ⟨new, hnew⟩ := s.members_insertMany l
  rw [hnew, Array.getElem?_append_left h]

end StateSet

/-! ### The search -/

namespace Exploration

variable {a : Arena} {initial : List StateId}

/-- What is true of a search at any moment. -/
structure Invariant (a : Arena) (initial : List StateId) (e : Exploration a.size) : Prop where
  /-- Every found state is reachable. -/
  sound : ∀ t ∈ e.found.members, ∃ s ∈ initial, a.Path s [] t
  /-- The initial states have been found. -/
  initial_mem : ∀ s ∈ initial, s < a.size → s ∈ e.found.members
  /-- No more states have been processed than found. -/
  processed_le : e.processed ≤ e.found.members.size
  /-- The successors of processed states have been found. -/
  covered : ∀ i < e.processed, ∀ s, e.found.members[i]? = some s →
    ∀ t ∈ a.targets s .empty, t < a.size → t ∈ e.found.members

namespace Invariant

theorem start (a : Arena) (initial : List StateId) :
    Invariant a initial ⟨(StateSet.empty a.size).insertMany initial, 0⟩ where
  sound t ht := by
    rw [StateSet.mem_insertMany, StateSet.members_empty] at ht
    rcases ht with ht | ⟨ht, _⟩
    · exact absurd ht (Array.not_mem_empty t)
    · exact ⟨t, ht, .nil t⟩
  initial_mem s hs hlt := StateSet.mem_insertMany.mpr (.inr ⟨hs, hlt⟩)
  processed_le := Nat.zero_le _
  covered i hi := absurd hi (Nat.not_lt_zero i)

theorem round {e : Exploration a.size} (h : Invariant a initial e)
    (hp : e.processed < e.found.members.size) :
    Invariant a initial
      ⟨e.found.insertMany (a.targets e.found.members[e.processed] .empty), e.processed + 1⟩ where
  sound t ht := by
    rw [StateSet.mem_insertMany] at ht
    rcases ht with ht | ⟨ht, _⟩
    · exact h.sound t ht
    · obtain ⟨s, hs, hpath⟩ := h.sound _ (Array.getElem_mem hp)
      exact ⟨s, hs, hpath.snoc_empty (Arena.mem_targets.mp ht)⟩
  initial_mem s hs hlt := StateSet.mem_insertMany.mpr (.inl (h.initial_mem s hs hlt))
  processed_le := by
    obtain ⟨new, hnew⟩ :=
      e.found.members_insertMany (a.targets e.found.members[e.processed] .empty)
    simp only [hnew, Array.size_append]
    omega
  covered i hi s hs t ht hlt := by
    have hi' : i < e.found.members.size := by
      simp only at hi
      omega
    rw [StateSet.getElem?_members_insertMany _ _ hi'] at hs
    rw [StateSet.mem_insertMany]
    rcases Nat.lt_succ_iff_lt_or_eq.mp hi with hlt' | heq
    · exact .inl (h.covered i hlt' s hs t ht hlt)
    · -- the state processed in this round
      subst heq
      rw [Array.getElem?_eq_getElem hp, Option.some.injEq] at hs
      subst hs
      exact .inr ⟨ht, hlt⟩

theorem run {e : Exploration a.size} (h : Invariant a initial e) :
    Invariant a initial (Exploration.run a e) := by
  induction e using Exploration.run.induct with
  | case1 e hp _ ih =>
    rw [Exploration.run, dif_pos hp]
    exact ih (h.round hp)
  | case2 e hp =>
    rw [Exploration.run, dif_neg hp]
    exact h

end Invariant

/-- When the search stops, every found state has been processed. -/
theorem size_le_processed_run (e : Exploration a.size) :
    (run a e).found.members.size ≤ (run a e).processed := by
  induction e using Exploration.run.induct with
  | case1 e hp _ ih => rwa [Exploration.run, dif_pos hp]
  | case2 e hp =>
    rw [Exploration.run, dif_neg hp]
    exact Nat.not_lt.mp hp

end Exploration

/-! ### The closure -/

namespace Arena

variable {a : Arena} {initial : List StateId} {s t : StateId}

/-- The closure contains the successors of its members on the empty symbol. -/
theorem mem_closure_of_edge (hs : s ∈ (a.closure initial).members)
    (he : ⟨.empty, t⟩ ∈ a.edges s) (ht : t < a.size) : t ∈ (a.closure initial).members := by
  have h := (Exploration.Invariant.start a initial).run
  obtain ⟨i, hi, rfl⟩ := Array.mem_iff_getElem.mp hs
  refine h.covered i ?_ _ (Array.getElem?_eq_getElem hi) t (mem_targets.mpr he) ht
  exact Nat.lt_of_lt_of_le hi (Exploration.size_le_processed_run _)

/-- No path that spells the empty word leaves the closure. -/
theorem mem_closure_of_path {w : List Char} (hp : a.Path s w t) (hw : w = [])
    (hs : s ∈ (a.closure initial).members) (ht : t < a.size) :
    t ∈ (a.closure initial).members := by
  induction hp with
  | nil => exact hs
  | empty he hp ih => exact ih hw (mem_closure_of_edge hs he (hp.start_lt ht)) ht
  | char => cases hw

/-- **The closure is what can be reached without reading.** -/
theorem mem_closure : t ∈ (a.closure initial).members ↔
    t < a.size ∧ ∃ s ∈ initial, a.Path s [] t := by
  have h := (Exploration.Invariant.start a initial).run
  constructor
  · exact fun ht => ⟨StateSet.lt_of_mem_members ht, h.sound t ht⟩
  · rintro ⟨ht, s, hs, hp⟩
    exact mem_closure_of_path hp rfl (h.initial_mem s hs (hp.start_lt ht)) ht

end Arena

end PatternAutomata
