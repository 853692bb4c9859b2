import PatternAutomata.Arena.Path

/-!
# Taking paths apart

Only states have edges, so a path that ends at a state begins at one (`Path.start_lt`). A path is
cut where its word is cut (`Path.exists_of_append`), and one that spells a nonempty word is cut at
the edge that reads the first character (`Path.exists_of_cons`). Of the edges a path depends on,
neither order nor multiplicity matters (`path_congr`).
-/

namespace PatternAutomata

namespace Arena

variable {a b : Arena} {s t u : StateId} {v w : List Char} {c : Char}

/-! ### Where paths run -/

theorem lt_of_mem_edges {e : Edge} (h : e ∈ a.edges s) : s < a.size := by
  rcases Nat.lt_or_ge s a.size with hs | hs
  · exact hs
  · rw [edges, Array.getElem?_eq_none hs] at h
    exact absurd h List.not_mem_nil

/-- A path that ends at a state begins at one. -/
theorem Path.start_lt (h : a.Path s w t) (ht : t < a.size) : s < a.size := by
  cases h with
  | nil => exact ht
  | empty he _ => exact lt_of_mem_edges he
  | char he _ => exact lt_of_mem_edges he

/-- What every edge carries over to its target, a path carries over to its end. -/
theorem Path.preserves {P : StateId → Prop} (hP : ∀ q, P q → ∀ e ∈ a.edges q, P e.target)
    (h : a.Path s w t) (hs : P s) : P t := by
  induction h with
  | nil => exact hs
  | empty he _ ih => exact ih (hP _ hs _ he)
  | char he _ ih => exact ih (hP _ hs _ he)

/-- Arenas with the same edges, in whatever order and number, spell the same words. -/
theorem path_congr (h : ∀ s e, e ∈ b.edges s ↔ e ∈ a.edges s) : b.Path s w t ↔ a.Path s w t :=
  ⟨Path.mono fun s e he => (h s e).mp he, Path.mono fun s e he => (h s e).mpr he⟩

/-! ### Joints -/

/-- A path may be prolonged by an edge on the empty symbol. -/
theorem Path.snoc_empty (h : a.Path s w t) (he : ⟨.empty, u⟩ ∈ a.edges t) : a.Path s w u := by
  have h' : a.Path s (w ++ []) u := h.append (.empty he (.nil u))
  rwa [List.append_nil] at h'

/-- A path that spells a nonempty word first follows empty edges, then reads a character. -/
theorem Path.exists_of_cons (h : a.Path s (c :: w) u) :
    ∃ q r, a.Path s [] q ∧ ⟨.char c, r⟩ ∈ a.edges q ∧ a.Path r w u := by
  -- the empty edges in front are passed by induction, which needs the word to be a variable
  generalize hx : c :: w = x at h
  induction h with
  | nil => cases hx
  | empty he _ ih =>
    obtain ⟨q, r, hq, hr, hw⟩ := ih hx
    exact ⟨q, r, .empty he hq, hr, hw⟩
  | char he hp =>
    cases hx
    exact ⟨_, _, .nil _, he, hp⟩

/-- A path that spells a joined word passes through a state between its two parts. -/
theorem Path.exists_of_append (h : a.Path s (v ++ w) u) : ∃ t, a.Path s v t ∧ a.Path t w u := by
  induction v generalizing s with
  | nil => exact ⟨s, .nil s, h⟩
  | cons c v ih =>
    obtain ⟨q, r, hq, hr, hp⟩ := h.exists_of_cons
    obtain ⟨t, ht, hw⟩ := ih hp
    exact ⟨t, hq.append (.char hr ht), hw⟩

end Arena

end PatternAutomata
