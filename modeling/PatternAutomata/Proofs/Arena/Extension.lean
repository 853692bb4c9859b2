import Mathlib.Order.Interval.Set.Defs
import PatternAutomata.Proofs.Arena.Fragment

/-!
# Extensions that keep to themselves

`Arena.Extends a b` says that `b` is `a` with more states and edges, and that neither an edge of a
new state leads to an old one nor an old state has a new edge. The words between old states are then
the same in both arenas (`Extends.words_eq`), and no word leads back to an old state
(`Extends.words_eq_zero`). Fragments built one after the other in one arena are separated by this.

A fragment made of characters extends the arena (`extends_wildcard`). If the operands of an
operation belong to an extension, so does its result (`Extends.concatenate`, `Extends.alternate`,
`Extends.quantify`).
-/

namespace PatternAutomata

namespace Arena

variable {a b c : Arena} {s t : Nat}

/-- `b` is `a` with more states and edges, which have no state in common with the edges of `a`. -/
structure Extends (a b : Arena) : Prop where
  size_le : a.size ≤ b.size
  /-- The old states keep their edges. -/
  mem_edges : ∀ s < a.size, ∀ e, e ∈ b.edges s ↔ e ∈ a.edges s
  /-- The edges of new states lead to new states. -/
  bounds : ∀ s, a.size ≤ s → ∀ e ∈ b.edges s, a.size ≤ e.target ∧ e.target < b.size

namespace Extends

/-! ### Growing an extension -/

theorem refl (a : Arena) : Extends a a where
  size_le := Nat.le_refl _
  mem_edges _ _ _ := Iff.rfl
  bounds _ hs e he := absurd he (isSink_of_size_le hs e)

theorem trans (h : Extends a b) (h' : Extends b c) : Extends a c where
  size_le := Nat.le_trans h.size_le h'.size_le
  mem_edges s hs e :=
    (h'.mem_edges s (Nat.lt_of_lt_of_le hs h.size_le) e).trans (h.mem_edges s hs e)
  bounds s hs e he := by
    -- a state that `a` does not have is new since `a` or new since `b`
    rcases Nat.lt_or_ge s b.size with hlt | hge
    · obtain ⟨h₁, h₂⟩ := h.bounds s hs e ((h'.mem_edges s hlt e).mp he)
      exact ⟨h₁, Nat.lt_of_lt_of_le h₂ h'.size_le⟩
    · obtain ⟨h₁, h₂⟩ := h'.bounds s hge e he
      exact ⟨Nat.le_trans h.size_le h₁, h₂⟩

theorem addState (h : Extends a b) : Extends a b.addState where
  size_le := by
    rw [size_addState]
    exact Nat.le_succ_of_le h.size_le
  mem_edges s hs e := by rw [edges_addState, h.mem_edges s hs e]
  bounds s hs e he := by
    rw [edges_addState] at he
    obtain ⟨h₁, h₂⟩ := h.bounds s hs e he
    rw [size_addState]
    exact ⟨h₁, Nat.lt_succ_of_lt h₂⟩

theorem addPair (h : Extends a b) : Extends a b.addPair.1 := h.addState.addState

/-- An edge between new states may be added. -/
theorem addEdge {x y : Nat} (h : Extends a b) (hx : x ∈ Set.Ico a.size b.size)
    (hy : y ∈ Set.Ico a.size b.size) (symbol : Symbol) : Extends a (b.addEdge x symbol y) where
  size_le := by
    rw [size_addEdge]
    exact h.size_le
  mem_edges s hs e := by
    rw [mem_edges_addEdge hx.2, h.mem_edges s hs e]
    have hne : s ≠ x := Nat.ne_of_lt (Nat.lt_of_lt_of_le hs hx.1)
    exact or_iff_right fun hnew => hne hnew.1
  bounds s hs e he := by
    rw [size_addEdge]
    rcases (mem_edges_addEdge hx.2).mp he with ⟨_, rfl⟩ | he
    · exact hy
    · exact h.bounds s hs e he

/-- An extension of a closed arena is closed. -/
theorem isClosed (h : Extends a b) (ha : a.IsClosed) : b.IsClosed := by
  intro s e he
  rcases Nat.lt_or_ge s a.size with hlt | hge
  · exact Nat.lt_of_lt_of_le (ha s e ((h.mem_edges s hlt e).mp he)) h.size_le
  · exact (h.bounds s hge e he).2

end Extends

/-! ### Operations on fragments -/

/-- Both ends of the fragment are states of `b` that `a` does not have. -/
structure Adds (a b : Arena) (f : Fragment) : Prop where
  entry_mem : f.entry ∈ Set.Ico a.size b.size
  exit_mem : f.exit ∈ Set.Ico a.size b.size

/-- What is new since an arena is new since any earlier one, and remains so when states are added.
-/
theorem Adds.mono {d : Arena} {f : Fragment} (hf : Adds b c f) (hab : a.size ≤ b.size)
    (hcd : c.size ≤ d.size) : Adds a d f := by
  obtain ⟨⟨h₁, h₂⟩, ⟨h₃, h₄⟩⟩ := hf
  exact ⟨⟨Nat.le_trans hab h₁, Nat.lt_of_lt_of_le h₂ hcd⟩,
    ⟨Nat.le_trans hab h₃, Nat.lt_of_lt_of_le h₄ hcd⟩⟩

namespace Extends

variable {f g : Fragment}

theorem adds_addPair (h : Extends a b) : Adds a b.addPair.1 b.addPair.2 := by
  have hle := h.size_le
  have hsize := size_addPair b
  constructor
  · show b.size ∈ _
    rw [Set.mem_Ico]
    omega
  · show b.size + 1 ∈ _
    rw [Set.mem_Ico]
    omega

theorem concatenate (h : Extends a b) (hf : Adds a b f) (hg : Adds a b g) :
    Extends a (b.concatenate f g).1 ∧ Adds a (b.concatenate f g).1 (b.concatenate f g).2 := by
  have hsize := size_concatenate b f g
  refine ⟨h.addEdge hf.exit_mem hg.entry_mem .empty, ?_, ?_⟩
  · rw [hsize]
    exact hf.entry_mem
  · rw [hsize]
    exact hg.exit_mem

/-- Several empty edges between new states may be added. -/
theorem addEmpties (h : Extends a b) (l : List (Nat × Nat))
    (hl : ∀ p ∈ l, p.1 ∈ Set.Ico a.size b.size ∧ p.2 ∈ Set.Ico a.size b.size) :
    Extends a (l.foldl (fun b p => b.addEmpty p.1 p.2) b) := by
  induction l generalizing b with
  | nil => exact h
  | cons p l ih =>
    obtain ⟨hx, hy⟩ := hl p List.mem_cons_self
    refine ih (h.addEdge hx hy .empty) fun q hq => ?_
    simp only [size_addEmpty]
    exact hl q (List.mem_cons_of_mem p hq)

theorem alternate (h : Extends a b) (hf : Adds a b f) (hg : Adds a b g) :
    Extends a (b.alternate f g).1 ∧ Adds a (b.alternate f g).1 (b.alternate f g).2 := by
  have hpair := h.adds_addPair
  have hsize : b.size ≤ b.addPair.1.size := by simp
  have hf' := hf.mono (Nat.le_refl _) hsize
  have hg' := hg.mono (Nat.le_refl _) hsize
  refine ⟨h.addPair.addEmpties [(b.size, f.entry), (b.size, g.entry), (f.exit, b.size + 1),
    (g.exit, b.size + 1)] ?_, hpair.mono (Nat.le_refl _) (by simp)⟩
  simp only [List.forall_mem_cons]
  exact ⟨⟨hpair.entry_mem, hf'.entry_mem⟩, ⟨hpair.entry_mem, hg'.entry_mem⟩,
    ⟨hf'.exit_mem, hpair.exit_mem⟩, ⟨hg'.exit_mem, hpair.exit_mem⟩, List.forall_mem_nil _⟩

theorem repeated (h : Extends a b) (hf : Adds a b f) :
    Extends a (b.repeated f).1 ∧ Adds a (b.repeated f).1 f := by
  refine ⟨h.addEdge hf.exit_mem hf.entry_mem .empty, hf.mono (Nat.le_refl _) ?_⟩
  rw [size_repeated]

theorem skippable (h : Extends a b) (hf : Adds a b f) :
    Extends a (b.skippable f).1 ∧ Adds a (b.skippable f).1 (b.skippable f).2 := by
  have hpair := h.adds_addPair
  have hf' := hf.mono (Nat.le_refl a.size) (show b.size ≤ b.addPair.1.size by simp)
  refine ⟨h.addPair.addEmpties [(b.size, f.entry), (f.exit, b.size + 1), (b.size, b.size + 1)] ?_,
    hpair.mono (Nat.le_refl _) (by simp)⟩
  simp only [List.forall_mem_cons]
  exact ⟨⟨hpair.entry_mem, hf'.entry_mem⟩, ⟨hf'.exit_mem, hpair.exit_mem⟩,
    ⟨hpair.entry_mem, hpair.exit_mem⟩, List.forall_mem_nil _⟩

theorem quantify (h : Extends a b) (hf : Adds a b f) (q : Quantifier) :
    Extends a (b.quantify q f).1 ∧ Adds a (b.quantify q f).1 (b.quantify q f).2 := by
  cases q with
  | plus => exact h.repeated hf
  | optional => exact h.skippable hf
  | star =>
    obtain ⟨h', hf'⟩ := h.repeated hf
    exact h'.skippable hf'

/-! ### Words in an extension -/

/-- The words that lead from an old state stay the same. -/
theorem words_eq (h : Extends a b) (ha : a.IsClosed) (hs : s < a.size) (t : Nat) :
    b.words s t = a.words s t := by
  apply le_antisymm
  · -- no edge of `b` leaves the old states, so nothing need be asked of the words from new ones
    have hle := words_le (a := b) (t := t)
      (L := fun s => if s < a.size then a.words s t else ⊤) ?_ ?_ s
    · rwa [if_pos hs] at hle
    · split_ifs with ht
      · exact one_le_words a t
      · exact le_top
    · intro s e he
      by_cases hlt : s < a.size
      · have he' := (h.mem_edges s hlt e).mp he
        rw [if_pos hlt, if_pos (ha s e he')]
        exact language_mul_words_le he' t
      · rw [if_neg hlt]
        exact le_top
  · refine words_mono (fun s e he => ?_) s t
    exact (h.mem_edges s (lt_of_mem_edges he) e).mpr he

/-- No word leads from a new state to an old one. -/
theorem words_eq_zero (h : Extends a b) (hs : a.size ≤ s) (ht : t < a.size) :
    b.words s t = 0 := by
  -- the new states are closed under edges, and `t` is not among them
  have hle := words_le (a := b) (t := t) (L := fun s => if s < a.size then ⊤ else 0) ?_ ?_ s
  · rw [if_neg (Nat.not_lt.mpr hs)] at hle
    exact le_antisymm hle zero_le
  · rw [if_pos ht]
    exact le_top
  · intro s e he
    by_cases hlt : s < a.size
    · rw [if_pos hlt]
      exact le_top
    · have hge := (h.bounds s (Nat.not_lt.mp hlt) e he).1
      rw [if_neg (Nat.not_lt.mpr hge), mul_zero]
      exact zero_le

end Extends

/-! ### Fragments made of characters -/

/-- Edges for several characters between the same states. -/
theorem mem_edges_foldl_addEdge {x y : Nat} (characters : List Char) {a : Arena} (hx : x < a.size)
    {e : Edge} :
    e ∈ (characters.foldl (fun a c => a.addEdge x (.char c) y) a).edges s ↔
      (s = x ∧ ∃ c ∈ characters, e = ⟨.char c, y⟩) ∨ e ∈ a.edges s := by
  induction characters generalizing a with
  | nil => simp
  | cons c rest ih =>
    rw [List.foldl_cons, ih (by rwa [size_addEdge]), mem_edges_addEdge hx]
    simp only [List.mem_cons, exists_eq_or_imp, and_or_left, or_assoc]
    exact or_left_comm

/-- A fragment made of characters has an edge for each of them, and no other. -/
theorem mem_edges_wildcard (a : Arena) (characters : List Char) {e : Edge} :
    e ∈ (a.wildcard characters).1.edges s ↔
      (s = a.size ∧ ∃ c ∈ characters, e = ⟨.char c, a.size + 1⟩) ∨ e ∈ a.edges s := by
  show e ∈ (characters.foldl _ a.addPair.1).edges s ↔ _
  rw [← edges_addPair a s]
  exact mem_edges_foldl_addEdge characters (by simp)

theorem extends_wildcard (a : Arena) (characters : List Char) :
    Extends a (a.wildcard characters).1 where
  size_le := by
    rw [size_wildcard]
    exact Nat.le_add_right _ _
  mem_edges s hs e := by
    rw [mem_edges_wildcard]
    have hne : s ≠ a.size := Nat.ne_of_lt hs
    exact or_iff_right fun hnew => hne hnew.1
  bounds s hs e he := by
    rw [size_wildcard]
    rcases (mem_edges_wildcard a characters).mp he with ⟨_, c, _, rfl⟩ | he
    · exact ⟨Nat.le_succ _, Nat.lt_succ_self _⟩
    · exact absurd he (isSink_of_size_le hs e)

theorem adds_wildcard (a : Arena) (characters : List Char) :
    Adds a (a.wildcard characters).1 (a.wildcard characters).2 :=
  (Extends.refl a).adds_addPair.mono (Nat.le_refl _) (by simp)

/-- The fragment spells one of the characters. -/
theorem words_wildcard (a : Arena) (characters : List Char) :
    (a.wildcard characters).1.words (a.wildcard characters).2.entry (a.wildcard characters).2.exit =
      {w | ∃ c ∈ characters, w = [c]} := by
  set l : Language Char := {w | ∃ c ∈ characters, w = [c]} with hl
  show (a.wildcard characters).1.words a.size (a.size + 1) = l
  have hnew : a.size + 1 ≠ a.size := Nat.succ_ne_self _
  apply le_antisymm
  · have hle := words_le (a := (a.wildcard characters).1) (t := a.size + 1)
      (L := fun s => if s = a.size then l else if s = a.size + 1 then 1 else ⊤) ?_ ?_ a.size
    · rwa [if_pos rfl] at hle
    · rw [if_neg hnew, if_pos rfl]
    · intro s e he
      rcases (mem_edges_wildcard a characters).mp he with ⟨rfl, c, hc, rfl⟩ | he
      · -- an edge of the new entry
        rw [if_neg hnew, if_pos rfl, if_pos rfl, mul_one]
        exact fun w hw => ⟨c, hc, hw⟩
      · have hlt := lt_of_mem_edges he
        rw [if_neg (Nat.ne_of_lt hlt), if_neg (Nat.ne_of_lt (Nat.lt_succ_of_lt hlt))]
        exact le_top
  · rintro _ ⟨c, hc, rfl⟩
    exact .char ((mem_edges_wildcard a characters).mpr (.inl ⟨rfl, c, hc, rfl⟩)) (.nil _)

end Arena

end PatternAutomata
