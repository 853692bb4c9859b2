import PatternAutomata.Proofs.Arena.Extension

/-!
# Operations make fragments

Every operation on fragments does three things (`Arena.Makes`): it loses no state, it keeps the
edges within the arena, and it gives a fragment that consists of states. An arena keeps its edges
within itself iff it extends the empty one (`extends_empty_iff`), and so all three follow from what
is known about extensions.
-/

namespace PatternAutomata

namespace Arena

variable {a b : Arena} {f g : Fragment}

/-- Both ends of the fragment are states. -/
structure Contains (a : Arena) (f : Fragment) : Prop where
  entry_lt : f.entry < a.size
  exit_lt : f.exit < a.size

theorem Contains.mono (hf : a.Contains f) (h : a.size ≤ b.size) : b.Contains f :=
  ⟨Nat.lt_of_lt_of_le hf.entry_lt h, Nat.lt_of_lt_of_le hf.exit_lt h⟩

/-! ### Extensions of the empty arena -/

theorem isClosed_empty : IsClosed {} := by
  intro s e he
  have hlt : s < 0 := lt_of_mem_edges he
  exact absurd hlt (Nat.not_lt_zero s)

theorem extends_empty_iff : Extends {} a ↔ a.IsClosed := by
  constructor
  · intro h
    exact h.isClosed isClosed_empty
  · intro ha
    refine ⟨Nat.zero_le _, fun s hs => absurd hs (Nat.not_lt_zero s), ?_⟩
    intro s _ e he
    exact ⟨Nat.zero_le _, ha s e he⟩

theorem adds_empty_iff : Adds {} a f ↔ a.Contains f := by
  constructor
  · intro h
    exact ⟨h.entry_mem.2, h.exit_mem.2⟩
  · intro h
    exact ⟨⟨Nat.zero_le _, h.entry_lt⟩, ⟨Nat.zero_le _, h.exit_lt⟩⟩

/-! ### Operations that make a fragment -/

/-- The arena has grown, is closed, and contains the new fragment. -/
structure Makes (a : Arena) (r : Arena × Fragment) : Prop where
  size_le : a.size ≤ r.1.size
  isClosed : r.1.IsClosed
  contains : r.1.Contains r.2

namespace Makes

theorem of_extends {r : Arena × Fragment} (hsize : a.size ≤ r.1.size)
    (h : Extends {} r.1 ∧ Adds {} r.1 r.2) : a.Makes r :=
  ⟨hsize, extends_empty_iff.1 h.1, adds_empty_iff.1 h.2⟩

theorem wildcard (ha : a.IsClosed) (characters : List Char) : a.Makes (a.wildcard characters) := by
  have hextends := extends_wildcard a characters
  have hadds := adds_wildcard a characters
  exact ⟨hextends.size_le, hextends.isClosed ha, ⟨hadds.entry_mem.2, hadds.exit_mem.2⟩⟩

theorem concatenate (ha : a.IsClosed) (hf : a.Contains f) (hg : a.Contains g) :
    a.Makes (a.concatenate f g) := by
  refine of_extends (by simp) ?_
  exact (extends_empty_iff.2 ha).concatenate (adds_empty_iff.2 hf) (adds_empty_iff.2 hg)

theorem alternate (ha : a.IsClosed) (hf : a.Contains f) (hg : a.Contains g) :
    a.Makes (a.alternate f g) := by
  refine of_extends (by simp) ?_
  exact (extends_empty_iff.2 ha).alternate (adds_empty_iff.2 hf) (adds_empty_iff.2 hg)

theorem quantify (ha : a.IsClosed) (hf : a.Contains f) (q : Quantifier) :
    a.Makes (a.quantify q f) := by
  refine of_extends ?_ ((extends_empty_iff.2 ha).quantify (adds_empty_iff.2 hf) q)
  cases q <;> simp [Arena.quantify]

end Makes

end Arena

end PatternAutomata
