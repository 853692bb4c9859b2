/-!
# Sets of states

A set of numbers below a bound, kept in two forms at once: a mark for each number, which answers
membership at once, and the array of members in the order of their arrival, which can be walked
while the set still grows. The proof fields tie the two together. They also bound the array: it
holds no more members than there are marks, so a walk along it ends.
-/

namespace PatternAutomata

/-- A set of numbers below `n` that remembers the order in which its members arrived. -/
structure StateSet (n : Nat) where
  /-- The mark at `i` says whether `i` is a member. -/
  marks : Vector Bool n
  /-- The members, the first to arrive first. -/
  members : Array Nat
  /-- The marked numbers are the members. -/
  mem_members : ∀ i, i ∈ members ↔ marks[i]? = some true
  /-- There is a mark for each entry of `members`, so no member is entered twice. -/
  size_members : members.size = marks.count true

namespace StateSet

variable {n : Nat}

/-- The set without members. -/
def empty (n : Nat) : StateSet n where
  marks := Vector.replicate n false
  members := #[]
  mem_members i := by simp [Vector.getElem?_replicate]
  size_members := by simp [Vector.count_replicate]

/-- Whether `i` is a member. -/
def contains (s : StateSet n) (i : Nat) : Bool :=
  if h : i < n then s.marks[i] else false

/-- The number of members. -/
def size (s : StateSet n) : Nat := s.members.size

/-- Adds `i`. The set stays as it is if `i` is a member already or not below the bound. -/
def insert (s : StateSet n) (i : Nat) : StateSet n :=
  if h : i < n then
    if hm : s.marks[i] = true then s
    else
      { marks := s.marks.set i true h
        members := s.members.push i
        mem_members := fun j => by
          have := s.mem_members j
          simp only [Array.mem_push, Vector.getElem?_set]
          by_cases hij : i = j
          · subst hij; simp
          · simp [hij, Ne.symm hij, this]
        size_members := by
          have := s.size_members
          simp [Vector.count_set, hm, this] }
  else s

/-- Adds every number of a list, in order. -/
def insertMany (s : StateSet n) (l : List Nat) : StateSet n := l.foldl insert s

/-- There are no more members than numbers below the bound. -/
theorem size_le (s : StateSet n) : s.size ≤ n := by
  rw [size, s.size_members]
  exact Vector.count_le_size

theorem contains_eq_true_iff {s : StateSet n} {i : Nat} : s.contains i = true ↔ i ∈ s.members := by
  rw [s.mem_members, contains]
  split
  · next h => simp [h]
  · next h => simp [Nat.not_lt.mp h]

theorem lt_of_mem_members {s : StateSet n} {i : Nat} (h : i ∈ s.members) : i < n := by
  rw [s.mem_members] at h
  exact (Vector.getElem?_eq_some_iff.mp h).1

@[simp] theorem members_empty : (empty n).members = #[] := rfl

theorem mem_insert {s : StateSet n} {i j : Nat} :
    j ∈ (s.insert i).members ↔ j ∈ s.members ∨ j = i ∧ i < n := by
  unfold insert
  split
  · next h =>
    split
    · next hm =>
      have : i ∈ s.members := (s.mem_members i).mpr (by simp [h, hm])
      constructor
      · exact .inl
      · rintro (hj | ⟨rfl, _⟩)
        · exact hj
        · exact this
    · simp [h]
  · next h => simp [h]

theorem mem_insertMany {s : StateSet n} {l : List Nat} {j : Nat} :
    j ∈ (s.insertMany l).members ↔ j ∈ s.members ∨ j ∈ l ∧ j < n := by
  unfold insertMany
  induction l generalizing s with
  | nil => simp
  | cons i l ih =>
    rw [List.foldl_cons, ih, mem_insert, List.mem_cons, or_assoc, or_and_right]
    refine or_congr_right (or_congr_left (and_congr_right fun hj => ?_))
    rw [hj]

end StateSet

end PatternAutomata
