import PatternAutomata.Proofs.Arena.Making

/-!
# What an operation leaves alone

An operation on fragments changes states of its operands in place, and yet it does not concern the
rest of the arena. This can be said by words alone, without a region of states for each fragment
(`Arena.Confines`): a state from which no operand's exit is reached keeps its words and does not
reach the exit of the result, and a state that is not reached from any operand's entry is not
reached from the entry of the result.

All operations confine themselves to their operands in this sense. The new edges begin at exits of
operands or at the new entry (`words_addEmpties_of_source`), and they lead to entries of operands or
to the new exit (`words_addEmpties_of_target`); nothing else is used.
-/

namespace PatternAutomata

namespace Arena

variable {a b : Arena} {f g h : Fragment} {s t : Nat} {l : List (Nat × Nat)}
  {operands : List Fragment}

/-! ### Edges out of reach -/

/-- Empty edges are of no use to a state that does not reach their sources. -/
theorem words_addEmpties_of_source (hlt : ∀ p ∈ l, p.1 < a.size)
    (hsource : ∀ p ∈ l, a.words s p.1 = 0) (t : Nat) :
    (l.foldl (fun b p => b.addEmpty p.1 p.2) a).words s t = a.words s t := by
  induction l generalizing a with
  | nil => rfl
  | cons p l ih =>
    have hp : p.1 < a.size := hlt p List.mem_cons_self
    have hsame (t : Nat) : (a.addEmpty p.1 p.2).words s t = a.words s t := by
      rw [words_addEmpty hp, hsource p List.mem_cons_self, zero_mul, zero_mul, add_zero]
    rw [List.foldl_cons, ih, hsame]
    · intro q hq
      rw [size_addEmpty]
      exact hlt q (List.mem_cons_of_mem p hq)
    · intro q hq
      rw [hsame]
      exact hsource q (List.mem_cons_of_mem p hq)

/-- Empty edges do not lead to a state that their targets do not reach. -/
theorem words_addEmpties_of_target (hlt : ∀ p ∈ l, p.1 < a.size)
    (htarget : ∀ p ∈ l, a.words p.2 t = 0) (s : Nat) :
    (l.foldl (fun b p => b.addEmpty p.1 p.2) a).words s t = a.words s t := by
  induction l generalizing a with
  | nil => rfl
  | cons p l ih =>
    have hp : p.1 < a.size := hlt p List.mem_cons_self
    have hsame (s : Nat) : (a.addEmpty p.1 p.2).words s t = a.words s t := by
      rw [words_addEmpty hp, htarget p List.mem_cons_self, mul_zero, add_zero]
    rw [List.foldl_cons, ih, hsame]
    · intro q hq
      rw [size_addEmpty]
      exact hlt q (List.mem_cons_of_mem p hq)
    · intro q hq
      rw [hsame]
      exact htarget q (List.mem_cons_of_mem p hq)

/-! ### Operations confined to their operands -/

/-- The state reaches no exit of an operand. -/
def Misses (a : Arena) (s : Nat) (operands : List Fragment) : Prop :=
  ∀ f ∈ operands, a.words s f.exit = 0

/-- No entry of an operand reaches the state. -/
def MissedBy (a : Arena) (operands : List Fragment) (t : Nat) : Prop :=
  ∀ f ∈ operands, a.words f.entry t = 0

/-- Making `r` of the operands does not concern states that are separate from these. -/
structure Confines (a : Arena) (operands : List Fragment) (r : Arena × Fragment) : Prop where
  words_eq : ∀ s t, s < a.size → t < a.size → a.Misses s operands →
    r.1.words s t = a.words s t
  words_exit : ∀ s, s < a.size → a.Misses s operands → r.1.words s r.2.exit = 0
  words_entry : ∀ t, t < a.size → a.MissedBy operands t → r.1.words r.2.entry t = 0

namespace Confines

/-- An operation without new states: its edges lead from exits to entries of operands, and its
result has an entry and an exit of operands. -/
theorem within (hlt : ∀ p ∈ l, p.1 < a.size) (hsource : ∀ p ∈ l, ∃ f ∈ operands, p.1 = f.exit)
    (htarget : ∀ p ∈ l, ∃ f ∈ operands, p.2 = f.entry)
    (hentry : ∃ f ∈ operands, h.entry = f.entry) (hexit : ∃ f ∈ operands, h.exit = f.exit) :
    a.Confines operands (l.foldl (fun b p => b.addEmpty p.1 p.2) a, h) := by
  have hkeep (s : Nat) (hs : a.Misses s operands) (t : Nat) :
      (l.foldl (fun b p => b.addEmpty p.1 p.2) a).words s t = a.words s t := by
    refine words_addEmpties_of_source hlt (fun p hp => ?_) t
    obtain ⟨f, hf, heq⟩ := hsource p hp
    rw [heq]
    exact hs f hf
  refine ⟨fun s t _ _ hs => hkeep s hs t, fun s _ hs => ?_, fun t _ ht => ?_⟩
  · obtain ⟨f, hf, heq⟩ := hexit
    show Arena.words _ s h.exit = 0
    rw [hkeep s hs, heq]
    exact hs f hf
  · obtain ⟨f, hf, heq⟩ := hentry
    have hmissed : ∀ p ∈ l, a.words p.2 t = 0 := by
      intro p hp
      obtain ⟨g, hg, hpg⟩ := htarget p hp
      rw [hpg]
      exact ht g hg
    show Arena.words _ h.entry t = 0
    rw [words_addEmpties_of_target hlt hmissed, heq]
    exact ht f hf

/-- An operation with a new entry and a new exit: its edges lead from the entry or from exits of
operands to the exit or to entries of operands. -/
theorem around (ha : a.IsClosed) (hlt : ∀ p ∈ l, p.1 < a.addPair.1.size)
    (hsource : ∀ p ∈ l, p.1 = a.size ∨ ∃ f ∈ operands, p.1 = f.exit)
    (htarget : ∀ p ∈ l, p.2 = a.size + 1 ∨ ∃ f ∈ operands, p.2 = f.entry) :
    a.Confines operands (l.foldl (fun b p => b.addEmpty p.1 p.2) a.addPair.1, a.addPair.2) := by
  have hkeep (s : Nat) (hlt' : s < a.size) (hs : a.Misses s operands) (t : Nat) :
      (l.foldl (fun b p => b.addEmpty p.1 p.2) a.addPair.1).words s t = a.words s t := by
    rw [words_addEmpties_of_source hlt, words_addPair]
    intro p hp
    rw [words_addPair]
    rcases hsource p hp with heq | ⟨f, hf, heq⟩
    · rw [heq]
      exact ha.words_eq_zero hlt' (Nat.le_refl _)
    · rw [heq]
      exact hs f hf
  refine ⟨fun s t hlt' _ hs => hkeep s hlt' hs t, fun s hlt' hs => ?_, fun t hlt' ht => ?_⟩
  · show Arena.words _ s (a.size + 1) = 0
    rw [hkeep s hlt' hs]
    exact ha.words_eq_zero hlt' (Nat.le_succ _)
  · -- before the operation neither of the two new states leads anywhere
    have hnew (x : Nat) (hx : a.size ≤ x) : a.words x t = 0 := by
      rw [(isSink_of_size_le hx).words_eq, if_neg (by omega)]
    show Arena.words _ a.size t = 0
    rw [words_addEmpties_of_target hlt, words_addPair, hnew _ (Nat.le_refl _)]
    intro p hp
    rw [words_addPair]
    rcases htarget p hp with heq | ⟨f, hf, heq⟩
    · rw [heq]
      exact hnew _ (Nat.le_succ _)
    · rw [heq]
      exact ht f hf

/-- Of two operations, the second one on the result of the first. -/
theorem trans {r r' : Arena × Fragment} (hsize : a.size ≤ r.1.size) (hr : a.Confines operands r)
    (hr' : r.1.Confines [r.2] r') : a.Confines operands r' := by
  have hmisses (s : Nat) (hlt : s < a.size) (hs : a.Misses s operands) :
      r.1.Misses s [r.2] := by
    intro f hf
    rw [List.mem_singleton.1 hf]
    exact hr.words_exit s hlt hs
  refine ⟨fun s t hlt hlt' hs => ?_, fun s hlt hs => ?_, fun t hlt ht => ?_⟩
  · rw [hr'.words_eq s t (Nat.lt_of_lt_of_le hlt hsize) (Nat.lt_of_lt_of_le hlt' hsize)
      (hmisses s hlt hs), hr.words_eq s t hlt hlt' hs]
  · exact hr'.words_exit s (Nat.lt_of_lt_of_le hlt hsize) (hmisses s hlt hs)
  · refine hr'.words_entry t (Nat.lt_of_lt_of_le hlt hsize) fun f hf => ?_
    rw [List.mem_singleton.1 hf]
    exact hr.words_entry t hlt ht

/-! ### The operations -/

theorem wildcard (ha : a.IsClosed) (characters : List Char) :
    a.Confines [] (a.wildcard characters) := by
  have hextends := extends_wildcard a characters
  have hadds := adds_wildcard a characters
  refine ⟨fun s t hlt _ _ => hextends.words_eq ha hlt t, fun s hlt _ => ?_, fun t hlt _ => ?_⟩
  · rw [hextends.words_eq ha hlt]
    exact ha.words_eq_zero hlt hadds.exit_mem.1
  · exact hextends.words_eq_zero hadds.entry_mem.1 hlt

theorem concatenate (hf : a.Contains f) (g : Fragment) :
    a.Confines [f, g] (a.concatenate f g) := by
  refine within (l := [(f.exit, g.entry)]) ?_ ?_ ?_ ?_ ?_
  · simpa using hf.exit_lt
  all_goals simp

theorem alternate (ha : a.IsClosed) (hf : a.Contains f) (hg : a.Contains g) :
    a.Confines [f, g] (a.alternate f g) := by
  refine around ha (l := [(a.size, f.entry), (a.size, g.entry), (f.exit, a.size + 1),
    (g.exit, a.size + 1)]) ?_ ?_ ?_
  · simp only [List.forall_mem_cons, size_addPair]
    exact ⟨by omega, by omega, Nat.lt_add_right 2 hf.exit_lt, Nat.lt_add_right 2 hg.exit_lt,
      List.forall_mem_nil _⟩
  all_goals simp

theorem repeated (hf : a.Contains f) : a.Confines [f] (a.repeated f) := by
  refine within (l := [(f.exit, f.entry)]) ?_ ?_ ?_ ?_ ?_
  · simpa using hf.exit_lt
  all_goals simp

theorem skippable (ha : a.IsClosed) (hf : a.Contains f) : a.Confines [f] (a.skippable f) := by
  refine around ha (l := [(a.size, f.entry), (f.exit, a.size + 1), (a.size, a.size + 1)]) ?_ ?_ ?_
  · simp only [List.forall_mem_cons, size_addPair]
    exact ⟨by omega, Nat.lt_add_right 2 hf.exit_lt, by omega, List.forall_mem_nil _⟩
  all_goals simp

theorem quantify (ha : a.IsClosed) (hf : a.Contains f) (q : Quantifier) :
    a.Confines [f] (a.quantify q f) := by
  cases q with
  | plus => exact repeated hf
  | optional => exact skippable ha hf
  | star =>
    have hmakes : a.Makes (a.repeated f) := .quantify ha hf .plus
    exact (repeated hf).trans hmakes.size_le (skippable hmakes.isClosed hmakes.contains)

end Confines

end Arena

end PatternAutomata
