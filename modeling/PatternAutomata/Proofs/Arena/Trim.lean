import PatternAutomata.Proofs.Arena.Extension

/-!
# Fragments without useless states

A state serves a fragment if it can be reached from the entry and the exit can be reached from it.
The operations on fragments waste no state (`IsTrimSince`): if all states that the operands have
brought serve the operands, then all states that have come since serve the result.

That a state serves a fragment survives whatever is added to the arena, and it passes on to a larger
fragment around the first one (`Serves.around`). What remains for each operation is which of its
edges lead into an operand and which lead out of it. All of them are empty edges, so that no
character has to be found that could be read; only a fragment made of characters needs one.
-/

namespace PatternAutomata

namespace Arena

variable {a b : Arena} {f g h : Fragment} {r : Arena × Fragment} {s t u : Nat}
  {l : List (Nat × Nat)}

/-! ### Reachability -/

/-- Some path leads from the first state to the second. -/
def Reaches (a : Arena) (s t : StateId) : Prop := ∃ w, a.Path s w t

namespace Reaches

theorem refl (a : Arena) (s : Nat) : a.Reaches s s := ⟨[], .nil s⟩

theorem trans (h : a.Reaches s t) (h' : a.Reaches t u) : a.Reaches s u := by
  obtain ⟨v, hv⟩ := h
  obtain ⟨w, hw⟩ := h'
  exact ⟨v ++ w, hv.append hw⟩

theorem mono (hab : ∀ s, ∀ e ∈ a.edges s, e ∈ b.edges s) (h : a.Reaches s t) : b.Reaches s t := by
  obtain ⟨w, hw⟩ := h
  exact ⟨w, hw.mono hab⟩

end Reaches

/-- An extension has the edges of the arena that it extends. -/
theorem Extends.mem_edges_of_mem (hab : Extends a b) : ∀ s, ∀ e ∈ a.edges s, e ∈ b.edges s :=
  fun s e he => (hab.mem_edges s (lt_of_mem_edges he) e).2 he

theorem size_addEmpties (a : Arena) (l : List (Nat × Nat)) :
    (l.foldl (fun b p => b.addEmpty p.1 p.2) a).size = a.size := by
  induction l generalizing a with
  | nil => rfl
  | cons p l ih => rw [List.foldl_cons, ih, size_addEmpty]

/-- Several empty edges have been added, and no edge has been lost. -/
theorem mem_edges_addEmpties (hl : ∀ p ∈ l, p.1 < a.size) {e : Edge} :
    e ∈ (l.foldl (fun b p => b.addEmpty p.1 p.2) a).edges s ↔
      (∃ p ∈ l, s = p.1 ∧ e = ⟨.empty, p.2⟩) ∨ e ∈ a.edges s := by
  induction l generalizing a with
  | nil => simp
  | cons p l ih =>
    have hl' : ∀ q ∈ l, q.1 < (a.addEmpty p.1 p.2).size := by
      intro q hq
      rw [size_addEmpty]
      exact hl q (List.mem_cons_of_mem p hq)
    rw [List.foldl_cons, ih hl', addEmpty, mem_edges_addEdge (hl p List.mem_cons_self)]
    simp only [List.exists_mem_cons_iff]
    rw [← or_assoc, or_comm (a := ∃ q ∈ l, _)]

/-- Where empty edges have been added, what was reached is still reached, and so are the targets of
the new edges. -/
theorem reaches_addEmpties (hl : ∀ p ∈ l, p.1 < a.size) :
    (∀ s, ∀ e ∈ a.edges s, e ∈ (l.foldl (fun b p => b.addEmpty p.1 p.2) a).edges s) ∧
      ∀ p ∈ l, (l.foldl (fun b p => b.addEmpty p.1 p.2) a).Reaches p.1 p.2 := by
  constructor
  · intro s e he
    exact (mem_edges_addEmpties hl).2 (.inr he)
  · intro p hp
    exact ⟨[], .empty ((mem_edges_addEmpties hl).2 (.inl ⟨p, hp, rfl, rfl⟩)) (.nil _)⟩

/-! ### States that serve a fragment -/

/-- The state lies on a way from the entry of the fragment to its exit. -/
structure Serves (a : Arena) (f : Fragment) (s : StateId) : Prop where
  entry_reaches : a.Reaches f.entry s
  reaches_exit : a.Reaches s f.exit

namespace Serves

/-- A fragment that some state serves has a way from its entry to its exit. -/
theorem reaches (hs : a.Serves f s) : a.Reaches f.entry f.exit :=
  hs.entry_reaches.trans hs.reaches_exit

theorem mono (hab : ∀ s, ∀ e ∈ a.edges s, e ∈ b.edges s) (hs : a.Serves f s) : b.Serves f s :=
  ⟨hs.entry_reaches.mono hab, hs.reaches_exit.mono hab⟩

/-- What serves a fragment serves every fragment whose entry leads to it and to whose exit it
leads. -/
theorem around (hs : a.Serves f s) (hentry : a.Reaches h.entry f.entry)
    (hexit : a.Reaches f.exit h.exit) : a.Serves h s :=
  ⟨hentry.trans hs.entry_reaches, hs.reaches_exit.trans hexit⟩

end Serves

/-- Every state that has been added since `a` serves the fragment. -/
def IsTrimSince (a : Arena) (r : Arena × Fragment) : Prop :=
  ∀ s ∈ Set.Ico a.size r.1.size, r.1.Serves r.2 s

/-! ### The operations -/

namespace IsTrimSince

/-- A fragment made of characters leads from its entry to its exit if there is a character. -/
theorem wildcard (a : Arena) {characters : List Char} (hne : characters ≠ []) :
    a.IsTrimSince (a.wildcard characters) := by
  obtain ⟨c, hc⟩ := List.exists_mem_of_ne_nil characters hne
  have hedge : ⟨.char c, a.size + 1⟩ ∈ (a.wildcard characters).1.edges a.size :=
    (mem_edges_wildcard a characters).2 (.inl ⟨rfl, c, hc, rfl⟩)
  have hreaches : (a.wildcard characters).1.Reaches a.size (a.size + 1) :=
    ⟨[c], .char hedge (.nil _)⟩
  intro s hs
  rw [size_wildcard, Set.mem_Ico] at hs
  obtain rfl | rfl : s = a.size ∨ s = a.size + 1 := by omega
  · exact ⟨.refl _ _, hreaches⟩
  · exact ⟨hreaches, .refl _ _⟩

/-- Where two fragments have been built one after the other, each new state serves one of them, and
both have a way through. -/
theorem serves_or (hf : a.IsTrimSince (b, f)) (hf' : Adds a b f) (hg : b.IsTrimSince r)
    (hg' : Adds b r.1 r.2) (hbr : Extends b r.1) :
    r.1.Serves f f.entry ∧ r.1.Serves r.2 r.2.entry ∧
      ∀ s ∈ Set.Ico a.size r.1.size, r.1.Serves f s ∨ r.1.Serves r.2 s := by
  have hold (s : Nat) (hs : s ∈ Set.Ico a.size b.size) : r.1.Serves f s :=
    (hf s hs).mono hbr.mem_edges_of_mem
  refine ⟨hold _ hf'.entry_mem, hg _ hg'.entry_mem, fun s hs => ?_⟩
  by_cases hlt : s < b.size
  · exact .inl (hold s ⟨hs.1, hlt⟩)
  · exact .inr (hg s ⟨Nat.not_lt.1 hlt, hs.2⟩)

/-- The way leads through both operands. -/
theorem concatenate (hf : a.IsTrimSince (b, f)) (hf' : Adds a b f) (hg : b.IsTrimSince r)
    (hg' : Adds b r.1 r.2) (hbr : Extends b r.1) : a.IsTrimSince (r.1.concatenate f r.2) := by
  obtain ⟨hleft, hright, hserves⟩ := serves_or hf hf' hg hg' hbr
  have hexit : f.exit < r.1.size := Nat.lt_of_lt_of_le hf'.exit_mem.2 hbr.size_le
  obtain ⟨hmono, hlinks⟩ := reaches_addEmpties (a := r.1) (l := [(f.exit, r.2.entry)])
    (List.forall_mem_singleton.2 hexit)
  have hlink := hlinks _ List.mem_cons_self
  intro s hs
  rw [size_concatenate] at hs
  rcases hserves s hs with hs | hs
  · exact (hs.mono hmono).around (.refl _ _) (hlink.trans (hright.reaches.mono hmono))
  · exact (hs.mono hmono).around ((hleft.reaches.mono hmono).trans hlink) (.refl _ _)

/-- A pair of new states around operands: the new states serve it if some way leads through, and
what serves an operand serves it if both ends of the operand are linked to the pair. -/
theorem around (hl : ∀ p ∈ l, p.1 < b.addPair.1.size) (hf : b.Serves f f.entry)
    (hentry : (b.size, f.entry) ∈ l) (hexit : (f.exit, b.size + 1) ∈ l)
    (hserves : ∀ s ∈ Set.Ico a.size b.size, ∃ g, b.Serves g s ∧ (b.size, g.entry) ∈ l ∧
      (g.exit, b.size + 1) ∈ l) :
    a.IsTrimSince (l.foldl (fun b p => b.addEmpty p.1 p.2) b.addPair.1, b.addPair.2) := by
  obtain ⟨hmono, hlinks⟩ := reaches_addEmpties hl
  have hmono' : ∀ s, ∀ e ∈ b.edges s,
      e ∈ (l.foldl (fun b p => b.addEmpty p.1 p.2) b.addPair.1).edges s := by
    intro s e he
    refine hmono s e ?_
    rwa [edges_addPair]
  have hsize : (l.foldl (fun b p => b.addEmpty p.1 p.2) b.addPair.1).size = b.size + 2 := by
    rw [size_addEmpties, size_addPair]
  have hthrough := ((hf.mono hmono').around (hlinks _ hentry) (hlinks _ hexit)
    (h := b.addPair.2)).reaches
  intro s hs
  rw [Set.mem_Ico] at hs
  simp only [hsize] at hs
  by_cases hlt : s < b.size
  · obtain ⟨g, hg, hgentry, hgexit⟩ := hserves s ⟨hs.1, hlt⟩
    exact (hg.mono hmono').around (hlinks _ hgentry) (hlinks _ hgexit)
  · obtain rfl | rfl : s = b.size ∨ s = b.size + 1 := by omega
    · exact ⟨.refl _ _, hthrough⟩
    · exact ⟨hthrough, .refl _ _⟩

theorem alternate (hf : a.IsTrimSince (b, f)) (hf' : Adds a b f) (hg : b.IsTrimSince r)
    (hg' : Adds b r.1 r.2) (hbr : Extends b r.1) : a.IsTrimSince (r.1.alternate f r.2) := by
  obtain ⟨hleft, _, hserves⟩ := serves_or hf hf' hg hg' hbr
  have hexit : f.exit < r.1.size := Nat.lt_of_lt_of_le hf'.exit_mem.2 hbr.size_le
  have hexit' : r.2.exit < r.1.size := hg'.exit_mem.2
  refine around (l := [(r.1.size, f.entry), (r.1.size, r.2.entry), (f.exit, r.1.size + 1),
    (r.2.exit, r.1.size + 1)]) ?_ hleft (by simp) (by simp) fun s hs => ?_
  · simp only [List.forall_mem_cons, size_addPair]
    exact ⟨by omega, by omega, Nat.lt_add_right 2 hexit, Nat.lt_add_right 2 hexit',
      List.forall_mem_nil _⟩
  · rcases hserves s hs with hs | hs
    · exact ⟨f, hs, by simp, by simp⟩
    · exact ⟨r.2, hs, by simp, by simp⟩

theorem repeated (hf : a.IsTrimSince (b, f)) (hf' : Adds a b f) :
    a.IsTrimSince (b.repeated f) := by
  have hmono := (reaches_addEmpties (a := b) (l := [(f.exit, f.entry)])
    (List.forall_mem_singleton.2 hf'.exit_mem.2)).1
  intro s hs
  rw [size_repeated] at hs
  exact (hf s hs).mono hmono

theorem skippable (hf : a.IsTrimSince (b, f)) (hf' : Adds a b f) :
    a.IsTrimSince (b.skippable f) := by
  have hexit : f.exit < b.size := hf'.exit_mem.2
  refine around (l := [(b.size, f.entry), (f.exit, b.size + 1), (b.size, b.size + 1)]) ?_
    (hf _ hf'.entry_mem) (by simp) (by simp) fun s hs => ⟨f, hf s hs, by simp, by simp⟩
  simp only [List.forall_mem_cons, size_addPair]
  exact ⟨by omega, Nat.lt_add_right 2 hexit, by omega, List.forall_mem_nil _⟩

theorem quantify (hab : Extends a b) (hf : a.IsTrimSince (b, f)) (hf' : Adds a b f)
    (q : Quantifier) : a.IsTrimSince (b.quantify q f) := by
  cases q with
  | plus => exact hf.repeated hf'
  | optional => exact hf.skippable hf'
  | star => exact (hf.repeated hf').skippable (hab.repeated hf').2

end IsTrimSince

end Arena

end PatternAutomata
