import Mathlib.Tactic.SplitIfs
import PatternAutomata.Arena.Basic

/-!
# The order of edges

A new edge is put behind all edges of its state whose symbol is not greater. What the state has then
is the stable sort by symbol of the edges in the order in which they were added
(`State.insertEdge_mergeSort`): the empty symbol comes first and characters follow by code point,
edges on the same symbol stay in order, and none is lost or merged with another.

Nothing need be known of the sorting algorithm but what it promises. A list that is sorted by symbol
is determined by what it has on each symbol (`Edge.IsSorted.eq_of_filter_eq`), and neither an
insertion nor a stable sort changes more of that than it should (`State.filter_insertEdge`,
`Edge.filter_mergeSort`).
-/

namespace PatternAutomata

/-! ### Sorted lists of edges -/

namespace Edge

variable {d e : Edge} {l l' : List Edge}

/-- The edge may stand before the other one. -/
def precedes (d e : Edge) : Bool := decide (d.symbol ≤ e.symbol)

/-- Nowhere in the list does an edge stand before one with a smaller symbol. -/
def IsSorted (l : List Edge) : Prop := l.Pairwise fun d e => d.precedes e = true

theorem precedes_iff : d.precedes e = true ↔ d.symbol.rank ≤ e.symbol.rank := decide_eq_true_iff

theorem precedes_trans (c d e : Edge) (h : c.precedes d = true) (h' : d.precedes e = true) :
    c.precedes e = true := by
  rw [precedes_iff] at h h' ⊢
  omega

theorem precedes_total (d e : Edge) : (d.precedes e || e.precedes d) = true := by
  rw [Bool.or_eq_true, precedes_iff, precedes_iff]
  omega

/-- Lists that have the same on each symbol have the same members. -/
theorem mem_iff_of_filter_eq (h : ∀ x, l.filter (·.symbol = x) = l'.filter (·.symbol = x))
    (e : Edge) : e ∈ l ↔ e ∈ l' := by
  have hon : e ∈ l.filter (·.symbol = e.symbol) ↔ e ∈ l'.filter (·.symbol = e.symbol) := by
    rw [h]
  simpa using hon

/-- **A sorted list is determined by what it has on each symbol.** -/
theorem IsSorted.eq_of_filter_eq (hl : IsSorted l) (hl' : IsSorted l')
    (h : ∀ x, l.filter (·.symbol = x) = l'.filter (·.symbol = x)) : l = l' := by
  have hmem := mem_iff_of_filter_eq h
  induction l generalizing l' with
  | nil =>
    symm
    rw [List.eq_nil_iff_forall_not_mem]
    exact fun e he => List.not_mem_nil ((hmem e).2 he)
  | cons d l ih =>
    cases l' with
    | nil => exact absurd ((hmem d).1 List.mem_cons_self) List.not_mem_nil
    | cons e l' =>
      obtain ⟨hd, hl⟩ := List.pairwise_cons.1 hl
      obtain ⟨he, hl'⟩ := List.pairwise_cons.1 hl'
      -- both heads have the least symbol, so each is the first edge on the same one
      have hsymbol : d.symbol = e.symbol := by
        apply Symbol.rank_injective
        apply Nat.le_antisymm
        · rcases List.mem_cons.1 ((hmem e).2 List.mem_cons_self) with rfl | hmem'
          · exact Nat.le_refl _
          · exact precedes_iff.1 (hd e hmem')
        · rcases List.mem_cons.1 ((hmem d).1 List.mem_cons_self) with rfl | hmem'
          · exact Nat.le_refl _
          · exact precedes_iff.1 (he d hmem')
      have hhead := h d.symbol
      rw [List.filter_cons_of_pos (by simp), List.filter_cons_of_pos (by simp [hsymbol]),
        List.cons.injEq] at hhead
      have hrest (x : Symbol) : l.filter (·.symbol = x) = l'.filter (·.symbol = x) := by
        by_cases hx : d.symbol = x
        · rw [← hx]
          exact hhead.2
        · have hx' := h x
          rwa [List.filter_cons_of_neg (by simp [hx]),
            List.filter_cons_of_neg (by simp [← hsymbol, hx])] at hx'
      rw [hhead.1, ih hl hl' hrest (mem_iff_of_filter_eq hrest)]

theorem isSorted_mergeSort (l : List Edge) : IsSorted (l.mergeSort precedes) :=
  List.pairwise_mergeSort precedes_trans precedes_total l

/-- A stable sort keeps the order of the edges on a symbol. -/
theorem filter_mergeSort (l : List Edge) (x : Symbol) :
    (l.mergeSort precedes).filter (·.symbol = x) = l.filter (·.symbol = x) := by
  have hsame : IsSorted (l.filter (·.symbol = x)) := by
    apply List.pairwise_filter.2
    apply List.pairwise_of_forall
    intro d e hd he
    rw [decide_eq_true_eq] at hd he
    exact precedes_iff.2 (Nat.le_of_eq (by rw [hd, he]))
  have hsub := List.sublist_mergeSort precedes_trans precedes_total hsame List.filter_sublist
  have hon := hsub.filter (·.symbol = x)
  rw [List.filter_filter] at hon
  simp only [Bool.and_self] at hon
  symm
  apply hon.eq_of_length
  exact ((List.mergeSort_perm l precedes).filter _).length_eq.symm

end Edge

/-! ### Insertion -/

namespace State

variable {s : State}

/-- An insertion keeps the edges sorted. -/
theorem isSorted_insertEdge (h : Edge.IsSorted s.edges) (e : Edge) :
    Edge.IsSorted (s.insertEdge e).edges := by
  obtain ⟨l⟩ := s
  show Edge.IsSorted (insertEdge.go e l)
  induction l with
  | nil => exact List.pairwise_singleton _ e
  | cons d l ih =>
    obtain ⟨hd, hl⟩ := List.pairwise_cons.1 h
    rw [insertEdge.go]
    split_ifs with hde
    · apply List.pairwise_cons.2
      refine ⟨fun c hc => ?_, ih hl⟩
      rcases (mem_insertEdge (s := ⟨l⟩)).1 hc with rfl | hc
      · exact decide_eq_true hde
      · exact hd c hc
    · have hed : e.precedes d = true := Edge.precedes_iff.2 (Nat.le_of_not_le hde)
      apply List.pairwise_cons.2
      refine ⟨fun c hc => ?_, h⟩
      rcases List.mem_cons.1 hc with rfl | hc
      · exact hed
      · exact Edge.precedes_trans e d c hed (hd c hc)

/-- A new edge comes last among those on its symbol, and is of no concern to others. -/
theorem filter_insertEdge (h : Edge.IsSorted s.edges) (e : Edge) (x : Symbol) :
    (s.insertEdge e).edges.filter (·.symbol = x) = (s.edges ++ [e]).filter (·.symbol = x) := by
  obtain ⟨l⟩ := s
  show (insertEdge.go e l).filter _ = (l ++ [e]).filter _
  induction l with
  | nil => rfl
  | cons d l ih =>
    obtain ⟨hd, hl⟩ := List.pairwise_cons.1 h
    rw [insertEdge.go]
    split_ifs with hde
    · rw [List.filter_cons, ih hl, List.cons_append, List.filter_cons]
    · by_cases hx : e.symbol = x
      · -- all that follows has a greater symbol
        have hnone : (d :: l).filter (·.symbol = x) = [] := by
          rw [List.filter_eq_nil_iff]
          intro c hc
          rw [decide_eq_true_eq]
          intro hcx
          apply hde
          show d.symbol.rank ≤ e.symbol.rank
          rw [hx, ← hcx]
          rcases List.mem_cons.1 hc with rfl | hc
          · exact Nat.le_refl _
          · exact Edge.precedes_iff.1 (hd c hc)
        rw [List.filter_append, List.filter_cons_of_pos (by simp [hx]), hnone,
          List.filter_cons_of_pos (by simp [hx])]
        rfl
      · have hnone : [e].filter (·.symbol = x) = [] := by simp [hx]
        rw [List.filter_append, hnone, List.append_nil, List.filter_cons_of_neg (by simp [hx])]

/-- **Insertion is stable sorting**: of the edges added before, and the new one last. -/
theorem insertEdge_mergeSort (l : List Edge) (e : Edge) :
    ((⟨l.mergeSort Edge.precedes⟩ : State).insertEdge e).edges =
      (l ++ [e]).mergeSort Edge.precedes := by
  have hsorted := Edge.isSorted_mergeSort l
  apply (isSorted_insertEdge hsorted e).eq_of_filter_eq (Edge.isSorted_mergeSort _)
  intro x
  rw [filter_insertEdge hsorted, List.filter_append, Edge.filter_mergeSort, Edge.filter_mergeSort,
    List.filter_append]

end State

/-! ### Edges of an arena -/

namespace Arena

variable {a b : Arena} {source target s : StateId} {symbol : Symbol}

/-- An edge is inserted at its source, and the other states keep theirs. -/
theorem edges_addEdge (h : source < a.size) :
    (a.addEdge source symbol target).edges s =
      if s = source then ((⟨a.edges s⟩ : State).insertEdge ⟨symbol, target⟩).edges
      else a.edges s := by
  have hstate : a.states[source]? = some a.states[source] := Array.getElem?_eq_getElem h
  unfold edges addEdge
  rw [Array.getElem?_modify]
  by_cases hs : s = source
  · rw [if_pos hs.symm, if_pos hs, hs, hstate]
    rfl
  · rw [if_neg (Ne.symm hs), if_neg hs]

/-- An arena is determined by its size and by the edges of its states. -/
theorem eq_of_edges_eq (hsize : a.size = b.size) (h : ∀ s, a.edges s = b.edges s) : a = b := by
  obtain ⟨states⟩ := a
  obtain ⟨states'⟩ := b
  congr 1
  apply Array.ext hsize
  intro i hi hi'
  have hedges := h i
  simp only [edges, Array.getElem?_eq_getElem hi, Array.getElem?_eq_getElem hi',
    Option.getD_some] at hedges
  exact congrArg State.mk hedges

end Arena

end PatternAutomata
