import Mathlib.Logic.Relation
import PatternAutomata.Automaton.Dump
import PatternAutomata.Proofs.Workbench.History

/-!
# What the order of additions matters for

The text of an automaton shows, in the line of a state, exactly the edges that were added from it,
stably sorted by symbol (`Workbench.dump_of_performAll`). So the arena depends on the order in which
edges were added only as far as they share their state and their symbol: to exchange two neighbours
that do not (`Exchange`) is of no consequence. Nor is anything else lost. Two lists of additions
give every state the same edges only if one can be got from the other by such exchanges
(`edgesFrom_eq_iff`), as both amount to the same order among the additions of each key
(`reorders_iff`).
-/

namespace PatternAutomata

/-- Where an edge is entered: at its state, among those on its symbol. -/
def Addition.key (d : Addition) : StateId × Symbol := (d.source, d.edge.symbol)

/-- Two neighbours change places that do not share both their state and their symbol. -/
inductive Exchange : List Addition → List Addition → Prop where
  | intro (before after : List Addition) {c d : Addition} (hkey : c.key ≠ d.key) :
      Exchange (before ++ c :: d :: after) (before ++ d :: c :: after)

/-- The second list is the first after any number of exchanges. -/
def Reorders : List Addition → List Addition → Prop := Relation.ReflTransGen Exchange

variable {l l' : List Addition} {c d : Addition}

/-! ### Reorderings -/

theorem Exchange.cons (h : Exchange l l') (d : Addition) : Exchange (d :: l) (d :: l') := by
  cases h with
  | intro before after hkey => exact .intro (d :: before) after hkey

theorem Reorders.cons (h : Reorders l l') (d : Addition) : Reorders (d :: l) (d :: l') :=
  h.lift (d :: ·) fun _ _ hstep => hstep.cons d

/-- An addition may go back behind others that have other keys. -/
theorem reorders_back {before : List Addition} (h : ∀ c ∈ before, c.key ≠ d.key)
    (after : List Addition) : Reorders (d :: (before ++ after)) (before ++ d :: after) := by
  induction before with
  | nil => exact .refl
  | cons c before ih =>
    rw [List.forall_mem_cons] at h
    exact .head (.intro [] (before ++ after) h.1.symm) ((ih h.2).cons c)

/-- An exchange keeps the order among the additions of each key. -/
theorem Exchange.filter_eq (h : Exchange l l') (k : StateId × Symbol) :
    l.filter (·.key = k) = l'.filter (·.key = k) := by
  cases h with
  | @intro before after c d hkey =>
    rw [List.filter_append, List.filter_append]
    congr 1
    -- one of the two has another key
    by_cases hc : c.key = k
    · have hd : d.key ≠ k := fun hd => hkey (hc.trans hd.symm)
      simp [List.filter_cons, hd]
    · simp [List.filter_cons, hc]

/-- **Reorderings are the lists with the same order among the additions of each key.** -/
theorem reorders_iff :
    Reorders l l' ↔ ∀ k, l.filter (·.key = k) = l'.filter (·.key = k) := by
  constructor
  · intro h k
    induction h with
    | refl => rfl
    | tail _ hstep ih => exact ih.trans (hstep.filter_eq k)
  · intro h
    induction l generalizing l' with
    | nil =>
      have hnil : l' = [] := by
        rw [List.eq_nil_iff_forall_not_mem]
        intro d hd
        have hon : d ∈ l'.filter (·.key = d.key) := by simp [hd]
        rw [← h d.key] at hon
        exact List.not_mem_nil hon
      rw [hnil]
      exact .refl
    | cons d l ih =>
      -- `d` is the first addition of its key in `l'` too, behind others of other keys
      have hfirst := h d.key
      rw [List.filter_cons_of_pos (by simp)] at hfirst
      obtain ⟨before, after, rfl, hbefore, _, hafter⟩ := List.filter_eq_cons_iff.1 hfirst.symm
      simp only [decide_eq_true_eq] at hbefore
      have hrest (k : StateId × Symbol) :
          l.filter (·.key = k) = (before ++ after).filter (·.key = k) := by
        rw [List.filter_append]
        by_cases hk : d.key = k
        · have hnone : before.filter (·.key = k) = [] := by
            rw [List.filter_eq_nil_iff]
            simpa [← hk] using hbefore
          rw [hnone, List.nil_append, ← hk, hafter]
        · have hsame := h k
          rwa [List.filter_append, List.filter_cons_of_neg (by simp [hk]),
            List.filter_cons_of_neg (by simp [hk])] at hsame
      exact ((ih hrest).cons d).trans (reorders_back hbefore after)

/-! ### Edges and the additions of a key -/

theorem isSorted_edgesFrom (l : List Addition) (s : StateId) : Edge.IsSorted (edgesFrom l s) :=
  Edge.isSorted_mergeSort _

/-- On a symbol, a state has the edges of one key, in the order in which they were added. -/
theorem filter_edgesFrom (l : List Addition) (s : StateId) (x : Symbol) :
    (edgesFrom l s).filter (·.symbol = x) = (l.filter (·.key = (s, x))).map (·.edge) := by
  rw [edgesFrom, Edge.filter_mergeSort, List.filter_map, List.filter_filter]
  congr 2
  ext d
  simp [Addition.key, Bool.and_comm]

/-- The additions of a key can be told from their edges. -/
theorem filter_key_eq (l : List Addition) (s : StateId) (x : Symbol) :
    l.filter (·.key = (s, x)) = ((edgesFrom l s).filter (·.symbol = x)).map (⟨s, ·⟩) := by
  have hsource : ∀ d ∈ l.filter (·.key = (s, x)), (⟨s, d.edge⟩ : Addition) = d := by
    intro d hd
    obtain ⟨hs, _⟩ : d.source = s ∧ d.edge.symbol = x := by
      simpa [Addition.key] using (List.mem_filter.1 hd).2
    rw [← hs]
  rw [filter_edgesFrom, List.map_map]
  symm
  exact (List.map_congr_left hsource).trans (List.map_id _)

/-- **The edges of all states tell the additions up to reordering**, and nothing more. -/
theorem edgesFrom_eq_iff : (∀ s, edgesFrom l s = edgesFrom l' s) ↔ Reorders l l' := by
  rw [reorders_iff]
  constructor
  · rintro h ⟨s, x⟩
    rw [filter_key_eq, filter_key_eq, h]
  · intro h s
    apply (isSorted_edgesFrom l s).eq_of_filter_eq (isSorted_edgesFrom l' s)
    intro x
    rw [filter_edgesFrom, filter_edgesFrom, h]

/-! ### Arenas and their texts -/

namespace Arena

variable {a b : Arena}

theorem Holds.targets_eq (h : a.Holds l) (s : StateId) (x : Symbol) :
    a.targets s x = (l.filter (·.key = (s, x))).map (·.edge.target) := by
  show ((a.edges s).filter (·.symbol = x)).map (·.target) = _
  rw [h, filter_edgesFrom, List.map_map]
  rfl

/-- **Arenas are equal if they have as many states and their additions are reorderings** of each
other, and only then. -/
theorem Holds.eq_iff (h : a.Holds l) (h' : b.Holds l') :
    b = a ↔ b.size = a.size ∧ Reorders l l' := by
  rw [← edgesFrom_eq_iff]
  constructor
  · rintro rfl
    exact ⟨rfl, fun s => (h s).symm.trans (h' s)⟩
  · rintro ⟨hsize, hedges⟩
    apply eq_of_edges_eq hsize
    intro s
    rw [h, h', hedges]

end Arena

/-- The text has a line for each state, with the edges of the state. -/
theorem Automaton.dump_eq_range (m : Automaton) :
    m.dump = String.join ((List.range m.arena.size).map fun s =>
      m.dumpLine s ⟨m.arena.edges s⟩) := by
  unfold dump
  congr 1
  apply List.ext_getElem
  · simp [Arena.size]
  · intro s hs hs'
    have hlt : s < m.arena.states.size := by simpa using hs
    simp [Arena.edges, hlt]

namespace Workbench

variable {w : Workbench} {steps : List Step} {products : List Product}

/-- **No edge is lost, invented or reordered.** The history of a construction knows its states and
fragments, and the text of a finished fragment has a line for each state, with exactly the edges
that were added from it, stably sorted by symbol; on each symbol they lead where the additions did,
in the same order. Another construction ends in the same arena, and so in the same automata with the
same texts, if and only if it makes as many states and its additions are a reordering of these. -/
theorem dump_of_performAll (h : ({} : Workbench).performAll steps = some (products, w)) :
    ∃ l, ({} : History).performAll steps = some ⟨w.arena.size, w.fragments.toList, l⟩ ∧
      (∀ f, (w.arena.finish f).dump =
        String.join ((List.range w.arena.size).map fun s =>
          (w.arena.finish f).dumpLine s
            ⟨((l.filter (·.source = s)).map (·.edge)).mergeSort Edge.precedes⟩)) ∧
      (∀ s symbol, w.arena.targets s symbol =
        (l.filter (·.key = (s, symbol))).map (·.edge.target)) ∧
      ∀ steps' products' w' l', ({} : Workbench).performAll steps' = some (products', w') →
        ({} : History).performAll steps' = some ⟨w'.arena.size, w'.fragments.toList, l'⟩ →
        (w'.arena.size = w.arena.size ∧ Reorders l l' ↔
          ∀ f, w'.arena.finish f = w.arena.finish f ∧
            (w'.arena.finish f).dump = (w.arena.finish f).dump) := by
  obtain ⟨l, hl, hholds⟩ := exists_additions h
  refine ⟨l, hl, fun f => ?_, hholds.targets_eq, ?_⟩
  · rw [Automaton.dump_eq_range]
    congr 2
    ext1 s
    rw [show (w.arena.finish f).arena.edges s = edgesFrom l s from hholds s]
    rfl
  · intro steps' products' w' l' h' hl'
    obtain ⟨l'', hl'', hholds'⟩ := exists_additions h'
    obtain rfl : l'' = l' := by
      rw [hl'', Option.some.injEq] at hl'
      exact congrArg History.additions hl'
    rw [← hholds.eq_iff hholds']
    constructor
    · intro harena f
      rw [harena]
      exact ⟨rfl, rfl⟩
    · intro hall
      exact congrArg Automaton.arena (hall ⟨0, 0⟩).1

/-- A doubled edge, edges on the character `ε` and on the empty symbol, and a loop, added by single
steps and by operations. The other construction adds the edges on `ε` and on the empty symbol in the
other order. -/
theorem dump_of_performAll_doubled :
    ∃ products w products' w',
      ({} : Workbench).performAll [.literal 'b', .edge 0 (.char 'ε') 1, .edge 0 .empty 1,
        .edge 0 (.char 'b') 0, .quantify .plus 0] = some (products, w) ∧
      ({} : Workbench).performAll [.literal 'b', .edge 0 .empty 1, .edge 0 (.char 'ε') 1,
        .edge 0 (.char 'b') 0, .quantify .plus 0] = some (products', w') ∧
      (w.arena.finish ⟨0, 1⟩).dump = "0 start: ε->1 b->1 b->0 ε->1\n1 final: ε->0\n" ∧
      (w'.arena.finish ⟨0, 1⟩).dump = (w.arena.finish ⟨0, 1⟩).dump := by
  have hrun : ({} : Workbench).performAll [.literal 'b', .edge 0 (.char 'ε') 1, .edge 0 .empty 1,
      .edge 0 (.char 'b') 0, .quantify .plus 0] = some (_, _) := rfl
  obtain ⟨l, hl, _, _, hreorders⟩ := dump_of_performAll hrun
  obtain rfl := congrArg History.additions (Option.some.inj hl)
  have hswap := Exchange.intro [⟨0, .char 'b', 1⟩]
    [⟨0, .char 'b', 0⟩, ⟨1, .empty, 0⟩] (c := ⟨0, .char 'ε', 1⟩) (d := ⟨0, .empty, 1⟩) (by decide)
  have hsame := (hreorders [.literal 'b', .edge 0 .empty 1, .edge 0 (.char 'ε') 1,
    .edge 0 (.char 'b') 0, .quantify .plus 0] _ _ _ rfl rfl).1 ⟨rfl, .single hswap⟩
  exact ⟨_, _, _, _, hrun, rfl, rfl, (hsame ⟨0, 1⟩).2⟩

end Workbench

end PatternAutomata
