import PatternAutomata.Proofs.Arena.Transitions
import PatternAutomata.Proofs.Workbench.Basic
import PatternAutomata.Workbench.History

/-!
# Constructions and their histories

A history keeps the edges of a construction in the order in which they were added, and they
determine the arena: the edges of each state are those that were added from it, stably sorted by
symbol (`Arena.Holds`).

Every operation on fragments adds a list of edges, one after the other, to an arena to which at most
a pair of states has been added before. So `Holds.addEdges` is all that need be known about their
edges. What a step does to the workbench, the same step of the history records
(`exists_perform_history`), and so it is with a whole construction (`exists_performAll_history`).
-/

namespace PatternAutomata

/-- The edges that additions give a state: those added from it, in the order of their symbols and,
on the same symbol, in the order in which they were added. -/
def edgesFrom (l : List Addition) (s : StateId) : List Edge :=
  ((l.filter (·.source = s)).map (·.edge)).mergeSort Edge.precedes

theorem mem_edgesFrom {l : List Addition} {s : StateId} {e : Edge} :
    e ∈ edgesFrom l s ↔ ⟨s, e⟩ ∈ l := by
  rw [edgesFrom, List.mem_mergeSort]
  constructor
  · intro he
    obtain ⟨d, hd, rfl⟩ := List.mem_map.1 he
    obtain ⟨hd, hs⟩ := List.mem_filter.1 hd
    rwa [← of_decide_eq_true hs]
  · intro hd
    exact List.mem_map.2 ⟨_, List.mem_filter.2 ⟨hd, decide_eq_true rfl⟩, rfl⟩

/-! ### Arenas that hold a list of additions -/

namespace Arena

variable {a : Arena} {f g : Fragment} {l added : List Addition}

/-- Each state has the edges that were added from it. -/
def Holds (a : Arena) (l : List Addition) : Prop := ∀ s, a.edges s = edgesFrom l s

/-- Adds edges one after the other. -/
def addEdges (a : Arena) (added : List Addition) : Arena :=
  added.foldl (fun b d => b.addEdge d.source d.edge.symbol d.edge.target) a

theorem holds_empty : Holds {} [] := by
  intro s
  show ([] : List Edge) = [].mergeSort _
  rw [List.mergeSort_nil]

namespace Holds

theorem addPair (h : a.Holds l) : a.addPair.1.Holds l := by
  intro s
  rw [edges_addPair, h]

theorem addEdge (h : a.Holds l) (d : Addition) (hd : d.source < a.size) :
    (a.addEdge d.source d.edge.symbol d.edge.target).Holds (l ++ [d]) := by
  intro s
  rw [edges_addEdge hd, h, edgesFrom, edgesFrom, State.insertEdge_mergeSort, List.filter_append,
    List.map_append]
  by_cases hs : s = d.source
  · rw [if_pos hs, List.filter_cons_of_pos (by simp [hs])]
    rfl
  · rw [if_neg hs, List.filter_cons_of_neg (by simp [Ne.symm hs])]
    simp

/-- Edges that are added one after the other come behind those that are there. -/
theorem addEdges (h : a.Holds l) (hadded : ∀ d ∈ added, d.source < a.size) :
    (a.addEdges added).Holds (l ++ added) := by
  induction added generalizing a l with
  | nil => rwa [List.append_nil]
  | cons d added ih =>
    rw [List.forall_mem_cons] at hadded
    have hrest := ih (h.addEdge d hadded.1) fun c hc => by
      rw [size_addEdge]
      exact hadded.2 c hc
    rwa [List.append_assoc] at hrest

/-! ### The operations on fragments -/

theorem wildcard (h : a.Holds l) (characters : List Char) :
    (a.wildcard characters).1.Holds
      (l ++ characters.map fun c => ⟨a.size, .char c, a.size + 1⟩) := by
  have hpair : (a.wildcard characters).1 =
      a.addPair.1.addEdges (characters.map fun c => ⟨a.size, .char c, a.size + 1⟩) := by
    unfold Arena.addEdges
    rw [List.foldl_map]
    rfl
  rw [hpair]
  apply h.addPair.addEdges
  intro d hd
  obtain ⟨c, _, rfl⟩ := List.mem_map.1 hd
  simp

theorem concatenate (h : a.Holds l) (hf : a.Contains f) (g : Fragment) :
    (a.concatenate f g).1.Holds (l ++ [History.link f.exit g.entry]) :=
  h.addEdge (History.link f.exit g.entry) hf.exit_lt

theorem alternate (h : a.Holds l) (hf : a.Contains f) (hg : a.Contains g) :
    (a.alternate f g).1.Holds
      (l ++ [History.link a.size f.entry, History.link a.size g.entry,
        History.link f.exit (a.size + 1), History.link g.exit (a.size + 1)]) := by
  have hpair : (a.alternate f g).1 =
      a.addPair.1.addEdges [History.link a.size f.entry, History.link a.size g.entry,
        History.link f.exit (a.size + 1), History.link g.exit (a.size + 1)] := rfl
  have hnew : a.size < a.size + 2 := Nat.lt_add_of_pos_right Nat.two_pos
  rw [hpair]
  apply h.addPair.addEdges
  simp only [List.forall_mem_cons, History.link, size_addPair]
  exact ⟨hnew, hnew, Nat.lt_add_right 2 hf.exit_lt, Nat.lt_add_right 2 hg.exit_lt,
    List.forall_mem_nil _⟩

theorem repeated (h : a.Holds l) (hf : a.Contains f) :
    (a.repeated f).1.Holds (l ++ [History.link f.exit f.entry]) :=
  h.addEdge (History.link f.exit f.entry) hf.exit_lt

theorem skippable (h : a.Holds l) (hf : a.Contains f) :
    (a.skippable f).1.Holds (l ++ History.detour a.size f) := by
  have hpair : (a.skippable f).1 = a.addPair.1.addEdges (History.detour a.size f) := rfl
  have hnew : a.size < a.size + 2 := Nat.lt_add_of_pos_right Nat.two_pos
  rw [hpair]
  apply h.addPair.addEdges
  simp only [History.detour, List.forall_mem_cons, History.link, size_addPair]
  exact ⟨hnew, Nat.lt_add_right 2 hf.exit_lt, hnew, List.forall_mem_nil _⟩

end Holds

end Arena

/-! ### Histories of constructions -/

namespace Workbench

variable {w w' : Workbench} {l : List Addition} {step : Step} {product : Product}
  {steps : List Step} {products : List Product}

/-- What a history tells of the workbench, if the given edges have been added. -/
def history (w : Workbench) (l : List Addition) : History :=
  ⟨w.arena.size, w.fragments.toList, l⟩

/-- A history finds the fragments of the workbench. -/
theorem bind_getElem?_history {i : Nat} {f : Fragment} (hf : w.fragments[i]? = some f)
    (k : Fragment → Option History) : ((w.history l).fragments[i]?).bind k = k f := by
  rw [history, Array.getElem?_toList, hf, Option.bind_some]

/-- **A step that makes a fragment records what has been added for it**: so many states and these
edges, if the arena that the operation leaves behind has so many states more and holds these edges
behind the others. -/
theorem exists_history_place {r : Arena × Fragment} {n : Nat} {added : List Addition}
    (hrecord : (w.history l).perform step = some ((w.history l).record n r.2 added))
    (hsize : r.1.size = w.arena.size + n) (hholds : r.1.Holds (l ++ added)) :
    ∃ added, (w.history l).perform step = some ((w.place r).2.history (l ++ added)) ∧
      (w.place r).2.arena.Holds (l ++ added) := by
  refine ⟨added, ?_, hholds⟩
  rw [hrecord]
  unfold history History.record place
  rw [hsize, Array.toList_push]

/-- **What a step does, the same step of the history records.** -/
theorem exists_perform_history (hw : w.IsValid) (h : w.arena.Holds l)
    (hstep : w.perform step = some (product, w')) :
    ∃ added, (w.history l).perform step = some (w'.history (l ++ added)) ∧
      w'.arena.Holds (l ++ added) := by
  cases step with
  | state =>
    cases hstep
    refine ⟨[], ?_, fun s => ?_⟩
    · rw [List.append_nil]
      show some _ = some (history _ l)
      unfold history
      rw [Arena.size_addState]
    · rw [List.append_nil, Arena.edges_addState, h]
  | edge source symbol target =>
    simp only [perform] at hstep
    split_ifs at hstep with hlt
    cases hstep
    refine ⟨[⟨source, symbol, target⟩], (if_pos hlt).trans ?_,
      h.addEdge ⟨source, symbol, target⟩ hlt.1⟩
    unfold history
    rw [Arena.size_addEdge]
  | fragment entry exit =>
    simp only [perform] at hstep
    split_ifs at hstep with hlt
    cases hstep
    have hholds : w.arena.Holds (l ++ []) := by rwa [List.append_nil]
    exact exists_history_place (r := (w.arena, ⟨entry, exit⟩)) (n := 0) (if_pos hlt) rfl hholds
  | literal c =>
    cases hstep
    exact exists_history_place rfl (Arena.size_wildcard w.arena [c]) (h.wildcard [c])
  | wildcard characters =>
    cases hstep
    exact exists_history_place rfl (Arena.size_wildcard w.arena characters) (h.wildcard characters)
  | concatenate first second =>
    obtain ⟨f, hf, hstep⟩ := Option.bind_eq_some_iff.1 hstep
    obtain ⟨g, hg, hstep⟩ := Option.bind_eq_some_iff.1 hstep
    cases hstep
    refine exists_history_place (n := 0) ?_ (Arena.size_concatenate w.arena f g)
      (h.concatenate (hw.contains_of_getElem? hf) g)
    exact (bind_getElem?_history hf _).trans (bind_getElem?_history hg _)
  | alternate left right =>
    obtain ⟨f, hf, hstep⟩ := Option.bind_eq_some_iff.1 hstep
    obtain ⟨g, hg, hstep⟩ := Option.bind_eq_some_iff.1 hstep
    cases hstep
    refine exists_history_place (r := w.arena.alternate f g) ?_ (Arena.size_alternate w.arena f g)
      (h.alternate (hw.contains_of_getElem? hf) (hw.contains_of_getElem? hg))
    exact (bind_getElem?_history hf _).trans (bind_getElem?_history hg _)
  | quantify q inner =>
    obtain ⟨f, hf, hstep⟩ := Option.bind_eq_some_iff.1 hstep
    cases hstep
    have hf' := hw.contains_of_getElem? hf
    cases q with
    | plus =>
      exact exists_history_place (n := 0) (bind_getElem?_history hf _)
        (Arena.size_repeated w.arena f) (h.repeated hf')
    | optional =>
      exact exists_history_place (bind_getElem?_history hf _) (Arena.size_skippable w.arena f)
        (h.skippable hf')
    | star =>
      -- the new states are numbered after the loop has been added, which adds no state
      have hsize := Arena.size_repeated w.arena f
      have hholds := (h.repeated hf').skippable (hf'.mono hsize.ge)
      rw [hsize, List.append_assoc] at hholds
      refine exists_history_place (n := 2) ?_ ?_ hholds
      · refine (bind_getElem?_history hf _).trans ?_
        show _ = some ((w.history l).record 2 ⟨_, _⟩ _)
        rw [hsize]
        rfl
      · show ((w.arena.repeated f).1.skippable f).1.size = w.arena.size + 2
        rw [Arena.size_skippable, hsize]

/-- What a construction does, the same steps of the history record. -/
theorem exists_performAll_history (hw : w.IsValid) (h : w.arena.Holds l)
    (hsteps : w.performAll steps = some (products, w')) :
    ∃ added, (w.history l).performAll steps = some (w'.history (l ++ added)) ∧
      w'.arena.Holds (l ++ added) := by
  induction steps generalizing w l products with
  | nil =>
    cases hsteps
    exact ⟨[], by rw [List.append_nil]; rfl, by rwa [List.append_nil]⟩
  | cons step rest ih =>
    obtain ⟨⟨product, m⟩, hstep, hsteps⟩ := Option.bind_eq_some_iff.1 hsteps
    obtain ⟨⟨_, _⟩, hrest, hsteps⟩ := Option.bind_eq_some_iff.1 hsteps
    cases hsteps
    obtain ⟨first, hfirst, hm⟩ := exists_perform_history hw h hstep
    obtain ⟨later, hlater, hw'⟩ := ih (hw.perform hstep) hm hrest
    rw [List.append_assoc] at hlater hw'
    refine ⟨first ++ later, ?_, hw'⟩
    show ((w.history l).perform step).bind (·.performAll rest) = _
    rw [hfirst]
    exact hlater

/-- What a construction from nothing has added. -/
theorem exists_additions (h : ({} : Workbench).performAll steps = some (products, w)) :
    ∃ l, ({} : History).performAll steps = some (w.history l) ∧ w.arena.Holds l :=
  exists_performAll_history IsValid.empty Arena.holds_empty h

/-- The edges of each state of a construction are those of one map from symbols to targets. -/
theorem existsUnique_transitions (h : ({} : Workbench).performAll steps = some (products, w))
    (s : StateId) : ∃! t : Transitions, t.toState = ⟨w.arena.edges s⟩ := by
  obtain ⟨l, _, hholds⟩ := exists_additions h
  rw [← Transitions.isSorted_iff_existsUnique]
  show Edge.IsSorted (w.arena.edges s)
  rw [hholds s]
  exact Edge.isSorted_mergeSort _

end Workbench

end PatternAutomata
