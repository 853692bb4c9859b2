import Mathlib.Data.List.Induction
import Mathlib.Logic.ExistsUnique
import PatternAutomata.Proofs.Arena.Order

/-!
# Edges by symbol

The edges of a state can be kept in a map from symbols to targets (`Transitions`): a new target is
put behind those of its symbol, and a symbol is entered with its first target. If the entries are
read one after the other, all targets of an entry before the next entry, the edges come in the order
in which a state keeps them.

Map and list are thus the same thing. To add to the map is to insert into the list
(`Transitions.toState_add`), and what is found in one is found in the other
(`Transitions.targets_toState`). The sorted lists are those of maps, each of one map and no other
(`Transitions.isSorted_iff_existsUnique`): maps with the same list are equal because no entry is
without a target.
-/

namespace PatternAutomata

/-- A symbol with the targets of the edges on it, of which there is at least one. -/
@[ext] structure SymbolEntry where
  symbol : Symbol
  targets : List StateId
  ne_nil : targets ≠ []

/-- A map from symbols to targets: entries with increasing symbols. -/
@[ext] structure Transitions where
  entries : List SymbolEntry := []
  increasing : entries.Pairwise fun x y => x.symbol.rank < y.symbol.rank

variable {symbol : Symbol} {target : StateId} {x : SymbolEntry} {l l' : List SymbolEntry}

/-! ### Entries -/

namespace SymbolEntry

/-- An entry with one target. -/
def single (symbol : Symbol) (target : StateId) : SymbolEntry :=
  ⟨symbol, [target], List.cons_ne_nil _ _⟩

/-- Puts a target behind the others. -/
def push (x : SymbolEntry) (target : StateId) : SymbolEntry :=
  ⟨x.symbol, x.targets ++ [target], List.append_ne_nil_of_right_ne_nil _ (List.cons_ne_nil _ _)⟩

/-- The edges of an entry. -/
def edges (x : SymbolEntry) : List Edge := x.targets.map (Edge.mk x.symbol)

theorem symbol_of_mem_edges {e : Edge} (he : e ∈ x.edges) : e.symbol = x.symbol := by
  obtain ⟨target, _, rfl⟩ := List.mem_map.1 he
  rfl

theorem edges_ne_nil (x : SymbolEntry) : x.edges ≠ [] :=
  fun h => x.ne_nil (List.map_eq_nil_iff.1 h)

/-- The first edge of an entry tells its symbol. -/
theorem symbol_eq_of_append_eq {y : SymbolEntry} {r r' : List Edge}
    (h : x.edges ++ r = y.edges ++ r') : x.symbol = y.symbol := by
  obtain ⟨d, ds, hd⟩ := List.exists_cons_of_ne_nil x.edges_ne_nil
  obtain ⟨e, es, he⟩ := List.exists_cons_of_ne_nil y.edges_ne_nil
  have hx : d.symbol = x.symbol := symbol_of_mem_edges (hd ▸ List.mem_cons_self)
  have hy : e.symbol = y.symbol := symbol_of_mem_edges (he ▸ List.mem_cons_self)
  rw [hd, he] at h
  rw [← hx, ← hy, (List.cons.inj h).1]

theorem edges_push (x : SymbolEntry) (target : StateId) :
    (x.push target).edges = x.edges ++ [⟨x.symbol, target⟩] :=
  List.map_append

/-- The targets can be read off the edges. -/
theorem map_target_edges (x : SymbolEntry) : x.edges.map (·.target) = x.targets := by
  rw [edges, List.map_map]
  exact List.map_id' _

theorem filter_edges_self (x : SymbolEntry) : x.edges.filter (·.symbol = x.symbol) = x.edges :=
  List.filter_eq_self.2 fun _ he => decide_eq_true (symbol_of_mem_edges he)

theorem filter_edges_of_ne (h : x.symbol ≠ symbol) : x.edges.filter (·.symbol = symbol) = [] := by
  refine List.filter_eq_nil_iff.2 fun e he hsymbol => h ?_
  rw [← symbol_of_mem_edges he]
  exact of_decide_eq_true hsymbol

/-- If all entries have a greater symbol, so have all their edges. -/
theorem lt_of_mem_flatMap {n : Nat} (h : ∀ x ∈ l, n < x.symbol.rank) :
    ∀ e ∈ l.flatMap edges, n < e.symbol.rank := by
  intro e he
  obtain ⟨x, hx, hex⟩ := List.mem_flatMap.1 he
  rw [symbol_of_mem_edges hex]
  exact h x hx

/-- Entries with greater symbols have no edge on this one. -/
theorem filter_flatMap_of_lt (h : ∀ x ∈ l, symbol.rank < x.symbol.rank) :
    (l.flatMap edges).filter (·.symbol = symbol) = [] := by
  refine List.filter_eq_nil_iff.2 fun e he hsymbol => ?_
  have hlt := lt_of_mem_flatMap h e he
  rw [of_decide_eq_true hsymbol] at hlt
  exact absurd hlt (Nat.lt_irrefl _)

end SymbolEntry

/-! ### Additions -/

/-- Of different symbols one is greater. -/
theorem Symbol.lt_of_not_lt {a b : Symbol} (hlt : ¬ a.rank < b.rank) (hne : a ≠ b) :
    b.rank < a.rank :=
  Nat.lt_of_le_of_ne (Nat.not_lt.1 hlt) fun hrank => hne (rank_injective hrank.symm)

namespace Transitions

/-- Puts a target behind those of its symbol, which is entered in its place if it is not there. -/
def add.go (symbol : Symbol) (target : StateId) : List SymbolEntry → List SymbolEntry
  | [] => [.single symbol target]
  | x :: rest =>
    if x.symbol.rank < symbol.rank then x :: go symbol target rest
    else if x.symbol = symbol then x.push target :: rest
    else .single symbol target :: x :: rest

/-- No entry has a symbol that is neither the new nor an old one. -/
theorem lt_of_mem_add_go {n : Nat} (hsymbol : n < symbol.rank) (hl : ∀ x ∈ l, n < x.symbol.rank) :
    ∀ x ∈ add.go symbol target l, n < x.symbol.rank := by
  induction l with
  | nil => exact List.forall_mem_singleton.2 hsymbol
  | cons y l ih =>
    obtain ⟨hy, hrest⟩ := List.forall_mem_cons.1 hl
    rw [add.go]
    split_ifs
    · exact List.forall_mem_cons.2 ⟨hy, ih hrest⟩
    · exact List.forall_mem_cons.2 ⟨hy, hrest⟩
    · exact List.forall_mem_cons.2 ⟨hsymbol, hl⟩

theorem increasing_add_go (h : l.Pairwise fun x y => x.symbol.rank < y.symbol.rank) :
    (add.go symbol target l).Pairwise fun x y => x.symbol.rank < y.symbol.rank := by
  induction l with
  | nil => exact List.pairwise_singleton _ _
  | cons y l ih =>
    obtain ⟨hy, hl⟩ := List.pairwise_cons.1 h
    rw [add.go]
    split_ifs with hlt heq
    · exact List.pairwise_cons.2 ⟨lt_of_mem_add_go hlt hy, ih hl⟩
    · exact List.pairwise_cons.2 ⟨hy, hl⟩
    · have hnew := Symbol.lt_of_not_lt hlt heq
      refine List.pairwise_cons.2 ⟨List.forall_mem_cons.2 ⟨hnew, fun z hz => ?_⟩, h⟩
      exact Nat.lt_trans hnew (hy z hz)

/-- Adds an edge to the map. -/
def add (t : Transitions) (symbol : Symbol) (target : StateId) : Transitions :=
  ⟨add.go symbol target t.entries, increasing_add_go t.increasing⟩

/-- Where the edges on a symbol lead: nowhere if the symbol is not there. -/
def targets (t : Transitions) (symbol : Symbol) : List StateId :=
  ((t.entries.find? (·.symbol = symbol)).map (·.targets)).getD []

/-- The state with the edges of the map, entry by entry. -/
def toState (t : Transitions) : State := ⟨t.entries.flatMap SymbolEntry.edges⟩

end Transitions

/-! ### Map and list -/

/-- An edge is inserted behind those of smaller symbols or of its own. -/
theorem State.insertEdge_go_append {e : Edge} {l r : List Edge} (h : ∀ d ∈ l, d.symbol ≤ e.symbol) :
    insertEdge.go e (l ++ r) = l ++ insertEdge.go e r := by
  induction l with
  | nil => rfl
  | cons d l ih =>
    rw [List.forall_mem_cons] at h
    rw [List.cons_append, insertEdge.go, if_pos h.1, ih h.2, List.cons_append]

/-- An edge is inserted before those of greater symbols. -/
theorem State.insertEdge_go_of_lt {e : Edge} {r : List Edge}
    (h : ∀ d ∈ r, e.symbol.rank < d.symbol.rank) : insertEdge.go e r = e :: r := by
  cases r with
  | nil => rfl
  | cons d r =>
    have hlt : ¬ d.symbol ≤ e.symbol := Nat.not_le_of_lt (h d List.mem_cons_self)
    rw [insertEdge.go, if_neg hlt]

namespace Transitions

/-- **To add to the map is to insert into the list.** -/
theorem toState_add (t : Transitions) (symbol : Symbol) (target : StateId) :
    (t.add symbol target).toState = t.toState.insertEdge ⟨symbol, target⟩ := by
  obtain ⟨l, hl⟩ := t
  refine congrArg State.mk (?_ : (add.go symbol target l).flatMap SymbolEntry.edges =
    State.insertEdge.go ⟨symbol, target⟩ (l.flatMap SymbolEntry.edges))
  induction l with
  | nil => rfl
  | cons x l ih =>
    obtain ⟨hx, hl⟩ := List.pairwise_cons.1 hl
    have hbefore (h : x.symbol.rank ≤ symbol.rank) : ∀ d ∈ x.edges, d.symbol ≤ symbol := by
      intro d hd
      rw [SymbolEntry.symbol_of_mem_edges hd]
      exact h
    rw [add.go]
    split_ifs with hlt heq
    · rw [List.flatMap_cons, List.flatMap_cons, ih hl,
        State.insertEdge_go_append (hbefore (Nat.le_of_lt hlt))]
    · subst heq
      rw [List.flatMap_cons, List.flatMap_cons,
        State.insertEdge_go_append (hbefore (Nat.le_refl _)),
        State.insertEdge_go_of_lt (SymbolEntry.lt_of_mem_flatMap hx), SymbolEntry.edges_push,
        List.append_assoc]
      rfl
    · have hnew := Symbol.lt_of_not_lt hlt heq
      have hall : ∀ y ∈ x :: l, symbol.rank < y.symbol.rank :=
        List.forall_mem_cons.2 ⟨hnew, fun y hy => Nat.lt_trans hnew (hx y hy)⟩
      rw [State.insertEdge_go_of_lt (SymbolEntry.lt_of_mem_flatMap hall)]
      rfl

/-- **What is found in the map is found in the list.** -/
theorem targets_toState (t : Transitions) (symbol : Symbol) :
    t.toState.targets symbol = t.targets symbol := by
  obtain ⟨l, hl⟩ := t
  show ((l.flatMap SymbolEntry.edges).filter (·.symbol = symbol)).map (·.target) =
    ((l.find? (·.symbol = symbol)).map (·.targets)).getD []
  induction l with
  | nil => rfl
  | cons x l ih =>
    obtain ⟨hx, hl⟩ := List.pairwise_cons.1 hl
    rw [List.flatMap_cons, List.filter_append]
    by_cases h : x.symbol = symbol
    · subst h
      rw [x.filter_edges_self, SymbolEntry.filter_flatMap_of_lt hx, List.append_nil,
        x.map_target_edges, List.find?_cons_of_pos (by simp)]
      rfl
    · rw [SymbolEntry.filter_edges_of_ne h, List.nil_append, ih hl,
        List.find?_cons_of_neg (by simpa using h)]

/-- The edges of the map are sorted. -/
theorem isSorted_toState (t : Transitions) : Edge.IsSorted t.toState.edges := by
  obtain ⟨l, hl⟩ := t
  show Edge.IsSorted (l.flatMap SymbolEntry.edges)
  induction l with
  | nil => exact List.Pairwise.nil
  | cons x l ih =>
    obtain ⟨hx, hl⟩ := List.pairwise_cons.1 hl
    rw [List.flatMap_cons]
    refine List.pairwise_append.2 ⟨?_, ih hl, fun d hd e he => ?_⟩
    · refine List.pairwise_of_forall_mem_list fun d hd e he => Edge.precedes_iff.2 (Nat.le_of_eq ?_)
      rw [SymbolEntry.symbol_of_mem_edges hd, SymbolEntry.symbol_of_mem_edges he]
    · rw [Edge.precedes_iff, SymbolEntry.symbol_of_mem_edges hd]
      exact Nat.le_of_lt (SymbolEntry.lt_of_mem_flatMap hx e he)

/-- Maps with the same list are equal: the first edges tell the first symbol, the edges on it the
first entry, and so on. -/
theorem eq_of_flatMap_edges_eq (hl : l.Pairwise fun x y => x.symbol.rank < y.symbol.rank)
    (hl' : l'.Pairwise fun x y => x.symbol.rank < y.symbol.rank)
    (h : l.flatMap SymbolEntry.edges = l'.flatMap SymbolEntry.edges) : l = l' := by
  induction l generalizing l' with
  | nil =>
    cases l' with
    | nil => rfl
    | cons y l' => exact absurd (List.append_eq_nil_iff.1 h.symm).1 y.edges_ne_nil
  | cons x l ih =>
    cases l' with
    | nil => exact absurd (List.append_eq_nil_iff.1 h).1 x.edges_ne_nil
    | cons y l' =>
      obtain ⟨hx, hl⟩ := List.pairwise_cons.1 hl
      obtain ⟨hy, hl'⟩ := List.pairwise_cons.1 hl'
      rw [List.flatMap_cons, List.flatMap_cons] at h
      have hsymbol := SymbolEntry.symbol_eq_of_append_eq h
      have hedges : x.edges = y.edges := by
        have hon := congrArg (List.filter (·.symbol = x.symbol)) h
        rwa [List.filter_append, List.filter_append, SymbolEntry.filter_flatMap_of_lt hx,
          x.filter_edges_self, hsymbol, SymbolEntry.filter_flatMap_of_lt hy, y.filter_edges_self,
          List.append_nil, List.append_nil] at hon
      have hentry : x = y := by
        refine SymbolEntry.ext hsymbol ?_
        rw [← x.map_target_edges, hedges, y.map_target_edges]
      rw [hedges] at h
      rw [hentry, ih hl hl' (List.append_cancel_left h)]

/-- The map to which the edges have been added one after the other. -/
def ofList (l : List Edge) : Transitions :=
  l.foldl (fun t e => t.add e.symbol e.target) ⟨[], List.Pairwise.nil⟩

/-- **To collect edges in a map is to sort them.** -/
theorem toState_ofList (l : List Edge) : (ofList l).toState = ⟨l.mergeSort Edge.precedes⟩ := by
  induction l using List.reverseRecOn with
  | nil =>
    rw [List.mergeSort_nil]
    rfl
  | append_singleton l e ih =>
    rw [ofList, List.foldl_append, ← ofList, List.foldl_cons, List.foldl_nil, toState_add, ih]
    exact congrArg State.mk (State.insertEdge_mergeSort l e)

/-- **A list is sorted iff it is that of a map**, and there is one such map only. -/
theorem isSorted_iff_existsUnique {s : State} :
    Edge.IsSorted s.edges ↔ ∃! t : Transitions, t.toState = s := by
  constructor
  · intro h
    have hsame : (ofList s.edges).toState = s := by
      rw [toState_ofList, List.mergeSort_of_pairwise h]
    refine ⟨ofList s.edges, hsame, fun t ht => Transitions.ext ?_⟩
    apply eq_of_flatMap_edges_eq t.increasing (ofList s.edges).increasing
    exact congrArg State.edges (ht.trans hsame.symm)
  · rintro ⟨t, rfl, _⟩
    exact t.isSorted_toState

end Transitions

end PatternAutomata
