/-!
# Arenas

An arena is a growing graph: states are numbered in the order in which they are added, and edges
are only ever added. An edge carries a character, or nothing (`Symbol.empty`), in which case it is
followed without reading.

The edges of a state are kept sorted by symbol, the empty one first and then the characters by code
point; edges on the same symbol keep the order in which they were added. A new edge is therefore
inserted behind all edges whose symbol is not greater (`State.insertEdge`).
-/

namespace PatternAutomata

/-- States are named by their number. -/
abbrev StateId := Nat

/-- What an edge reads: nothing, or one character. -/
inductive Symbol where
  | empty
  | char (c : Char)
deriving DecidableEq, Repr

/-- Position in the order of symbols: the empty symbol, then the characters by code point. -/
def Symbol.rank : Symbol → Nat
  | empty => 0
  | char c => c.toNat + 1

/-- Symbols are ordered by their rank. -/
instance : LE Symbol := ⟨fun a b => a.rank ≤ b.rank⟩

instance (a b : Symbol) : Decidable (a ≤ b) := inferInstanceAs (Decidable (a.rank ≤ b.rank))

theorem Symbol.rank_injective {a b : Symbol} (h : a.rank = b.rank) : a = b := by
  cases a <;> cases b <;> simp_all [rank, Char.toNat_inj]

/-- An edge, as seen from the state it leaves. -/
structure Edge where
  symbol : Symbol
  target : StateId
deriving DecidableEq, Repr

/-- A state: the edges that leave it, sorted by symbol. -/
structure State where
  edges : List Edge := []
deriving DecidableEq, Repr, Inhabited

namespace State

/-- Inserts `e` behind every edge whose symbol is not greater. -/
def insertEdge.go (e : Edge) : List Edge → List Edge
  | [] => [e]
  | d :: rest => if d.symbol ≤ e.symbol then d :: go e rest else e :: d :: rest

/-- Adds an edge to a state, behind those on the same symbol. -/
def insertEdge (s : State) (e : Edge) : State := ⟨insertEdge.go e s.edges⟩

/-- Where the edges on a symbol lead, in the order in which they were added. -/
def targets (s : State) (symbol : Symbol) : List StateId :=
  (s.edges.filter (·.symbol = symbol)).map (·.target)

theorem mem_insertEdge {s : State} {d e : Edge} :
    d ∈ (s.insertEdge e).edges ↔ d = e ∨ d ∈ s.edges := by
  simp only [insertEdge]
  induction s.edges with
  | nil => simp [insertEdge.go]
  | cons a l ih =>
    rw [insertEdge.go]
    split
    · -- `e` goes somewhere behind `a`
      rw [List.mem_cons, ih, List.mem_cons, or_left_comm]
    · rw [List.mem_cons]

theorem mem_targets {s : State} {symbol : Symbol} {t : StateId} :
    t ∈ s.targets symbol ↔ ⟨symbol, t⟩ ∈ s.edges := by
  simp only [targets, List.mem_map, List.mem_filter, decide_eq_true_eq]
  constructor
  · rintro ⟨⟨_, _⟩, ⟨h, rfl⟩, rfl⟩; exact h
  · exact fun h => ⟨_, ⟨h, rfl⟩, rfl⟩

end State

/-- A graph under construction. The state with number `i` is `states[i]`. -/
structure Arena where
  states : Array State := #[]
deriving DecidableEq, Repr, Inhabited

namespace Arena

/-- The number of states, which is also the number that the next new state gets. -/
def size (a : Arena) : Nat := a.states.size

/-- The edges that leave a state; none if there is no such state. -/
def edges (a : Arena) (source : StateId) : List Edge := (a.states[source]?.getD {}).edges

/-- Where the edges of a state on a symbol lead. -/
def targets (a : Arena) (source : StateId) (symbol : Symbol) : List StateId :=
  (a.states[source]?.getD {}).targets symbol

/-- Adds a state without edges. -/
def addState (a : Arena) : Arena := ⟨a.states.push {}⟩

/-- Adds an edge between two states. Nothing happens if the source does not exist. -/
def addEdge (a : Arena) (source : StateId) (symbol : Symbol) (target : StateId) : Arena :=
  ⟨a.states.modify source (·.insertEdge ⟨symbol, target⟩)⟩

/-- Adds an edge that is followed without reading. -/
def addEmpty (a : Arena) (source target : StateId) : Arena := a.addEdge source .empty target

@[simp, grind =] theorem size_addState (a : Arena) : a.addState.size = a.size + 1 := by
  simp [size, addState]

@[simp, grind =] theorem size_addEdge (a : Arena) (source : StateId) (symbol : Symbol)
    (target : StateId) : (a.addEdge source symbol target).size = a.size := by
  simp [size, addEdge]

@[simp, grind =] theorem size_addEmpty (a : Arena) (source target : StateId) :
    (a.addEmpty source target).size = a.size :=
  size_addEdge ..

/-- A new state brings no edges. -/
@[simp, grind =] theorem edges_addState (a : Arena) (source : StateId) :
    a.addState.edges source = a.edges source := by
  simp only [edges, addState, Array.getElem?_push]
  split <;> simp_all

/-- Adding an edge changes the edges of its source and of no other state. -/
theorem mem_edges_addEdge {a : Arena} {source target s : StateId} {symbol : Symbol} {e : Edge}
    (h : source < a.size) :
    e ∈ (a.addEdge source symbol target).edges s ↔
      s = source ∧ e = ⟨symbol, target⟩ ∨ e ∈ a.edges s := by
  simp only [edges, addEdge, Array.getElem?_modify]
  by_cases hs : source = s
  · subst hs
    simp only [size] at h
    simp [h, State.mem_insertEdge]
  · simp [hs, Ne.symm hs]

theorem mem_targets {a : Arena} {source target : StateId} {symbol : Symbol} :
    target ∈ a.targets source symbol ↔ ⟨symbol, target⟩ ∈ a.edges source :=
  State.mem_targets

end Arena

end PatternAutomata
