import PatternAutomata.Automaton.Acceptance
import PatternAutomata.Automaton.Dump
import PatternAutomata.Proofs.Numeral
import PatternAutomata.Proofs.Workbench.Basic

/-!
# What the text of an automaton tells

The text of an automaton is written without escapes, although edges may be on blanks, line feeds,
digits, colons and angle brackets. It can be read back all the same, from left to right. The number
of a line is known beforehand; the words behind it end at a colon; an edge begins with a blank and
the line ends with a line feed, and both are expected in places where nothing else can stand, as the
character of an edge is always the second one of its text. Only the number of the target has no
fixed length, and what follows it is never a digit.

So automata with the same text are equal (`Automaton.eq_of_dump_eq`), unless an edge is on the very
character that is written for the empty symbol.
-/

namespace PatternAutomata

/-! ### Edges -/

namespace Symbol

/-- The character that is written for a symbol. -/
def toChar : Symbol → Char
  | empty => 'ε'
  | char c => c

theorem toList_text (x : Symbol) : x.text.toList = [x.toChar] := by
  cases x with
  | empty => rfl
  | char c => exact String.toList_singleton c

/-- Symbols can be told apart by their characters, if none of them is the character that is written
for the empty one. -/
theorem eq_of_toChar_eq {x y : Symbol} (hx : x ≠ char 'ε') (hy : y ≠ char 'ε')
    (h : x.toChar = y.toChar) : x = y := by
  cases x with
  | empty =>
    cases y with
    | empty => rfl
    | char d => exact absurd (congrArg char h.symm) hy
  | char c =>
    cases y with
    | empty => exact absurd (congrArg char h) hx
    | char d => exact congrArg char h

end Symbol

namespace Edge

variable {e e' : Edge} {r r' : List Char}

theorem toList_text (e : Edge) :
    e.text.toList = ' ' :: e.symbol.toChar :: '-' :: '>' :: (toString e.target).toList := by
  simp [text, Symbol.toList_text]

/-- **An edge can be told from its text**, if what follows it does not begin with a digit. -/
theorem text_append_inj (he : e.symbol ≠ .char 'ε') (he' : e'.symbol ≠ .char 'ε')
    (hr : EndsNumber r) (hr' : EndsNumber r') (h : e.text.toList ++ r = e'.text.toList ++ r') :
    e = e' ∧ r = r' := by
  obtain ⟨symbol, target⟩ := e
  obtain ⟨symbol', target'⟩ := e'
  rw [toList_text, toList_text] at h
  simp only [List.cons_append, List.cons.injEq, true_and] at h
  obtain ⟨hchar, hrest⟩ := h
  obtain ⟨rfl, rfl⟩ := toString_append_inj hr hr' hrest
  obtain rfl : symbol = symbol' := Symbol.eq_of_toChar_eq he he' hchar
  exact ⟨rfl, rfl⟩

end Edge

namespace State

/-- No edge of the state is on the character that is written for the empty symbol. -/
def IsLegible (s : State) : Prop := ∀ e ∈ s.edges, e.symbol ≠ .char 'ε'

/-- Where the edges of a state go on or end, a number ends. -/
theorem endsNumber_edges (l : List Edge) (r : List Char) :
    EndsNumber (l.flatMap (·.text.toList) ++ '\n' :: r) := by
  cases l with
  | nil =>
    rintro _ ⟨⟩
    rfl
  | cons e l =>
    rw [List.flatMap_cons, Edge.toList_text]
    rintro _ ⟨⟩
    rfl

/-- The line feed is not the beginning of an edge. -/
theorem text_append_ne (e : Edge) (l r : List Char) : e.text.toList ++ l ≠ '\n' :: r := by
  rw [Edge.toList_text]
  nofun

/-- **The edges of a state can be told from their text** and the line feed behind it. -/
theorem edges_append_inj {s s' : State} {r r' : List Char} (hs : s.IsLegible) (hs' : s'.IsLegible)
    (h : s.edges.flatMap (·.text.toList) ++ '\n' :: r =
      s'.edges.flatMap (·.text.toList) ++ '\n' :: r') : s = s' ∧ r = r' := by
  obtain ⟨l⟩ := s
  obtain ⟨l'⟩ := s'
  induction l generalizing l' with
  | nil =>
    cases l' with
    | nil => exact ⟨rfl, (List.cons.inj h).2⟩
    | cons e' l' =>
      rw [List.flatMap_cons, List.append_assoc] at h
      exact absurd h.symm (text_append_ne e' _ r)
  | cons e l ih =>
    cases l' with
    | nil =>
      rw [List.flatMap_cons, List.append_assoc] at h
      exact absurd h (text_append_ne e _ r')
    | cons e' l' =>
      obtain ⟨he, htail⟩ := List.forall_mem_cons.1 hs
      obtain ⟨he', htail'⟩ := List.forall_mem_cons.1 hs'
      rw [List.flatMap_cons, List.flatMap_cons, List.append_assoc, List.append_assoc] at h
      obtain ⟨rfl, hrest⟩ :=
        Edge.text_append_inj he he' (endsNumber_edges l r) (endsNumber_edges l' r') h
      obtain ⟨hstate, hr⟩ := ih htail l' htail' hrest
      obtain rfl : l = l' := State.mk.inj hstate
      exact ⟨rfl, hr⟩

end State

/-! ### Lines -/

/-- The words of a line can be told from its beginning up to the colon. -/
theorem flags_append_inj {p q p' q' : Prop} [Decidable p] [Decidable q] [Decidable p']
    [Decidable q'] {r r' : List Char}
    (h : (if p then " start" else "").toList ++ ((if q then " final" else "").toList ++ ':' :: r) =
      (if p' then " start" else "").toList ++ ((if q' then " final" else "").toList ++ ':' :: r')) :
    (p ↔ p') ∧ (q ↔ q') ∧ r = r' := by
  split_ifs at h <;> simp_all

namespace Automaton

variable {m m' : Automaton} {s s' : State} {id : StateId}

theorem toList_dumpLine (m : Automaton) (id : StateId) (s : State) :
    (m.dumpLine id s).toList =
      (toString id).toList ++ ((if id = m.start then " start" else "").toList ++
        ((if id = m.final then " final" else "").toList ++
          ':' :: (s.edges.flatMap (·.text.toList) ++ ['\n']))) := by
  simp [dumpLine, List.flatMap_map]

/-- **A line of which the number is known** tells which words stand in it, and the edges. -/
theorem dumpLine_append_inj {r r' : List Char} (hs : s.IsLegible) (hs' : s'.IsLegible)
    (h : (m.dumpLine id s).toList ++ r = (m'.dumpLine id s').toList ++ r') :
    (id = m.start ↔ id = m'.start) ∧ (id = m.final ↔ id = m'.final) ∧ s = s' ∧ r = r' := by
  simp only [toList_dumpLine, List.append_assoc, List.cons_append, List.nil_append] at h
  obtain ⟨hstart, hfinal, hrest⟩ := flags_append_inj (List.append_cancel_left h)
  obtain ⟨hstate, hr⟩ := State.edges_append_inj hs hs' hrest
  exact ⟨hstart, hfinal, hstate, hr⟩

theorem dumpLine_ne_nil (m : Automaton) (id : StateId) (s : State) :
    (m.dumpLine id s).toList ≠ [] := by
  simp [toList_dumpLine]

theorem toList_dump (m : Automaton) :
    m.dump.toList =
      m.arena.states.toList.zipIdx.flatMap fun (s, id) => (m.dumpLine id s).toList := by
  rw [dump, String.toList_join, List.flatMap_map]

/-- **The lines from a number on** tell the states from there on, and what is said of each. -/
theorem lines_inj {l l' : List State} {n : Nat} (hl : ∀ s ∈ l, s.IsLegible)
    (hl' : ∀ s ∈ l', s.IsLegible)
    (h : ((l.zipIdx n).flatMap fun (s, id) => (m.dumpLine id s).toList) =
      (l'.zipIdx n).flatMap fun (s, id) => (m'.dumpLine id s).toList) :
    l = l' ∧ ∀ k < l.length,
      (n + k = m.start ↔ n + k = m'.start) ∧ (n + k = m.final ↔ n + k = m'.final) := by
  induction l generalizing l' n with
  | nil =>
    cases l' with
    | nil => exact ⟨rfl, nofun⟩
    | cons s' l' =>
      rw [List.zipIdx_cons, List.flatMap_cons] at h
      exact absurd (List.append_eq_nil_iff.1 h.symm).1 (m'.dumpLine_ne_nil n s')
  | cons s l ih =>
    cases l' with
    | nil =>
      rw [List.zipIdx_cons, List.flatMap_cons] at h
      exact absurd (List.append_eq_nil_iff.1 h).1 (m.dumpLine_ne_nil n s)
    | cons s' l' =>
      obtain ⟨hs, htail⟩ := List.forall_mem_cons.1 hl
      obtain ⟨hs', htail'⟩ := List.forall_mem_cons.1 hl'
      rw [List.zipIdx_cons, List.flatMap_cons, List.zipIdx_cons, List.flatMap_cons] at h
      obtain ⟨hstart, hfinal, rfl, hrest⟩ := dumpLine_append_inj hs hs' h
      obtain ⟨rfl, hsame⟩ := ih htail htail' hrest
      refine ⟨rfl, fun k hk => ?_⟩
      cases k with
      | zero => exact ⟨hstart, hfinal⟩
      | succ k =>
        have hlater := hsame k (Nat.lt_of_succ_lt_succ hk)
        rwa [Nat.add_assoc, Nat.add_comm 1 k] at hlater

/-! ### Automata -/

/-- What the text of an automaton cannot show is not there: a start or an accepting state without a
line, and edges on the character that is written for the empty symbol. -/
structure IsLegible (m : Automaton) : Prop where
  start_lt : m.start < m.size
  final_lt : m.final < m.size
  states : ∀ s ∈ m.arena.states, s.IsLegible

/-- **Automata with the same text are equal.** -/
theorem eq_of_dump_eq (hm : m.IsLegible) (hm' : m'.IsLegible) (h : m.dump = m'.dump) :
    m = m' := by
  have hlines := congrArg String.toList h
  rw [toList_dump, toList_dump] at hlines
  have hstates : ∀ s ∈ m.arena.states.toList, s.IsLegible :=
    fun s hs => hm.states s (Array.mem_toList_iff.1 hs)
  have hstates' : ∀ s ∈ m'.arena.states.toList, s.IsLegible :=
    fun s hs => hm'.states s (Array.mem_toList_iff.1 hs)
  obtain ⟨hlist, hsame⟩ := lines_inj hstates hstates' hlines
  have hstart := (hsame m.start hm.start_lt).1
  have hfinal := (hsame m.final hm.final_lt).2
  rw [Nat.zero_add] at hstart hfinal
  obtain ⟨⟨states⟩, start, final⟩ := m
  obtain ⟨⟨states'⟩, start', final'⟩ := m'
  obtain rfl : states = states' := Array.toList_inj.1 hlist
  obtain rfl : start = start' := hstart.1 rfl
  obtain rfl : final = final' := hfinal.1 rfl
  rfl

end Automaton

/-! ### Constructions -/

namespace Workbench

variable {steps steps' : List Step} {products products' : List Product} {w w' : Workbench}
  {f f' : Fragment}

/-- What has been constructed is legible, if no edge has been put on the character that is written
for the empty symbol. -/
theorem isLegible_finish (h : ({} : Workbench).performAll steps = some (products, w))
    (hf : f ∈ w.fragments) (hchar : ∀ s, w.arena.targets s (.char 'ε') = []) :
    (w.arena.finish f).IsLegible := by
  have hcontains := (isValid_of_performAll h).contains f hf
  refine ⟨hcontains.entry_lt, hcontains.exit_lt, fun s hs e he => ?_⟩
  obtain ⟨k, hk⟩ := Array.mem_iff_getElem?.1 hs
  have hstate : w.arena.states[k]? = some s := hk
  have hedges : e ∈ w.arena.edges k := by
    unfold Arena.edges
    rw [hstate]
    exact he
  intro hsymbol
  have htarget : e.target ∈ w.arena.targets k (.char 'ε') := by
    rw [Arena.mem_targets, ← hsymbol]
    exact hedges
  rw [hchar k] at htarget
  exact List.not_mem_nil htarget

/-- **The text of an automaton is a faithful encoding.** If two constructions have put no edge on
the character that is written for the empty symbol, and a fragment of the one and a fragment of the
other are finished, the automata are equal once their texts are: they have as many states, the same
start and the same accepting state, and edges on a symbol lead to the same states in the same order.
Hence they answer alike. -/
theorem finish_eq_of_dump_eq (h : ({} : Workbench).performAll steps = some (products, w))
    (hf : f ∈ w.fragments) (hchar : ∀ s, w.arena.targets s (.char 'ε') = [])
    (h' : ({} : Workbench).performAll steps' = some (products', w'))
    (hf' : f' ∈ w'.fragments) (hchar' : ∀ s, w'.arena.targets s (.char 'ε') = [])
    (hdump : (w.arena.finish f).dump = (w'.arena.finish f').dump) :
    w.arena.finish f = w'.arena.finish f' ∧ w.arena.size = w'.arena.size ∧
      f.entry = f'.entry ∧ f.exit = f'.exit ∧
      (∀ s symbol, w.arena.targets s symbol = w'.arena.targets s symbol) ∧
      ∀ input : String, (w.arena.finish f).accepts input = (w'.arena.finish f').accepts input := by
  have hlegible := isLegible_finish h hf hchar
  have hlegible' := isLegible_finish h' hf' hchar'
  have hautomaton := Automaton.eq_of_dump_eq hlegible hlegible' hdump
  have harena : w.arena = w'.arena := congrArg Automaton.arena hautomaton
  refine ⟨hautomaton, congrArg Arena.size harena, congrArg Automaton.start hautomaton,
    congrArg Automaton.final hautomaton, fun s symbol => ?_, fun input => ?_⟩
  · rw [harena]
  · rw [hautomaton]

/-- Edges on a blank, a line feed and a digit, added in one order and in the other. -/
theorem finish_eq_of_dump_eq_separators :
    ∃ products w products' w',
      ({} : Workbench).performAll [.state, .state, .edge 0 (.char ' ') 1, .edge 0 (.char '\n') 0,
        .edge 0 .empty 1, .edge 0 (.char '1') 1, .fragment 0 1] = some (products, w) ∧
      ({} : Workbench).performAll [.state, .state, .edge 0 (.char '1') 1, .edge 0 .empty 1,
        .edge 0 (.char '\n') 0, .edge 0 (.char ' ') 1, .fragment 0 1] = some (products', w') ∧
      (w.arena.finish ⟨0, 1⟩).dump = "0 start: ε->1 \n->0  ->1 1->1\n1 final:\n" ∧
      w.arena.finish ⟨0, 1⟩ = w'.arena.finish ⟨0, 1⟩ := by
  obtain ⟨products, w, h, hf, hchar, hdump⟩ : ∃ products w,
      ({} : Workbench).performAll [.state, .state, .edge 0 (.char ' ') 1, .edge 0 (.char '\n') 0,
        .edge 0 .empty 1, .edge 0 (.char '1') 1, .fragment 0 1] = some (products, w) ∧
      ⟨0, 1⟩ ∈ w.fragments ∧ (∀ s, w.arena.targets s (.char 'ε') = []) ∧
      (w.arena.finish ⟨0, 1⟩).dump = "0 start: ε->1 \n->0  ->1 1->1\n1 final:\n" :=
    ⟨_, _, rfl, Array.mem_push_self, by rintro (_ | _ | s) <;> rfl, rfl⟩
  obtain ⟨products', w', h', hf', hchar', hdump'⟩ : ∃ products w,
      ({} : Workbench).performAll [.state, .state, .edge 0 (.char '1') 1, .edge 0 .empty 1,
        .edge 0 (.char '\n') 0, .edge 0 (.char ' ') 1, .fragment 0 1] = some (products, w) ∧
      ⟨0, 1⟩ ∈ w.fragments ∧ (∀ s, w.arena.targets s (.char 'ε') = []) ∧
      (w.arena.finish ⟨0, 1⟩).dump = "0 start: ε->1 \n->0  ->1 1->1\n1 final:\n" :=
    ⟨_, _, rfl, Array.mem_push_self, by rintro (_ | _ | s) <;> rfl, rfl⟩
  have hsame := finish_eq_of_dump_eq h hf hchar h' hf' hchar' (hdump.trans hdump'.symm)
  exact ⟨products, w, products', w', h, h', hdump, hsame.1⟩

-- the character itself is written like the empty symbol
example : (⟨⟨#[⟨[⟨.char 'ε', 1⟩]⟩, {}]⟩, 0, 1⟩ : Automaton).dump =
    (⟨⟨#[⟨[⟨.empty, 1⟩]⟩, {}]⟩, 0, 1⟩ : Automaton).dump := rfl

end Workbench

end PatternAutomata
