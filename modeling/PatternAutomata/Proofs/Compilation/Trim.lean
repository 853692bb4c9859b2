import PatternAutomata.Proofs.Arena.Making
import PatternAutomata.Proofs.Arena.Trim
import PatternAutomata.Proofs.Automaton.Acceptance
import PatternAutomata.Proofs.Compilation.Grammar
import PatternAutomata.Proofs.Tree.Language

/-!
# Compiled automata are trim

A compiled pattern has no state that is of no use: each can be reached from the start, and the
accepting state can be reached from each (`Automaton.IsTrim`). How many states there are can be read
off the pattern: two for every character that is neither a plus sign nor a parenthesis
(`addsStates`), as concatenation joins the states of its operands and a plus sign adds no more than
an edge.

Both are inductions, the first on the tree (`Tree.isTrimSince`), the second on the phrase
(`Phrase.size_build`). In a trim automaton a set of active states that is not empty is never in
vain: some continuation is accepted (`Automaton.IsTrim.size_active_eq_zero_iff`).
-/

namespace PatternAutomata

/-! ### The states of a tree -/

theorem Atom.characters_ne_nil (x : Atom) : x.characters ≠ [] := by
  cases x with
  | literal c => exact List.cons_ne_nil c []
  | dot => exact List.ne_nil_of_mem (inAlphabet_iff.1 (show inAlphabet 'a' = true from rfl))

/-- **No state of a tree's fragment is useless.** -/
theorem Tree.isTrimSince (t : Tree) {a : Arena} (ha : a.IsClosed) : a.IsTrimSince (t.build a) := by
  induction t generalizing a with
  | atom x => exact .wildcard a x.characters_ne_nil
  | concatenation _ left right ihl ihr =>
    have hleft := left.builds ha
    have hb := hleft.extends_fst.isClosed ha
    have hright := right.builds hb
    exact .concatenate (ihl ha) hleft.adds (ihr hb) hright.adds hright.extends_fst
  | alternation _ left right ihl ihr =>
    have hleft := left.builds ha
    have hb := hleft.extends_fst.isClosed ha
    have hright := right.builds hb
    exact .alternate (ihl ha) hleft.adds (ihr hb) hright.adds hright.extends_fst
  | repetition _ q inner ih =>
    have hinner := inner.builds ha
    exact .quantify hinner.extends_fst (ih ha) hinner.adds q

/-! ### The number of states -/

/-- The character of a pattern brings states of its own. -/
def addsStates (c : Char) : Bool := decide (c ≠ '+' ∧ c ≠ '(' ∧ c ≠ ')')

theorem addsStates_of_mem_alphabet {c : Char} (hc : c ∈ alphabet.toList) : addsStates c = true := by
  have hread := Token.ofChar?_literal hc
  refine decide_eq_true ⟨?_, ?_, ?_⟩
  all_goals
    rintro rfl
    exact absurd hread (by decide)

theorem Arena.size_quantify (a : Arena) (q : Quantifier) (f : Fragment) :
    (a.quantify q f).1.size = a.size + 2 * [q.toChar].countP addsStates := by
  cases q with
  | plus => exact size_repeated a f
  | optional => exact size_skippable a f
  | star => exact (size_skippable _ f).trans (by rw [size_repeated]; rfl)

/-- A run of quantifiers adds the states of its characters. -/
theorem Tree.size_build_run (run : List Quantifier) (start : Nat) (t : Tree) (a : Arena) :
    (((run.zipIdx start).foldr (fun (q, position) t => .repetition position q t) t).build
        a).1.size = (t.build a).1.size + 2 * (run.map Quantifier.toChar).countP addsStates := by
  induction run generalizing start with
  | nil => rfl
  | cons q run ih =>
    rw [List.zipIdx_cons, List.foldr_cons, List.map_cons, ← List.singleton_append,
      List.countP_append]
    show (Arena.quantify _ q _).1.size = _
    rw [Arena.size_quantify, ih (start + 1)]
    omega

/-- **The text of a phrase tells how many states its fragment has.** -/
theorem Phrase.size_build {k : Category} (e : Phrase k) (start : Nat) (a : Arena) :
    ((e.tree start).build a).1.size = a.size + 2 * e.text.countP addsStates := by
  induction e generalizing start a with
  | literal c hc =>
    rw [text, List.countP_singleton, if_pos (addsStates_of_mem_alphabet hc)]
    exact Arena.size_wildcard a [c]
  | dot => exact Arena.size_wildcard a alphabet.toList
  | group inner ih =>
    rw [text, List.countP_append, List.countP_cons]
    exact ih (start + 1) a
  | factor base run ih =>
    rw [tree, Tree.size_build_run, ih, text, List.countP_append]
    omega
  | single f ih | branch f ih => exact ih start a
  | juxtapose first rest ihf ihr =>
    rw [text, List.countP_append]
    show (Arena.concatenate _ _ _).1.size = _
    rw [Arena.size_concatenate, ihr, ihf]
    omega
  | choice first rest ihf ihr =>
    have hbar : addsStates '|' = true := rfl
    rw [text, List.countP_append, List.countP_cons, if_pos hbar]
    show (Arena.alternate _ _ _).1.size = _
    rw [Arena.size_alternate, ihr, ihf]
    omega

/-! ### Trim automata -/

namespace Automaton

variable {m : Automaton}

/-- Edges stay within the automaton, and each state lies on a way from the start to the accepting
state. -/
structure IsTrim (m : Automaton) : Prop where
  start_lt : m.start < m.size
  final_lt : m.final < m.size
  target_lt : ∀ s < m.size, ∀ e ∈ m.arena.edges s, e.target < m.size
  start_reaches : ∀ s < m.size, m.arena.Reaches m.start s
  reaches_final : ∀ s < m.size, m.arena.Reaches s m.final

/-- Reading on from the active states answers for the whole input. -/
theorem accepts_append (m : Automaton) (u v : List Char) :
    m.accepts (String.ofList (u ++ v)) = accepts.go m (m.active u) v := by
  rw [accepts_eq_contains, go_eq_contains, String.toList_ofList, active, List.foldl_append, active]

namespace IsTrim

/-- Something is accepted. -/
theorem exists_accepts (h : m.IsTrim) : ∃ input : String, m.accepts input = true := by
  obtain ⟨w, hw⟩ := h.start_reaches m.final h.final_lt
  refine ⟨String.ofList w, (accepts_iff_path h.final_lt _).2 ?_⟩
  rwa [String.toList_ofList]

/-- **No state is active iff there is nothing left to accept.** -/
theorem size_active_eq_zero_iff (h : m.IsTrim) (u : List Char) :
    (m.active u).size = 0 ↔ ∀ v, m.accepts (String.ofList (u ++ v)) = false := by
  constructor
  · intro hzero v
    rw [accepts_append, go_eq_contains, ← Bool.not_eq_true, StateSet.contains_eq_true_iff]
    exact foldl_advance_of_size_eq_zero hzero v m.final
  · intro hnone
    by_contra hne
    -- an active state leads on to the accepting one
    obtain ⟨t, ht⟩ := Array.exists_mem_of_size_pos (Nat.pos_of_ne_zero hne)
    obtain ⟨hlt, hpath⟩ := mem_active.1 ht
    obtain ⟨v, hv⟩ := h.reaches_final t hlt
    have haccepts : m.accepts (String.ofList (u ++ v)) = true := by
      rw [accepts_iff_path h.final_lt, String.toList_ofList]
      exact hpath.append hv
    rw [hnone v] at haccepts
    cases haccepts

end IsTrim

end Automaton

theorem Tree.isTrim_automaton (t : Tree) : t.automaton.IsTrim := by
  obtain ⟨hextends, hadds, _⟩ := t.builds Arena.isClosed_empty
  have hserves : ∀ s < t.automaton.size, t.automaton.arena.Serves (t.build {}).2 s :=
    fun s hs => t.isTrimSince Arena.isClosed_empty s ⟨Nat.zero_le s, hs⟩
  exact {
    start_lt := hadds.entry_mem.2
    final_lt := hadds.exit_mem.2
    target_lt := fun s _ => hextends.isClosed Arena.isClosed_empty s
    start_reaches := fun s hs => (hserves s hs).entry_reaches
    reaches_final := fun s hs => (hserves s hs).reaches_exit }

/-! ### Compiled patterns -/

/-- What compiles has been compiled to the automaton of a tree. -/
theorem exists_phrase_of_compile_eq_ok {pattern : String} {m : Automaton}
    (h : compile pattern = .ok m) :
    ∃ e : Phrase .expression, e.text = pattern.toList ∧ m = (e.tree 0).automaton := by
  obtain ⟨e, he⟩ := isPattern_of_compile_eq_ok h
  exact ⟨e, he, Except.ok.inj (h.symm.trans (compile_of_text he))⟩

/-- **A compiled pattern is trim, and its size can be read off the pattern.** Hence it accepts
something; and the active states after some text, from which the rest of the input is decided, are
none exactly if no continuation of that text is accepted. -/
theorem isTrim_of_compile_eq_ok {pattern : String} {m : Automaton} (h : compile pattern = .ok m) :
    m.size = 2 * pattern.toList.countP (fun c => decide (c ≠ '+' ∧ c ≠ '(' ∧ c ≠ ')')) ∧
      m.IsTrim ∧
      (∃ input : String, m.accepts input = true) ∧
      ∀ u, (∀ v, m.accepts (String.ofList (u ++ v)) = Automaton.accepts.go m (m.active u) v) ∧
        ((m.active u).size = 0 ↔ ∀ v, m.accepts (String.ofList (u ++ v)) = false) := by
  obtain ⟨e, he, rfl⟩ := exists_phrase_of_compile_eq_ok h
  have htrim := (e.tree 0).isTrim_automaton
  refine ⟨?_, htrim, htrim.exists_accepts,
    fun u => ⟨Automaton.accepts_append _ u, htrim.size_active_eq_zero_iff u⟩⟩
  rw [← he]
  exact (e.size_build 0 {}).trans (Nat.zero_add _)

/-- A pattern with every kind of operator and a group. -/
theorem isTrim_of_compile_eq_ok_operators : ∃ m, compile "(a|b)*c+d?" = .ok m ∧ m.size = 14 ∧
    m.IsTrim ∧ ∃ input : String, m.accepts input = true := by
  obtain ⟨m, hm⟩ : ∃ m, compile "(a|b)*c+d?" = .ok m := ⟨_, rfl⟩
  obtain ⟨hsize, htrim, haccepts, _⟩ := isTrim_of_compile_eq_ok hm
  exact ⟨m, hm, hsize, htrim, haccepts⟩

end PatternAutomata
