import Mathlib.Data.Finset.Dedup
import PatternAutomata.Proofs.Arena.Words
import PatternAutomata.Proofs.Automaton.Closure

/-!
# The search with a queue

The closure of some states can be found with a queue that is apart from what has been reached: a
round takes the first state of the queue and offers the targets of its empty edges, and a state that
is offered for the first time enters the queue at its end (`Worklist.round`). Here such a search
also keeps account of all that has entered the queue and left it.

Nothing enters twice, in whatever order and however often it is offered
(`Worklist.IsConsistent.rounds`). On a graph whose edges lead to states, the search is the one of
`Arena.closure`, round by round: the array of found states is the account of what has entered, and
the queue is the part of it that has not been processed (`Exploration.round_worklist`). It makes as
many rounds as there are states in the closure, and then the queue is empty
(`Arena.exists_rounds_closure`).
-/

namespace PatternAutomata

/-- A search with a queue, and what has happened to the queue. -/
structure Worklist where
  reached : Finset StateId := ∅
  /-- The states that wait, the first to leave first. -/
  queue : List StateId := []
  /-- All that has entered the queue, the earliest first. -/
  enqueued : List StateId := []
  /-- All that has left the queue, the earliest first. -/
  dequeued : List StateId := []
deriving DecidableEq

namespace Worklist

/-- Reaches a state, which enters the queue if it has not been reached before. -/
def offer (w : Worklist) (t : StateId) : Worklist :=
  if t ∈ w.reached then w
  else { w with
    reached := insert t w.reached
    queue := w.queue ++ [t]
    enqueued := w.enqueued ++ [t] }

/-- The search before its first round. -/
def start (initial : List StateId) : Worklist := initial.foldl offer {}

/-- A round, if anything waits. -/
def round (a : Arena) (w : Worklist) : Option Worklist :=
  match w.queue with
  | [] => none
  | s :: rest =>
    some ((a.targets s .empty).foldl offer
      { w with queue := rest, dequeued := w.dequeued ++ [s] })

/-- The given number of rounds, if there are that many. -/
def rounds (a : Arena) : Nat → Worklist → Option Worklist
  | 0, w => some w
  | n + 1, w => (w.round a).bind (rounds a n)

variable {a : Arena} {w w' : Worklist} {t : StateId}

/-! ### The account of the queue -/

/-- What is true of a search at any moment. -/
structure IsConsistent (w : Worklist) : Prop where
  /-- What has been reached has entered the queue. -/
  mem_reached : ∀ s, s ∈ w.reached ↔ s ∈ w.enqueued
  /-- Nothing has entered the queue twice. -/
  nodup : w.enqueued.Nodup
  /-- What has entered the queue has left it or waits, in this order. -/
  enqueued_eq : w.enqueued = w.dequeued ++ w.queue

namespace IsConsistent

theorem empty : IsConsistent {} where
  mem_reached s := by rw [iff_false_right List.not_mem_nil]; exact Finset.notMem_empty s
  nodup := List.nodup_nil
  enqueued_eq := rfl

theorem offer (h : w.IsConsistent) (t : StateId) : (w.offer t).IsConsistent := by
  unfold Worklist.offer
  by_cases ht : t ∈ w.reached
  · rwa [if_pos ht]
  · rw [if_neg ht]
    refine ⟨fun s => ?_, ?_, ?_⟩
    · rw [Finset.mem_insert, List.mem_append, List.mem_singleton, h.mem_reached s, or_comm]
    · have hnew : t ∉ w.enqueued := fun hmem => ht ((h.mem_reached t).2 hmem)
      show (w.enqueued ++ [t]).Nodup
      rw [← List.concat_eq_append]
      exact h.nodup.concat hnew
    · show w.enqueued ++ [t] = w.dequeued ++ (w.queue ++ [t])
      rw [h.enqueued_eq, List.append_assoc]

theorem foldl_offer (h : w.IsConsistent) (l : List StateId) :
    (l.foldl Worklist.offer w).IsConsistent := by
  induction l generalizing w with
  | nil => exact h
  | cons t l ih => exact ih (h.offer t)

/-- Whatever is offered, in whatever order, a search begins consistently. -/
theorem start (initial : List StateId) : (Worklist.start initial).IsConsistent :=
  empty.foldl_offer initial

/-- A round keeps the account. -/
theorem round (h : w.IsConsistent) (hround : w.round a = some w') : w'.IsConsistent := by
  unfold Worklist.round at hround
  cases hqueue : w.queue with
  | nil =>
    rw [hqueue] at hround
    cases hround
  | cons s rest =>
    rw [hqueue] at hround
    cases hround
    apply foldl_offer
    refine ⟨h.mem_reached, h.nodup, ?_⟩
    show w.enqueued = w.dequeued ++ [s] ++ rest
    rw [h.enqueued_eq, hqueue, List.append_assoc, List.singleton_append]

/-- So does any number of rounds. -/
theorem rounds {n : Nat} (h : w.IsConsistent) (hrounds : Worklist.rounds a n w = some w') :
    w'.IsConsistent := by
  induction n generalizing w with
  | zero =>
    cases hrounds
    exact h
  | succ n ih =>
    obtain ⟨next, hnext, hrest⟩ := Option.bind_eq_some_iff.1 hrounds
    exact ih (h.round hnext) hrest

end IsConsistent

/-! ### Rounds are counted -/

theorem dequeued_foldl_offer (w : Worklist) (l : List StateId) :
    (l.foldl offer w).dequeued = w.dequeued := by
  induction l generalizing w with
  | nil => rfl
  | cons t l ih =>
    rw [List.foldl_cons, ih]
    unfold offer
    by_cases ht : t ∈ w.reached
    · rw [if_pos ht]
    · rw [if_neg ht]

/-- One state leaves the queue in a round. -/
theorem length_dequeued_round (h : w.round a = some w') :
    w'.dequeued.length = w.dequeued.length + 1 := by
  unfold round at h
  cases hqueue : w.queue with
  | nil =>
    rw [hqueue] at h
    cases h
  | cons s rest =>
    rw [hqueue] at h
    cases h
    rw [dequeued_foldl_offer, List.length_append, List.length_singleton]

theorem length_dequeued_rounds {n : Nat} (h : rounds a n w = some w') :
    w'.dequeued.length = w.dequeued.length + n := by
  induction n generalizing w with
  | zero =>
    cases h
    rfl
  | succ n ih =>
    obtain ⟨next, hnext, hrest⟩ := Option.bind_eq_some_iff.1 h
    have hround := length_dequeued_round hnext
    have hlast := ih hrest
    omega

end Worklist

/-! ### One array for both -/

/-- Only a new member is entered in the array, behind the others. -/
theorem StateSet.members_insert {n i : Nat} {s : StateSet n} (hi : i < n) :
    (s.insert i).members = if i ∈ s.members then s.members else s.members.push i := by
  have hmark : i ∈ s.members ↔ s.marks[i] = true := by
    rw [s.mem_members, Vector.getElem?_eq_getElem hi, Option.some.injEq]
  unfold insert
  rw [dif_pos hi]
  by_cases hm : s.marks[i] = true
  · rw [dif_pos hm, if_pos (hmark.2 hm)]
  · rw [dif_neg hm, if_neg (fun hmem => hm (hmark.1 hmem))]

namespace Exploration

variable {n processed : Nat} {found : StateSet n} {a : Arena}

/-- The search with the part of the array that has not been processed as its queue. -/
def worklist (e : Exploration n) : Worklist where
  reached := e.found.members.toList.toFinset
  queue := e.found.members.toList.drop e.processed
  enqueued := e.found.members.toList
  dequeued := e.found.members.toList.take e.processed

theorem mem_reached_worklist {e : Exploration n} {t : StateId} :
    t ∈ e.worklist.reached ↔ t ∈ e.found.members := by
  show t ∈ e.found.members.toList.toFinset ↔ _
  rw [List.mem_toFinset, Array.mem_toList_iff]

/-- To insert is to offer. -/
theorem worklist_insert {t : StateId} (h : processed ≤ found.members.size) (ht : t < n) :
    worklist ⟨found.insert t, processed⟩ = (worklist ⟨found, processed⟩).offer t := by
  unfold Worklist.offer
  by_cases hmem : t ∈ found.members
  · rw [if_pos (mem_reached_worklist.2 hmem)]
    unfold worklist
    simp only [StateSet.members_insert ht, if_pos hmem]
  · rw [if_neg (fun hreached => hmem (mem_reached_worklist.1 hreached))]
    have hlength : processed ≤ found.members.toList.length := by rwa [Array.length_toList]
    unfold worklist
    simp only [StateSet.members_insert ht, if_neg hmem, Array.toList_push]
    rw [List.drop_append_of_le_length hlength, List.take_append_of_le_length hlength,
      List.toFinset_append]
    congr 1
    exact (Finset.union_comm _ _).trans (Finset.insert_eq t _).symm

theorem worklist_insertMany {l : List StateId} (h : processed ≤ found.members.size)
    (hl : ∀ t ∈ l, t < n) :
    worklist ⟨found.insertMany l, processed⟩ =
      l.foldl Worklist.offer (worklist ⟨found, processed⟩) := by
  induction l generalizing found with
  | nil => rfl
  | cons t l ih =>
    obtain ⟨ht, hl⟩ := List.forall_mem_cons.1 hl
    have hsize : processed ≤ (found.insert t).members.size := by
      rw [StateSet.members_insert ht]
      by_cases hmem : t ∈ found.members
      · rwa [if_pos hmem]
      · rw [if_neg hmem, Array.size_push]
        omega
    rw [List.foldl_cons, ← worklist_insert h ht, ← ih hsize hl]
    rfl

/-- Both begin together. -/
theorem worklist_start {initial : List StateId} (h : ∀ s ∈ initial, s < n) :
    worklist ⟨(StateSet.empty n).insertMany initial, 0⟩ = Worklist.start initial := by
  rw [worklist_insertMany (Nat.zero_le _) h]
  rfl

/-- A round of the one is a round of the other. -/
theorem round_worklist (ha : a.IsClosed) {e : Exploration a.size}
    (h : e.processed < e.found.members.size) :
    e.worklist.round a = some (worklist
      ⟨e.found.insertMany (a.targets e.found.members[e.processed] .empty), e.processed + 1⟩) := by
  have hlength : e.processed < e.found.members.toList.length := by rwa [Array.length_toList]
  have hqueue : e.worklist.queue =
      e.found.members[e.processed] :: e.found.members.toList.drop (e.processed + 1) :=
    List.drop_eq_getElem_cons hlength
  have htargets : ∀ t ∈ a.targets e.found.members[e.processed] .empty, t < a.size :=
    fun t ht => ha _ _ (Arena.mem_targets.1 ht)
  rw [worklist_insertMany h htargets]
  unfold Worklist.round
  rw [hqueue]
  show some _ = some _
  congr 2
  unfold worklist
  rw [List.take_succ_eq_append_getElem hlength]
  rfl

/-- Both stop together. -/
theorem round_worklist_eq_none {e : Exploration n} (h : e.found.members.size ≤ e.processed) :
    e.worklist.round a = none := by
  have hqueue : e.worklist.queue = [] := List.drop_eq_nil_of_le h
  unfold Worklist.round
  rw [hqueue]

/-- **The search runs as the one with a queue**, which makes a round for each state that is
processed. -/
theorem exists_rounds_run (ha : a.IsClosed) (e : Exploration a.size) :
    ∃ k, Worklist.rounds a k e.worklist = some (run a e).worklist ∧
      (run a e).processed = e.processed + k := by
  induction e using Exploration.run.induct with
  | case1 e hp _ ih =>
    rw [Exploration.run, dif_pos hp]
    obtain ⟨k, hk, hprocessed⟩ := ih
    refine ⟨k + 1, ?_, hprocessed.trans (Nat.add_right_comm e.processed 1 k)⟩
    rw [Worklist.rounds, round_worklist ha hp]
    exact hk
  | case2 e hp =>
    rw [Exploration.run, dif_neg hp]
    exact ⟨0, rfl, rfl⟩

end Exploration

namespace Arena

variable {a : Arena} {initial : List StateId}

/-- **The search for a closure ends, and does each thing once.** At every moment of it nothing has
entered the queue twice, what has entered has left or waits, and as many states have left as rounds
have been made. After as many rounds as there are states in the closure nothing waits any more:
exactly the closure has been reached, which is no more than all states, and no empty edge leaves it.
So many states have then been processed in the array, too. -/
theorem exists_rounds_closure (ha : a.IsClosed) (hinitial : ∀ s ∈ initial, s < a.size) :
    (∀ n w, Worklist.rounds a n (.start initial) = some w →
      w.enqueued.Nodup ∧ w.enqueued = w.dequeued ++ w.queue ∧ w.dequeued.length = n) ∧
    ∃ w, Worklist.rounds a (a.closure initial).size (.start initial) = some w ∧
      w.round a = none ∧ w.enqueued = (a.closure initial).members.toList ∧
      (∀ s, s ∈ w.reached ↔ s ∈ (a.closure initial).members) ∧
      (∀ s ∈ w.reached, ∀ t ∈ a.targets s .empty, t ∈ w.reached) ∧
      (a.closure initial).size ≤ a.size ∧
      (Exploration.run a ⟨(StateSet.empty a.size).insertMany initial, 0⟩).processed =
        (a.closure initial).size := by
  refine ⟨fun n w hw => ?_, ?_⟩
  · have hconsistent := (Worklist.IsConsistent.start initial).rounds hw
    have hlength := Worklist.length_dequeued_rounds hw
    rw [Worklist.start, Worklist.dequeued_foldl_offer] at hlength
    exact ⟨hconsistent.nodup, hconsistent.enqueued_eq, hlength.trans (Nat.zero_add n)⟩
  · let first : Exploration a.size := ⟨(StateSet.empty a.size).insertMany initial, 0⟩
    obtain ⟨k, hrounds, hk⟩ := Exploration.exists_rounds_run ha first
    have hstop := Exploration.size_le_processed_run first
    have hle := (Exploration.Invariant.start a initial).run.processed_le
    have hprocessed : (Exploration.run a first).processed = (a.closure initial).size :=
      Nat.le_antisymm hle hstop
    have hsize : k = (a.closure initial).size := by
      rw [← hprocessed, hk, Nat.zero_add]
    rw [hsize, Exploration.worklist_start hinitial] at hrounds
    refine ⟨_, hrounds, Exploration.round_worklist_eq_none hstop, rfl,
      fun _ => Exploration.mem_reached_worklist, fun s hs t ht => ?_, StateSet.size_le _,
      hprocessed⟩
    rw [Exploration.mem_reached_worklist] at hs ⊢
    have hedge := mem_targets.1 ht
    exact mem_closure_of_edge hs hedge (ha s _ hedge)

/-- Two states on a cycle, one with an edge to itself and one that is offered twice. -/
theorem exists_rounds_closure_cycle :
    ∃ a : Arena, a.IsClosed ∧ a.targets 0 .empty = [1, 1, 0] ∧ a.targets 1 .empty = [0] ∧
      ∃ w, Worklist.rounds a 2 (.start [1, 1]) = some w ∧ w.round a = none ∧
        w.enqueued = [1, 0] := by
  let a : Arena :=
    ⟨#[⟨[⟨.empty, 1⟩, ⟨.empty, 1⟩, ⟨.empty, 0⟩]⟩, ⟨[⟨.empty, 0⟩, ⟨.char 'a', 2⟩]⟩, {}]⟩
  have hsmall : ∀ s < 3, ∀ e ∈ a.edges s, e.target < a.size := by decide
  have ha : a.IsClosed := fun s e he => hsmall s (lt_of_mem_edges he) e he
  obtain ⟨w, hrounds, hstop, henqueued, _⟩ :=
    (exists_rounds_closure ha (show ∀ s ∈ [1, 1], s < a.size by decide)).2
  have hmembers : (a.closure [1, 1]).members = #[1, 0] := by decide +kernel
  rw [hmembers] at henqueued
  rw [StateSet.size, hmembers] at hrounds
  exact ⟨a, ha, rfl, rfl, w, hrounds, hstop, henqueued⟩

end Arena

end PatternAutomata
