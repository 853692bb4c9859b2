import PatternAutomata.Phrase.Tree

/-!
# Moving the operators of a tree

The operators of a tree carry positions, which name them in the log and do nothing else: whatever is
written in their place, the tree is built in the same way (`Tree.build_relocate`).

A phrase that stands somewhere else in a text has the same tree with other positions: those of its
operators move along (`Phrase.relocate_tree`).
-/

namespace PatternAutomata

/-- The operator at another position. -/
def PlacedOperator.relocate (f : Nat → Nat) (o : PlacedOperator) : PlacedOperator :=
  ⟨o.operator, f o.position⟩

namespace Tree

/-- The tree with its operators at other positions. -/
def relocate (f : Nat → Nat) : Tree → Tree
  | atom x => atom x
  | concatenation position left right =>
    concatenation (f position) (left.relocate f) (right.relocate f)
  | alternation position left right =>
    alternation (f position) (left.relocate f) (right.relocate f)
  | repetition position q inner => repetition (f position) q (inner.relocate f)

variable (f : Nat → Nat) (t : Tree)

/-- **What is built does not depend on positions.** -/
theorem build_relocate (a : Arena) : (t.relocate f).build a = t.build a := by
  induction t generalizing a with
  | atom x => rfl
  | concatenation _ left right ihl ihr | alternation _ left right ihl ihr =>
    simp only [relocate, build, ihl, ihr]
  | repetition _ q inner ih => simp only [relocate, build, ih]

theorem applications_relocate :
    (t.relocate f).applications = t.applications.map (·.relocate f) := by
  induction t with
  | atom x => rfl
  | concatenation _ left right ihl ihr | alternation _ left right ihl ihr =>
    simp only [relocate, applications, ihl, ihr, List.map_append]
    rfl
  | repetition _ q inner ih =>
    simp only [relocate, applications, ih, List.map_append]
    rfl

end Tree

/-! ### Texts that are moved -/

/-- What `f` does to a text of the given length that begins at the position `start` is to move it to
the position `start'`. -/
def Shifts (f : Nat → Nat) (start start' length : Nat) : Prop :=
  ∀ k < length, f (start + k) = start' + k

variable {f : Nat → Nat} {start start' length : Nat}

namespace Shifts

theorem take (h : Shifts f start start' length) {length' : Nat} (hle : length' ≤ length) :
    Shifts f start start' length' :=
  fun k hk => h k (Nat.lt_of_lt_of_le hk hle)

/-- What stands later in the text is moved by as much. -/
theorem drop (h : Shifts f start start' length) (n : Nat) {length' : Nat}
    (hle : n + length' ≤ length) : Shifts f (start + n) (start' + n) length' := by
  intro k hk
  rw [Nat.add_assoc, Nat.add_assoc]
  exact h (n + k) (by omega)

end Shifts

/-- A run of quantifiers on top of a tree. -/
theorem relocate_foldr_repetition (run : List Quantifier) (t : Tree)
    (hf : Shifts f start start' run.length) :
    ((run.zipIdx start).foldr (fun (q, position) t => .repetition position q t) t).relocate f =
      (run.zipIdx start').foldr (fun (q, position) t => .repetition position q t)
        (t.relocate f) := by
  induction run generalizing start start' with
  | nil => rfl
  | cons q run ih =>
    have hfirst : f start = start' := hf 0 (Nat.zero_lt_succ _)
    have hrest := ih (hf.drop 1 (by rw [List.length_cons]; omega))
    simp only [List.zipIdx_cons, List.foldr_cons, Tree.relocate, hfirst, hrest]

/-- **A phrase that is moved has the same tree**, with its operators moved along. -/
theorem Phrase.relocate_tree {k : Category} (e : Phrase k)
    (hf : Shifts f start start' e.text.length) : (e.tree start).relocate f = e.tree start' := by
  induction e generalizing start start' with
  | literal c hc | dot => rfl
  | group inner ih =>
    have hlength : (group inner).text.length = inner.text.length + 2 := by simp [text]
    exact ih (hf.drop 1 (by omega))
  | factor base run ih =>
    have hlength : (factor base run).text.length = base.text.length + run.length := by simp [text]
    have hrun : Shifts f (start + base.text.length) (start' + base.text.length) run.length :=
      hf.drop _ (by omega)
    rw [tree, relocate_foldr_repetition run _ hrun, ih (hf.take (by omega)), tree]
  | single e ih | branch e ih => exact ih hf
  | juxtapose first rest ihf ihr =>
    have hrest : 0 < rest.text.length := List.length_pos_iff.2 rest.text_ne_nil
    have hlength : (juxtapose first rest).text.length =
        first.text.length + rest.text.length := List.length_append
    have hmiddle := hf first.text.length (by omega)
    simp only [tree, Tree.relocate, hmiddle]
    rw [ihf (hf.take (by omega)), ihr (hf.drop first.text.length (by omega))]
  | choice first rest ihf ihr =>
    have hlength : (choice first rest).text.length =
        first.text.length + (rest.text.length + 1) := by simp [text]
    have hbar := hf first.text.length (by omega)
    simp only [tree, Tree.relocate, hbar]
    rw [ihf (hf.take (by omega))]
    exact congrArg _ (ihr (hf.drop (first.text.length + 1) (by omega)))

end PatternAutomata
