import PatternAutomata.Phrase.Tree
import PatternAutomata.Proofs.Arena.Extension
import PatternAutomata.Proofs.Phrase.Quantifier

/-!
# The language of a tree

What a syntax tree means, and that the fragment built from it means the same.

`Tree.builds` is the correctness of the construction: the words between entry and exit of the
fragment that `Tree.build` makes are those of the tree. The fragment lies in an extension that keeps
to itself (`Arena.Builds`), so that of the general laws of fragment operations only the terms remain
that stay within one operand: nothing crosses from one subtree to the other, however many loops
there are at their ends.

`language_tree`: a phrase and its tree mean the same. The tree applies a run of quantifiers in the
reverse of the order in which the phrase does.
-/

namespace PatternAutomata

open scoped Computability

/-- The words that a tree stands for. -/
def Tree.language : Tree → Language Char
  | atom x => {w | ∃ c ∈ x.characters, w = [c]}
  | concatenation _ left right => left.language * right.language
  | alternation _ left right => left.language + right.language
  | repetition _ q inner => q.onLanguage inner.language

/-! ### Fragments in an extension -/

/-- The arena and the fragment come from `a` by building something that stands for `l` and keeps to
itself. -/
structure Arena.Builds (a : Arena) (r : Arena × Fragment) (l : Language Char) : Prop where
  extends_fst : a.Extends r.1
  adds : a.Adds r.1 r.2
  words_eq : r.1.words r.2.entry r.2.exit = l

namespace Arena.Builds

variable {a b : Arena} {f : Fragment} {r : Arena × Fragment} {l m : Language Char}

theorem wildcard (a : Arena) (characters : List Char) :
    a.Builds (a.wildcard characters) {w | ∃ c ∈ characters, w = [c]} :=
  ⟨extends_wildcard a characters, adds_wildcard a characters, words_wildcard a characters⟩

/-- The second of two fragments built one after the other does not disturb the first, and no word
leads from one of them to the other. -/
theorem words_crossing (ha : a.IsClosed) (hf : a.Builds (b, f) l) (hg : b.Builds r m) :
    r.1.words f.entry f.exit = l ∧ r.1.words f.entry r.2.exit = 0 ∧
      r.1.words r.2.entry f.exit = 0 := by
  have hb : b.IsClosed := hf.extends_fst.isClosed ha
  have hentry : f.entry < b.size := hf.adds.entry_mem.2
  refine ⟨?_, ?_, ?_⟩
  · rw [hg.extends_fst.words_eq hb hentry]
    exact hf.words_eq
  · rw [hg.extends_fst.words_eq hb hentry]
    exact hb.words_eq_zero hentry hg.adds.exit_mem.1
  · exact hg.extends_fst.words_eq_zero hg.adds.entry_mem.1 hf.adds.exit_mem.2

/-- Of two fragments built one after the other, both are new since the arena before. -/
theorem adds_both (hf : a.Builds (b, f) l) (hg : b.Builds r m) :
    a.Extends r.1 ∧ a.Adds r.1 f ∧ a.Adds r.1 r.2 :=
  ⟨hf.extends_fst.trans hg.extends_fst, hf.adds.mono (Nat.le_refl _) hg.extends_fst.size_le,
    hg.adds.mono hf.extends_fst.size_le (Nat.le_refl _)⟩

theorem concatenate (ha : a.IsClosed) (hf : a.Builds (b, f) l) (hg : b.Builds r m) :
    a.Builds (r.1.concatenate f r.2) (l * m) := by
  obtain ⟨hr, hf', hg'⟩ := hf.adds_both hg
  obtain ⟨hleft, hpast, hback⟩ := words_crossing ha hf hg
  obtain ⟨hextends, hadds⟩ := hr.concatenate hf' hg'
  refine ⟨hextends, hadds, ?_⟩
  rw [words_concatenate_of_apart hf'.exit_mem.2 hpast hback, hleft, hg.words_eq]

theorem alternate (ha : a.IsClosed) (hf : a.Builds (b, f) l) (hg : b.Builds r m) :
    a.Builds (r.1.alternate f r.2) (l + m) := by
  obtain ⟨hr, hf', hg'⟩ := hf.adds_both hg
  obtain ⟨hleft, hpast, hback⟩ := words_crossing ha hf hg
  obtain ⟨hextends, hadds⟩ := hr.alternate hf' hg'
  refine ⟨hextends, hadds, ?_⟩
  rw [words_alternate_of_apart (hr.isClosed ha) hf'.entry_mem.2 hf'.exit_mem.2 hg'.entry_mem.2
    hg'.exit_mem.2 hpast hback, hleft, hg.words_eq]

theorem quantify (ha : a.IsClosed) (hf : a.Builds r l) (q : Quantifier) :
    a.Builds (r.1.quantify q r.2) (q.onLanguage l) := by
  obtain ⟨hextends, hadds⟩ := hf.extends_fst.quantify hf.adds q
  refine ⟨hextends, hadds, ?_⟩
  rw [words_quantify (hf.extends_fst.isClosed ha) hf.adds.entry_mem.2 hf.adds.exit_mem.2,
    hf.words_eq]

end Arena.Builds

/-! ### The construction -/

/-- **The fragment built from a tree stands for the tree.** -/
theorem Tree.builds (t : Tree) {a : Arena} (ha : a.IsClosed) : a.Builds (t.build a) t.language := by
  induction t generalizing a with
  | atom x => exact .wildcard a x.characters
  | concatenation _ left right ihl ihr =>
    -- the right subtree is built in the arena that the left one has left behind
    have hleft := ihl ha
    exact .concatenate ha hleft (ihr (hleft.extends_fst.isClosed ha))
  | alternation _ left right ihl ihr =>
    have hleft := ihl ha
    exact .alternate ha hleft (ihr (hleft.extends_fst.isClosed ha))
  | repetition _ q inner ih => exact .quantify ha (ih ha) q

/-! ### Phrases and their trees -/

/-- A tree under a run of quantifiers means what the run makes of the tree's language. -/
theorem language_foldr_repetition (run : List (Quantifier × Nat)) (t : Tree) :
    (run.foldr (fun x t => Tree.repetition x.2 x.1 t) t).language =
      (run.map (·.1)).foldr Quantifier.onLanguage t.language := by
  induction run with
  | nil => rfl
  | cons x run ih =>
    rw [List.foldr_cons, List.map_cons, List.foldr_cons, ← ih]
    rfl

/-- **A phrase and its tree mean the same.** -/
theorem Phrase.language_tree {k : Category} (e : Phrase k) (start : Nat) :
    (e.tree start).language = e.language := by
  induction e generalizing start with
  | literal c _ =>
    ext w
    simp only [tree, language, Tree.language, Atom.characters, List.mem_singleton, exists_eq_left]
    exact Iff.rfl
  | dot => rfl
  | group inner ih => exact ih (start + 1)
  | factor base run ih =>
    rw [tree, language, Quantifier.foldl_onLanguage, ← ih start]
    have h := language_foldr_repetition (run.zipIdx (start + base.text.length)) (base.tree start)
    rw [List.zipIdx_map_fst] at h
    exact h
  | single f ih => exact ih start
  | juxtapose first rest ihf ihr =>
    show (first.tree start).language * (rest.tree _).language = _
    rw [ihf, ihr, language]
  | branch t ih => exact ih start
  | choice first rest ihf ihr =>
    show (first.tree start).language + (rest.tree _).language = _
    rw [ihf, ihr, language]

end PatternAutomata
