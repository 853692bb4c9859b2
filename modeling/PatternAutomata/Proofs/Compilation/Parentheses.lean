import PatternAutomata.Proofs.Compilation.Log
import PatternAutomata.Proofs.Compilation.Relocation

/-!
# Redundant parentheses

A pattern may be put in parentheses, and so may any atom in it, as often as one likes: what is
compiled is the same automaton, by the same operators in the same order (`compile_parenthesize`).

More than the meaning of the pattern is at stake here, as parentheses act on the stack of operators.
What waits is applied earlier, at a closing parenthesis, or held back, behind an open one. For an
atom this makes no difference. Behind it nothing of its own waits on the stack, in parentheses or
not, and its tree is on the stack of fragments (`Compilation.readText_atom`). So the two
compilations are in the same state there, except for positions, and go on in the same way
(`Compilation.finish_of_relocate_eq`).
-/

namespace PatternAutomata

/-- The text with `n` pairs of parentheses around it. -/
def parenthesize (w : String) : Nat → String
  | 0 => w
  | n + 1 => "(" ++ parenthesize w n ++ ")"

/-- The text is an atom: a character of the alphabet, a dot, or an expression in parentheses. -/
def IsAtom (w : String) : Prop := ∃ x : Phrase .atom, x.text = w.toList

/-- Where the character at the position `k` stands after `n` pairs of parentheses have been put
around the `length` characters from `start` on. The position `start` itself stays, as that of the
operand that begins there: it now begins with a parenthesis. -/
def displace (start length n k : Nat) : Nat :=
  if k ≤ start then k else if k < start + length then k + n else k + 2 * n

variable {f : Nat → Nat} {pattern other : String} {m : Automaton}

/-- The pattern `other` is compiled to the automaton `m` by the operators of `pattern`, in the same
order. The operator that stands at the position `k` of `pattern` stands at `f k` in `other`, and
this is also what the log says. -/
structure IsCompiledAlike (pattern other : String) (f : Nat → Nat) (m : Automaton) : Prop where
  compile_eq : compile other = .ok m
  records_eq : (report other).records =
    (report pattern).applied.toList.map (fun o => .applied (o.relocate f)) ++
      [.compiled other m.size]
  occursIn : ∀ o ∈ (report pattern).applied.toList, (o.relocate f).OccursIn other.toList

/-- It is enough that `other` is read to its end and finished in this way. -/
theorem isCompiledAlike_of_finish
    (h : (Compilation.readText {} 0 other.toList).bind Compilation.finish =
      .ok (m, (report pattern).applied.map (·.relocate f))) :
    IsCompiledAlike pattern other f m := by
  have hreport : report other = ⟨other, (report pattern).applied.map (·.relocate f), .ok m⟩ := by
    rw [Compilation.report_eq, h]
  have hcompile : compile other = .ok m := by
    unfold compile
    rw [hreport]
  have happlied : (report other).applied.toList =
      (report pattern).applied.toList.map (·.relocate f) := by
    rw [hreport, Array.toList_map]
  refine ⟨hcompile, ?_, fun o ho => ?_⟩
  · rw [records_of_compile_eq_ok hcompile, happlied, List.map_map]
    rfl
  · have hmem : o.relocate f ∈ (report other).applied.toList := by
      rw [happlied]
      exact List.mem_map_of_mem ho
    exact ((accounts_of_compile_eq_ok hcompile).mem_iff _).1 hmem

/-! ### Phrases in parentheses -/

theorem toList_parenthesize_succ (w : String) (n : Nat) :
    (parenthesize w (n + 1)).toList = '(' :: (parenthesize w n).toList ++ [')'] := by
  simp [parenthesize]

theorem length_parenthesize (w : String) (n : Nat) :
    (parenthesize w n).toList.length = w.toList.length + 2 * n := by
  induction n with
  | zero => rfl
  | succ n ih =>
    rw [toList_parenthesize_succ, List.cons_append, List.length_cons, List.length_append, ih,
      List.length_singleton]
    omega

namespace Phrase

/-- Each pair of parentheses moves what is within by one character. -/
theorem tree_group_of_forall {e e' : Phrase .expression} {n : Nat}
    (h : ∀ start, e'.tree start = e.tree (start + n)) (start : Nat) :
    (group e').tree start = e.tree (start + (n + 1)) := by
  rw [tree, h, Nat.add_assoc, Nat.add_comm 1 n]

/-- **An expression in parentheses** has the tree of the expression. -/
theorem exists_parenthesize {w : String} (e : Phrase .expression) (he : e.text = w.toList)
    (n : Nat) : ∃ e' : Phrase .expression, e'.text = (parenthesize w n).toList ∧
      ∀ start, e'.tree start = e.tree (start + n) := by
  induction n with
  | zero => exact ⟨e, he, fun _ => rfl⟩
  | succ n ih =>
    obtain ⟨e', htext, htree⟩ := ih
    refine ⟨.branch (.single (.factor (.group e') [])), ?_, tree_group_of_forall htree⟩
    simp [text, htext, toList_parenthesize_succ]

/-- **An atom in parentheses** is an atom, with the tree of the one within. -/
theorem exists_parenthesize_atom {w : String} (x : Phrase .atom) (hx : x.text = w.toList)
    (n : Nat) : ∃ y : Phrase .atom, y.text = (parenthesize w n).toList ∧
      ∀ start, y.tree start = x.tree (start + n) := by
  cases n with
  | zero => exact ⟨x, hx, fun _ => rfl⟩
  | succ n =>
    have htext : (branch (single (factor x []))).text = w.toList := by simp [text, hx]
    obtain ⟨e, he, htree⟩ := exists_parenthesize _ htext n
    refine ⟨.group e, ?_, tree_group_of_forall htree⟩
    rw [text, he, toList_parenthesize_succ]

/-- An atom has no operator at its first character. -/
theorem relocate_tree_atom (x : Phrase .atom) {start start' : Nat}
    (hf : ∀ k, 0 < k → k < x.text.length → f (start + k) = start' + k) :
    (x.tree start).relocate f = x.tree start' := by
  cases x with
  | literal c hc | dot => rfl
  | group inner =>
    have hlength : (group inner).text.length = inner.text.length + 2 := by simp [text]
    refine inner.relocate_tree fun k hk => ?_
    rw [Nat.add_assoc, Nat.add_assoc]
    exact hf (1 + k) (by omega) (by omega)

end Phrase

/-! ### An atom within a pattern -/

namespace Compilation

variable {l r : List Char} {applied : Array PlacedOperator}

/-- **An atom is read in one go**: room is made for it, and then its tree is built. -/
theorem readText_atom (x : Phrase .atom) (s : Compilation) (start : Nat) :
    s.readText start x.text = (s.beginOperand start).map fun s =>
      ⟨s.assembly.pushTree (x.tree start), s.operators, true⟩ := by
  rw [readText_phrase]
  cases s.beginOperand start with
  | error r => rfl
  | ok m =>
    obtain ⟨s', hs', hread⟩ := exists_readText_phrase x m.assembly m.operators
      (fun o _ => Nat.le_succ_of_le o.operator.priority_le) start
    show (⟨m.assembly, m.operators, false⟩ : Compilation).readText start x.text = _
    rw [hs', hread.eq_of_atom]
    rfl

/-- Behind an atom, and behind another one in its place that has the same tree but for the positions
of operators, a compilation is in the same state but for these. -/
theorem readText_append_atom {s : Compilation} {x y : Phrase .atom}
    (hfix : ∀ k ≤ l.length, f k = k) (htree : (x.tree l.length).relocate f = y.tree l.length)
    (h : readText {} 0 (l ++ x.text) = .ok s) :
    readText {} 0 (l ++ y.text) = .ok (s.relocate f) := by
  rw [readText_append] at h
  obtain ⟨before, hbefore, hatom⟩ := exists_of_bind_eq_ok h
  rw [readText_atom, Nat.zero_add] at hatom
  cases hroom : before.beginOperand l.length with
  | error e =>
    rw [hroom] at hatom
    cases hatom
  | ok room =>
    rw [hroom] at hatom
    cases hatom
    -- all that has been read stands where it stood, and so does the concatenation to the atom
    have hsame : room.relocate f = room := by
      have hagain := beginOperand_relocate (f := f) hroom
      rw [relocate_eq_self hbefore fun k hk => hfix k (Nat.le_of_lt hk), hfix _ (Nat.le_refl _),
        hroom] at hagain
      exact (Except.ok.inj hagain).symm
    have hassembly : room.assembly.relocate f = room.assembly :=
      congrArg Compilation.assembly hsame
    have hoperators : room.operators.map (·.relocate f) = room.operators :=
      congrArg Compilation.operators hsame
    rw [readText_append_of_ok hbefore, readText_atom, Nat.zero_add, hroom]
    unfold relocate
    rw [Assembly.relocate_pushTree, htree, hassembly, hoperators]
    rfl

/-- **An atom in a pattern can be exchanged for another one** that has the same tree, but for the
positions of operators. -/
theorem finish_of_relocate_eq {x y : Phrase .atom} (hfix : ∀ k ≤ l.length, f k = k)
    (htree : (x.tree l.length).relocate f = y.tree l.length)
    (hf : Shifts f (l ++ x.text).length (l ++ y.text).length r.length)
    (h : (readText {} 0 (l ++ x.text ++ r)).bind finish = .ok (m, applied)) :
    (readText {} 0 (l ++ y.text ++ r)).bind finish = .ok (m, applied.map (·.relocate f)) := by
  obtain ⟨s, hs, hfinish⟩ := exists_of_bind_eq_ok h
  rw [readText_append] at hs
  obtain ⟨behind, hbehind, hrest⟩ := exists_of_bind_eq_ok hs
  rw [Nat.zero_add] at hrest
  rw [readText_append_of_ok (readText_append_atom hfix htree hbehind), Nat.zero_add,
    readText_relocate hrest hf]
  exact finish_relocate hfinish

end Compilation

/-! ### Compiling -/

theorem displace_of_le {start length n k : Nat} (hk : k ≤ start) :
    displace start length n k = k := if_pos hk

theorem displace_inside {start length n k : Nat} (hpos : 0 < k) (hk : k < length) :
    displace start length n (start + k) = start + n + k := by
  unfold displace
  rw [if_neg (by omega), if_pos (by omega), Nat.add_right_comm]

theorem shifts_displace {start length : Nat} (n : Nat) (hlength : 0 < length) (rest : Nat) :
    Shifts (displace start length n) (start + length) (start + (length + 2 * n)) rest := by
  intro k _
  unfold displace
  rw [if_neg (by omega), if_neg (by omega)]
  omega

/-- **Redundant parentheses change nothing.** If a pattern that compiles, or an atom in it, is put
in parentheses any number of times, what results is compiled to the same automaton, by the same
operators in the same order, each of which stands in the log with its new position. -/
theorem compile_parenthesize (h : compile pattern = .ok m) (n : Nat) :
    IsCompiledAlike pattern (parenthesize pattern n) (· + n) m ∧
      ∀ l w r : String, pattern = l ++ w ++ r → IsAtom w →
        IsCompiledAlike pattern (l ++ parenthesize w n ++ r) (displace l.length w.length n) m := by
  have hfinish := Compilation.finish_of_compile_eq_ok h
  constructor
  · apply isCompiledAlike_of_finish
    obtain ⟨e, he⟩ := isPattern_of_compile_eq_ok h
    obtain ⟨e', he', htree⟩ := e.exists_parenthesize he n
    have hmoved : (e.tree 0).relocate (· + n) = e'.tree 0 := by
      rw [htree, Nat.zero_add]
      exact e.relocate_tree fun k _ => by show 0 + k + n = n + k; omega
    rw [← he, Compilation.finish_phrase] at hfinish
    obtain ⟨hautomaton, happlied⟩ := Prod.mk.inj (Except.ok.inj hfinish)
    rw [← he', Compilation.finish_phrase, ← hmoved, Tree.automaton_relocate, hautomaton,
      Tree.applications_relocate, ← happlied, List.map_toArray]
  · rintro l w r rfl ⟨x, hx⟩
    obtain ⟨y, hy, htree⟩ := x.exists_parenthesize_atom hx n
    apply isCompiledAlike_of_finish
    have hlength : 0 < x.text.length := List.length_pos_iff.2 x.text_ne_nil
    have hw : w.length = x.text.length := by rw [hx, String.length_toList]
    have hl : l.length = l.toList.length := String.length_toList.symm
    have hbehind : (l.toList ++ y.text).length = l.toList.length + (x.text.length + 2 * n) := by
      rw [List.length_append, hy, length_parenthesize, hx]
    rw [String.toList_append, String.toList_append, ← hx] at hfinish
    rw [String.toList_append, String.toList_append, ← hy, hw, hl]
    refine Compilation.finish_of_relocate_eq (fun k hk => displace_of_le hk) ?_ ?_ hfinish
    · rw [htree]
      exact x.relocate_tree_atom fun k hpos hk => displace_inside hpos hk
    · rw [List.length_append, hbehind]
      exact shifts_displace n hlength _

/-- A group under a quantifier, with operators before it, in it and behind it. -/
theorem compile_parenthesize_group :
    ∃ m, compile "a(b|c)*d" = .ok m ∧ compile "((a(b|c)*d))" = .ok m ∧
      compile "a(((b|c)))*d" = .ok m ∧ (report "a(((b|c)))*d").records =
        [.applied ⟨.alternation, 5⟩, .applied ⟨.repetition .star, 10⟩,
          .applied ⟨.concatenation, 11⟩, .applied ⟨.concatenation, 1⟩,
          .compiled "a(((b|c)))*d" m.size] := by
  obtain ⟨m, hm⟩ : ∃ m, compile "a(b|c)*d" = .ok m := ⟨_, rfl⟩
  have hatom : IsAtom "(b|c)" :=
    ⟨.group (.choice (.single (.factor (.literal 'b' (by decide)) []))
      (.branch (.single (.factor (.literal 'c' (by decide)) [])))), rfl⟩
  obtain ⟨hwhole, hinner⟩ := compile_parenthesize hm 2
  have hgroup := hinner "a" "(b|c)" "*d" rfl hatom
  exact ⟨m, hm, hwhole.compile_eq, hgroup.compile_eq, hgroup.records_eq⟩

-- two atoms are not one: parentheses around them turn round the order of the concatenations
example : (report "abc").applied = #[⟨.concatenation, 2⟩, ⟨.concatenation, 1⟩] ∧
    (report "(ab)c").applied = #[⟨.concatenation, 2⟩, ⟨.concatenation, 4⟩] := ⟨rfl, rfl⟩

end PatternAutomata
