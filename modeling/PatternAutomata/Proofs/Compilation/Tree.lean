import PatternAutomata.Phrase.Tree
import PatternAutomata.Proofs.Compilation.Assembly
import PatternAutomata.Proofs.Compilation.Basic

/-!
# The one-pass compilation and the tree

A pattern is compiled without a tree, and operators are applied late: some when a later token
arrives, some at a closing parenthesis, some at the end. What is built in the end is nevertheless
exactly what `Tree.build` builds, state by state and edge by edge (`compile_eq_automaton`).

The invariant is `Compilation.HasRead`: an operand has been read if applying the operators that it
has left on the stack would complete its tree. Its text alone decides which operators these are: a
phrase leaves only operators of at least its own level (`Category.level`), and an operator that is
on the stack before does not bind tighter than that, so that no operator arriving inside the phrase
makes it move.
-/

namespace PatternAutomata

/-- The least priority of an operator that can wait once a phrase of the category has been read. -/
def Category.level : Category → Nat
  | expression => 1
  | term => 2
  | factor => 3
  | atom => 4

/-- No operator binds tighter than a quantifier. -/
theorem Operator.priority_le (o : Operator) : o.priority ≤ 3 := by
  cases o with
  | group | alternation | concatenation | repetition _ => simp [priority]

/-! ### Where a phrase begins -/

/-- The first character of a phrase is a token with which an operand begins. -/
theorem Phrase.exists_text_eq_cons {k : Category} (e : Phrase k) :
    ∃ c t rest, e.text = c :: rest ∧ Token.ofChar? c = some t ∧ t.beginsOperand = true := by
  induction e with
  | literal c hc => exact ⟨c, _, [], rfl, Token.ofChar?_literal hc, rfl⟩
  | dot => exact ⟨'.', _, [], rfl, rfl, rfl⟩
  | group inner => exact ⟨'(', _, _, rfl, rfl, rfl⟩
  | factor base run ih =>
    obtain ⟨c, t, l, htext, ht⟩ := ih
    exact ⟨c, t, l ++ run.map Quantifier.toChar, by rw [text, htext, List.cons_append], ht⟩
  | juxtapose first rest ih _ =>
    obtain ⟨c, t, l, htext, ht⟩ := ih
    exact ⟨c, t, l ++ rest.text, by rw [text, htext, List.cons_append], ht⟩
  | choice first rest ih _ =>
    obtain ⟨c, t, l, htext, ht⟩ := ih
    exact ⟨c, t, l ++ '|' :: rest.text, by rw [text, htext, List.cons_append], ht⟩
  | single f ih | branch f ih => exact ih

namespace Compilation

variable {s : Compilation} {lower : List PlacedOperator} {o : PlacedOperator} {level priority : Nat}
  {done next : Assembly}

/-- A phrase that follows an operand directly is read as if nothing came before it, once there is
room for it. -/
theorem readText_phrase {k : Category} (e : Phrase k) (s : Compilation) (start : Nat) :
    s.readText start e.text =
      (s.beginOperand start).bind fun s =>
        { s with afterOperand := false }.readText start e.text := by
  obtain ⟨c, t, rest, htext, hc, ht⟩ := e.exists_text_eq_cons
  rw [htext]
  simp only [readText_cons, step_ofChar hc]
  rw [read_of_beginsOperand ht]
  cases s.beginOperand start <;> rfl

/-! ### Operands read up to waiting operators -/

/-- An operand has been read, up to operators that wait above `lower`. They bind at least as tight
as `level`, and applying them gives `done`. -/
def HasRead (s : Compilation) (lower : List PlacedOperator) (level : Nat) (done : Assembly) :
    Prop :=
  ∃ assembly upper, s = ⟨assembly, upper ++ lower, true⟩ ∧
    (∀ o ∈ upper, level ≤ o.operator.priority) ∧ assembly.applyAll upper = .ok done

namespace HasRead

theorem of_done : HasRead ⟨done, lower, true⟩ lower level done :=
  ⟨done, [], rfl, nofun, rfl⟩

theorem mono {level' : Nat} (h : s.HasRead lower level done) (hle : level' ≤ level) :
    s.HasRead lower level' done := by
  obtain ⟨assembly, upper, hs, hlevel, happly⟩ := h
  exact ⟨assembly, upper, hs, fun o ho => Nat.le_trans hle (hlevel o ho), happly⟩

/-- An operator below the operand that was waiting for it belongs to a larger operand. -/
theorem push (h : s.HasRead (o :: lower) level done) (ho : level ≤ o.operator.priority)
    (happly : done.apply o = .ok next) : s.HasRead lower level next := by
  obtain ⟨assembly, upper, rfl, hlevel, hdone⟩ := h
  refine ⟨assembly, upper ++ [o], by rw [List.append_assoc]; rfl, ?_, ?_⟩
  · intro o' ho'
    rcases List.mem_append.1 ho' with ho' | ho'
    · exact hlevel o' ho'
    · rw [List.mem_singleton.1 ho']
      exact ho
  · rw [Assembly.applyAll_concat hdone, happly]

/-- An operator arrives that binds less tight: the operand is completed. -/
theorem applyTighter (h : s.HasRead lower level done) (hlevel : priority < level)
    (hlower : ∀ o ∈ lower.head?, o.operator.priority ≤ priority) :
    s.applyTighter priority = .ok ⟨done, lower, true⟩ := by
  obtain ⟨assembly, upper, rfl, hupper, happly⟩ := h
  rw [applyTighter_append (fun o ho => Nat.lt_of_lt_of_le hlevel (hupper o ho)) hlower, happly]
  rfl

/-- A phrase of an atom's level leaves nothing waiting, as no operator binds so tight. -/
theorem eq_of_atom (h : s.HasRead lower Category.atom.level done) : s = ⟨done, lower, true⟩ := by
  obtain ⟨assembly, upper, rfl, hupper, happly⟩ := h
  cases upper with
  | nil =>
    cases happly
    rfl
  | cons o upper =>
    have ho : 4 ≤ o.operator.priority := hupper o List.mem_cons_self
    have hle : o.operator.priority ≤ 3 := o.operator.priority_le
    omega

/-! ### What completes an operand -/

/-- An operator that binds less tight completes the operand and waits itself. -/
theorem pushOperator (h : s.HasRead lower level done) (operator : Operator)
    (hlevel : operator.priority < level)
    (hlower : ∀ o ∈ lower.head?, o.operator.priority ≤ operator.priority) (position : Nat) :
    s.pushOperator operator position = .ok ⟨done, ⟨operator, position⟩ :: lower, true⟩ := by
  unfold Compilation.pushOperator
  rw [h.applyTighter hlevel hlower]
  rfl

/-- A bar completes a term. -/
theorem read_pipe (h : s.HasRead lower Category.term.level done)
    (hlower : ∀ o ∈ lower.head?, o.operator.priority ≤ 1) (position : Nat) :
    s.read position .pipe = .ok ⟨done, ⟨.alternation, position⟩ :: lower, false⟩ := by
  show s.readBar position = _
  unfold readBar
  rw [h.pushOperator .alternation (by decide) hlower]
  rfl

/-- An operand right behind a factor completes the factor. -/
theorem beginOperand (h : s.HasRead lower Category.factor.level done)
    (hlower : ∀ o ∈ lower.head?, o.operator.priority ≤ 2) (position : Nat) :
    s.beginOperand position = .ok ⟨done, ⟨.concatenation, position⟩ :: lower, true⟩ := by
  have hflag : s.afterOperand = true := by
    obtain ⟨_, _, rfl, _⟩ := h
    rfl
  unfold Compilation.beginOperand
  rw [hflag, if_pos rfl, h.pushOperator .concatenation (by decide) hlower]

/-- A closing parenthesis completes an expression. -/
theorem read_rightParenthesis {p : Nat}
    (h : s.HasRead (⟨.group, p⟩ :: lower) Category.expression.level done) (position : Nat) :
    s.read position .rightParenthesis = .ok ⟨done, lower, true⟩ := by
  have hlower : ∀ o ∈ (⟨.group, p⟩ :: lower : List PlacedOperator).head?,
      o.operator.priority ≤ Operator.group.priority := by
    rintro _ ⟨⟩
    exact Nat.le_refl _
  show s.closeGroup position = _
  unfold closeGroup
  rw [h.applyTighter (by decide) hlower]
  rfl

/-- The end of the pattern completes an expression, and there is nothing else. -/
theorem finish_eq {t : Tree}
    (h : s.HasRead [] Category.expression.level (({} : Assembly).pushTree t)) :
    s.finish = .ok (t.automaton, t.applications.toArray) := by
  unfold finish
  rw [h.applyTighter (by decide) nofun]
  simp [Assembly.pushTree, Tree.automaton, bind, Except.bind, pure, Except.pure]

end HasRead

/-! ### Reading a phrase -/

/-- A quantifier moves nothing on the stack and waits there. -/
theorem read_quantifier (assembly : Assembly) (lower : List PlacedOperator) (position : Nat)
    (q : Quantifier) :
    (⟨assembly, lower, true⟩ : Compilation).read position (.quantifier q) =
      .ok ⟨assembly, ⟨.repetition q, position⟩ :: lower, true⟩ := by
  have h : HasRead ⟨assembly, lower, true⟩ lower Category.atom.level assembly := .of_done
  exact h.pushOperator (.repetition q) (Nat.lt_succ_self 3) (fun o _ => o.operator.priority_le)
    position

/-- Of a run of quantifiers the last one is applied first. -/
theorem exists_readText_run (run : List Quantifier) (assembly : Assembly) (t : Tree)
    (lower : List PlacedOperator) (start : Nat) :
    ∃ s, (⟨assembly.pushTree t, lower, true⟩ : Compilation).readText start
        (run.map Quantifier.toChar) = .ok s ∧
      s.HasRead lower Category.factor.level (assembly.pushTree
        ((run.zipIdx start).foldr (fun (q, position) t => .repetition position q t) t)) := by
  induction run generalizing lower start with
  | nil => exact ⟨_, rfl, .of_done⟩
  | cons q run ih =>
    -- the first quantifier waits below the others and takes what they have made
    obtain ⟨s, hs, hread⟩ := ih (⟨.repetition q, start⟩ :: lower) (start + 1)
    have hq : Token.ofChar? q.toChar = some (.quantifier q) :=
      Token.ofChar?_toChar (.quantifier q) trivial
    refine ⟨s, ?_, hread.push (Nat.le_refl _) (Assembly.apply_pushTree _ _ _ _)⟩
    rw [List.map_cons, readText_cons, step_ofChar hq, read_quantifier]
    exact hs

/-- **A phrase is read up to operators of its level, and these complete its tree.** -/
theorem exists_readText_phrase {k : Category} (e : Phrase k) (assembly : Assembly)
    (lower : List PlacedOperator) (hlower : ∀ o ∈ lower.head?, o.operator.priority ≤ k.level)
    (start : Nat) :
    ∃ s, (⟨assembly, lower, false⟩ : Compilation).readText start e.text = .ok s ∧
      s.HasRead lower k.level (assembly.pushTree (e.tree start)) := by
  induction e generalizing assembly lower start with
  | literal c hc =>
    refine ⟨_, ?_, .of_done⟩
    rw [Phrase.text, readText_singleton (Token.ofChar?_literal hc)]
    rfl
  | dot =>
    refine ⟨_, ?_, .of_done⟩
    rw [Phrase.text, readText_singleton (show Token.ofChar? '.' = some (.atom .dot) from rfl)]
    rfl
  | group inner ih =>
    obtain ⟨s, hs, hread⟩ := ih assembly (⟨.group, start⟩ :: lower)
      (by rintro _ ⟨⟩; exact Nat.zero_le _) (start + 1)
    refine ⟨_, ?_, .of_done⟩
    -- the open parenthesis holds back what is below it, and its counterpart removes it again
    show Compilation.readText _ start (('(' :: inner.text) ++ [')']) = _
    have hopen : (⟨assembly, lower, false⟩ : Compilation).readText start ('(' :: inner.text) =
        .ok s := by
      rw [readText_cons, step_ofChar (t := .leftParenthesis) rfl]
      exact hs
    rw [readText_append_of_ok hopen, readText_singleton (t := .rightParenthesis) rfl,
      hread.read_rightParenthesis]
    rfl
  | factor base run ih =>
    obtain ⟨s, hs, hread⟩ := ih assembly lower (fun o _ => Nat.le_succ_of_le o.operator.priority_le)
      start
    obtain ⟨s', hs', hread'⟩ :=
      exists_readText_run run assembly (base.tree start) lower (start + base.text.length)
    refine ⟨s', ?_, hread'⟩
    -- behind the atom nothing waits, so that the run finds its tree finished
    rw [Phrase.text, readText_append_of_ok hs, hread.eq_of_atom, hs']
  | single f ih =>
    obtain ⟨s, hs, hread⟩ := ih assembly lower (fun o _ => o.operator.priority_le) start
    exact ⟨s, hs, hread.mono (by decide)⟩
  | juxtapose first rest ihf ihr =>
    obtain ⟨s, hs, hread⟩ := ihf assembly lower (fun o _ => o.operator.priority_le) start
    -- the concatenation completes the factor and waits while the rest of the term is read
    obtain ⟨s', hs', hread'⟩ := ihr (assembly.pushTree (first.tree start))
      (⟨.concatenation, start + first.text.length⟩ :: lower) (by rintro _ ⟨⟩; exact Nat.le_refl _)
      (start + first.text.length)
    refine ⟨s', ?_, hread'.push (Nat.le_refl _) (Assembly.apply_pushTree_pushTree _ _ _ _).1⟩
    rw [Phrase.text, readText_append_of_ok hs, readText_phrase, hread.beginOperand hlower]
    exact hs'
  | branch t ih =>
    obtain ⟨s, hs, hread⟩ := ih assembly lower
      (fun o ho => Nat.le_succ_of_le (hlower o ho)) start
    exact ⟨s, hs, hread.mono (by decide)⟩
  | choice first rest ihf ihr =>
    obtain ⟨s, hs, hread⟩ := ihf assembly lower
      (fun o ho => Nat.le_succ_of_le (hlower o ho)) start
    -- the bar completes the term and waits while the rest of the expression is read
    obtain ⟨s', hs', hread'⟩ := ihr (assembly.pushTree (first.tree start))
      (⟨.alternation, start + first.text.length⟩ :: lower) (by rintro _ ⟨⟩; exact Nat.le_refl _)
      (start + first.text.length + 1)
    refine ⟨s', ?_, hread'.push (Nat.le_refl _) (Assembly.apply_pushTree_pushTree _ _ _ _).2⟩
    rw [Phrase.text, readText_append_of_ok hs, readText_cons, step_ofChar (t := .pipe) rfl,
      hread.read_pipe hlower]
    exact hs'

end Compilation

/-! ### Compiling a phrase -/

/-- A phrase is read to its end, and what waits there completes its tree. -/
theorem Compilation.finish_phrase (e : Phrase .expression) :
    (readText {} 0 e.text).bind finish =
      .ok ((e.tree 0).automaton, (e.tree 0).applications.toArray) := by
  obtain ⟨s, hs, hread⟩ := exists_readText_phrase e {} [] nofun 0
  rw [hs]
  exact hread.finish_eq

/-- The report on the text of a phrase: the automaton of its tree, and the operators of the tree in
the order in which it is built. -/
theorem report_of_text {pattern : String} {e : Phrase .expression} (he : e.text = pattern.toList) :
    report pattern =
      ⟨pattern, (e.tree 0).applications.toArray, .ok (e.tree 0).automaton⟩ := by
  rw [Compilation.report_eq, ← he, Compilation.finish_phrase]

theorem report_phrase (e : Phrase .expression) :
    report (String.ofList e.text) =
      ⟨String.ofList e.text, (e.tree 0).applications.toArray, .ok (e.tree 0).automaton⟩ :=
  report_of_text String.toList_ofList.symm

/-- The text of a phrase compiles to the automaton of the tree. -/
theorem compile_of_text {pattern : String} {e : Phrase .expression} (he : e.text = pattern.toList) :
    compile pattern = .ok (e.tree 0).automaton := by
  unfold compile
  rw [report_of_text he]

/-- **A pattern is compiled to the automaton of its tree, which is built in an empty arena subtree
by subtree**: the same states in the same order, the same edges in the same order. The log names the
operators of the tree, each behind those of its operands, and then the size of the automaton. -/
theorem compile_eq_automaton (e : Phrase .expression) :
    compile (String.ofList e.text) = .ok (e.tree 0).automaton ∧
      (report (String.ofList e.text)).records =
        (e.tree 0).applications.map .applied ++
          [.compiled (String.ofList e.text) (e.tree 0).automaton.size] := by
  unfold compile
  rw [report_phrase]
  exact ⟨rfl, rfl⟩

end PatternAutomata
