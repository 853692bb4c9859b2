import PatternAutomata.Proofs.Compilation.Assembly
import PatternAutomata.Proofs.Compilation.Basic

/-!
# Applications step by step

When an operator is applied, the height of the stack is compared with the number of its operands,
and these are then taken one by one. Behind the comparison each of them is there, so that it does
not matter what would be answered if one were not; nor does it for an open parenthesis, to which
nothing corresponds. `Assembly.applyChecked dead` gives the answer `dead` in all these cases.

Operators are applied in one place only (`Compilation.applyTighter`), and a compilation can be run
with another way of applying them there (`reportWith`). It does the same if the other way does the
same with those operators that are really applied (`Compilation.applyTighterWith_eq`), and open
parentheses are not among them. So all ways that agree on the others give the same report
(`reportWith_eq`), and the answer `dead` is never seen (`reportWith_applyChecked`).
-/

namespace PatternAutomata

namespace Assembly

variable {s : Assembly} {o : PlacedOperator}

/-- Takes the fragment that arrived last, or answers `dead` if there is none. -/
def pop (dead : Rejection) : List Fragment → Except Rejection (Fragment × List Fragment)
  | [] => .error dead
  | f :: rest => .ok (f, rest)

/-- An application step by step: the height of the stack is compared with the number of operands,
and these are then taken one by one. The answer is `dead` where one cannot be taken all the same,
and for an open parenthesis. -/
def applyChecked (dead : Rejection) (s : Assembly) (o : PlacedOperator) :
    Except Rejection Assembly :=
  if s.fragments.length < o.operator.arity then
    .error ⟨.missingOperand o.operator o.position, s.applied⟩
  else
    match o.operator with
    | .alternation => do
      let (right, rest) ← pop dead s.fragments
      let (left, rest) ← pop dead rest
      let (arena, f) := s.arena.alternate left right
      return ⟨arena, f :: rest, s.applied.push o⟩
    | .concatenation => do
      let (right, rest) ← pop dead s.fragments
      let (left, rest) ← pop dead rest
      let (arena, f) := s.arena.concatenate left right
      return ⟨arena, f :: rest, s.applied.push o⟩
    | .repetition q => do
      let (inner, rest) ← pop dead s.fragments
      let (arena, f) := s.arena.quantify q inner
      return ⟨arena, f :: rest, s.applied.push o⟩
    | .group => .error dead

/-- **After the check every operand can be taken**: what would be answered otherwise does not
matter, unless an open parenthesis is applied. -/
theorem applyChecked_eq (ho : o.operator ≠ .group) (dead : Rejection) :
    s.applyChecked dead o = s.apply o := by
  obtain ⟨arena, fragments, applied⟩ := s
  obtain ⟨operator, position⟩ := o
  cases operator with
  | group => exact absurd rfl ho
  | repetition q =>
    rcases fragments with _ | ⟨f, fragments⟩
    · rfl
    · rfl
  | alternation | concatenation =>
    rcases fragments with _ | ⟨g, _ | ⟨f, fragments⟩⟩
    · rfl
    · rfl
    · rfl

end Assembly

namespace Compilation

variable {s : Compilation} {m : Assembly} {o : PlacedOperator}

/-! ### What is applied -/

/-- The reader may apply `o` to `m`: for some priority, `o` waits among the operators that bind
tighter, and those above it have been applied. -/
def Calls (s : Compilation) (m : Assembly) (o : PlacedOperator) : Prop :=
  ∃ priority made rest,
    (s.operators.takeWhile fun p => decide (priority < p.operator.priority)) = made ++ o :: rest ∧
      s.assembly.applyAll made = .ok m

/-- No open parenthesis is applied, as it binds tighter than nothing. -/
theorem Calls.ne_group (h : s.Calls m o) : o.operator ≠ .group := by
  obtain ⟨priority, made, rest, hsplit, _⟩ := h
  have hmem : o ∈ s.operators.takeWhile fun p => decide (priority < p.operator.priority) := by
    rw [hsplit]
    exact List.mem_append_right made List.mem_cons_self
  have hlt : priority < o.operator.priority := of_decide_eq_true (List.mem_takeWhile_imp hmem :)
  exact Operator.priority_group_lt_iff.1 (Nat.lt_of_le_of_lt (Nat.zero_le priority) hlt)

/-! ### Another way of applying an operator -/

section With

variable (apply : Assembly → PlacedOperator → Except Rejection Assembly)

/-- Applies the operators that bind tighter than the given priority. -/
def applyTighterWith (s : Compilation) (priority : Nat) : Except Rejection Compilation := do
  let isTighter := fun o : PlacedOperator => decide (priority < o.operator.priority)
  let assembly ← (s.operators.takeWhile isTighter).foldlM apply s.assembly
  return ⟨assembly, s.operators.dropWhile isTighter, s.afterOperand⟩

/-- Puts an operator on the stack, after applying those that bind tighter. -/
def pushOperatorWith (s : Compilation) (operator : Operator) (position : Nat) :
    Except Rejection Compilation := do
  let s ← s.applyTighterWith apply operator.priority
  return { s with operators := ⟨operator, position⟩ :: s.operators }

/-- Makes room for an operand. -/
def beginOperandWith (s : Compilation) (position : Nat) : Except Rejection Compilation :=
  if s.afterOperand then s.pushOperatorWith apply .concatenation position else .ok s

/-- Reads a token. -/
def readWith (s : Compilation) (position : Nat) : Token → Except Rejection Compilation
  | .atom a => do
    let ⟨assembly, operators, _⟩ ← s.beginOperandWith apply position
    return ⟨assembly.pushAtom a, operators, true⟩
  | .quantifier q =>
    if s.afterOperand then s.pushOperatorWith apply (.repetition q) position
    else .error ⟨.missingOperand (.repetition q) position, s.assembly.applied⟩
  | .pipe => do
    let s ← s.pushOperatorWith apply .alternation position
    return { s with afterOperand := false }
  | .leftParenthesis => do
    let s ← s.beginOperandWith apply position
    return { s with operators := ⟨.group, position⟩ :: s.operators, afterOperand := false }
  | .rightParenthesis => do
    let s ← s.applyTighterWith apply Operator.group.priority
    match s.operators with
    | [] => throw ⟨.unmatchedParenthesis position, s.assembly.applied⟩
    | _ :: outer => return { s with operators := outer, afterOperand := true }

/-- Reads one character of a pattern. -/
def stepWith (s : Compilation) : Except PatternError Lexeme → Except Rejection Compilation
  | .ok lexeme => s.readWith apply lexeme.position lexeme.token
  | .error e => .error ⟨e, s.assembly.applied⟩

/-- Ends a pattern. -/
def finishWith (s : Compilation) : Except Rejection (Automaton × Array PlacedOperator) := do
  let s ← s.applyTighterWith apply Operator.group.priority
  match s.operators, s.assembly.fragments with
  | [], [f] => return (s.assembly.arena.finish f, s.assembly.applied)
  | _, _ => throw ⟨.malformed, s.assembly.applied⟩

end With

end Compilation

/-- Compiles a pattern with another way of applying an operator. -/
def reportWith (apply : Assembly → PlacedOperator → Except Rejection Assembly) (pattern : String) :
    Report :=
  match ((lexemes pattern).foldlM (Compilation.stepWith apply) {}).bind
    (Compilation.finishWith apply) with
  | .ok (automaton, applied) => ⟨pattern, applied, .ok automaton⟩
  | .error rejection => ⟨pattern, rejection.applied, .error rejection.error⟩

variable {apply : Assembly → PlacedOperator → Except Rejection Assembly}

/-- Ways that agree on what is applied, one operator after the other, do the same. -/
theorem Assembly.foldlM_eq_applyAll {s : Assembly} {l : List PlacedOperator}
    (h : ∀ made o rest m, l = made ++ o :: rest → s.applyAll made = .ok m →
      apply m o = m.apply o) : l.foldlM apply s = s.applyAll l := by
  induction l generalizing s with
  | nil => rfl
  | cons o l ih =>
    rw [List.foldlM_cons, h [] o l s rfl rfl, applyAll_cons]
    cases hm : s.apply o with
    | error r => rfl
    | ok m =>
      refine ih fun made o' rest m' hl hmade => ?_
      apply h (o :: made) o' rest m' (by rw [hl, List.cons_append])
      rw [applyAll_cons, hm]
      exact hmade

namespace Compilation

variable {s : Compilation}

/-- **Only what is applied matters** for the way in which it is. -/
theorem applyTighterWith_eq (h : ∀ m o, s.Calls m o → apply m o = m.apply o) (priority : Nat) :
    s.applyTighterWith apply priority = s.applyTighter priority := by
  have hall : (s.operators.takeWhile fun o => decide (priority < o.operator.priority)).foldlM apply
      s.assembly = s.assembly.applyAll
        (s.operators.takeWhile fun o => decide (priority < o.operator.priority)) :=
    Assembly.foldlM_eq_applyAll fun made o rest m hsplit hmade =>
      h m o ⟨priority, made, rest, hsplit, hmade⟩
  show (List.foldlM apply s.assembly _).bind _ = _
  rw [hall]
  rfl

section

variable (h : ∀ m o, o.operator ≠ .group → apply m o = m.apply o)

include h

theorem applyTighterWith_eq_applyTighter : applyTighterWith apply = applyTighter := by
  funext s priority
  exact applyTighterWith_eq (fun m o hcalls => h m o hcalls.ne_group) priority

theorem stepWith_eq_step : stepWith apply = step := by
  have hread (s : Compilation) (position : Nat) (t : Token) :
      s.readWith apply position t = s.read position t := by
    unfold readWith beginOperandWith pushOperatorWith
    rw [applyTighterWith_eq_applyTighter h]
    cases t <;> rfl
  funext s x
  cases x with
  | ok lexeme => exact hread s lexeme.position lexeme.token
  | error e => rfl

theorem finishWith_eq_finish : finishWith apply = finish := by
  funext s
  unfold finishWith
  rw [applyTighterWith_eq_applyTighter h]
  rfl

end

end Compilation

/-- **All ways of applying an operator give the same report** if they agree on operators that are
not open parentheses. -/
theorem reportWith_eq (h : ∀ m o, o.operator ≠ .group → apply m o = m.apply o) (pattern : String) :
    reportWith apply pattern = report pattern := by
  unfold reportWith
  rw [Compilation.stepWith_eq_step h, Compilation.finishWith_eq_finish h]
  rfl

/-- **The answers that are never given do not matter.** -/
theorem reportWith_applyChecked (dead : Rejection) (pattern : String) :
    reportWith (Assembly.applyChecked dead) pattern = report pattern :=
  reportWith_eq (fun _ _ ho => Assembly.applyChecked_eq ho dead) pattern

end PatternAutomata
