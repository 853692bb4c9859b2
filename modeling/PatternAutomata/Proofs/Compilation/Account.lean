import Mathlib.Data.List.Perm.Subperm
import PatternAutomata.Proofs.Compilation.Failure
import PatternAutomata.Proofs.Compilation.Grammar
import PatternAutomata.Proofs.Phrase.Occurrence

/-!
# An account of the operators

Operators are scanned in one order, wait in another and are applied in a third. What never changes
is that each of those scanned so far either has been applied or still waits: put together
(`Compilation.account`), the two lists name all operators that occur in the text that has been read,
and each of them once (`accounts_of_readText`). To apply an operator moves it from one list to the
other and leaves the account as it is.

Where a compilation fails, the operators applied and the one that is blamed are part of the account
of the text up to there: the blamed operator is the one at the boundary of the two lists, or it is
the quantifier that has just arrived (`named_of_read_eq_error`).
-/

namespace PatternAutomata

/-! ### What is named -/

/-- The operator that an error blames, if it blames one. -/
def PatternError.blamed : PatternError → List PlacedOperator
  | missingOperand operator position => [⟨operator, position⟩]
  | _ => []

/-- The operators that have been applied before a failure, and the one that is blamed. -/
def Rejection.named (r : Rejection) : List PlacedOperator := r.applied.toList ++ r.error.blamed

/-- An error that blames no operator adds none. -/
theorem Rejection.named_of_blamed_eq_nil {r : Rejection} (h : r.error.blamed = []) :
    r.named = r.applied.toList := by
  rw [named, h, List.append_nil]

/-- The operators that a report names: those applied, and the one that is blamed. -/
def Report.named (r : Report) : List PlacedOperator :=
  r.applied.toList ++
    match r.result with
    | .ok _ => []
    | .error e => e.blamed

/-! ### Applications -/

/-- Applied operators are entered in their order. An open parenthesis is not among them. -/
theorem Assembly.applied_of_applyAll {s s' : Assembly} {l : List PlacedOperator}
    (h : s.applyAll l = .ok s') :
    s'.applied.toList = s.applied.toList ++ l ∧ ∀ o ∈ l, o.operator ≠ .group := by
  induction l generalizing s with
  | nil =>
    cases h
    exact ⟨(List.append_nil _).symm, List.forall_mem_nil _⟩
  | cons o l ih =>
    rw [applyAll_cons] at h
    obtain ⟨m, hm, hrest⟩ := exists_of_bind_eq_ok h
    obtain ⟨hgroup, _, happlied⟩ := length_of_apply hm
    obtain ⟨hlist, hl⟩ := ih hrest
    refine ⟨?_, List.forall_mem_cons.2 ⟨hgroup, hl⟩⟩
    rw [hlist, happlied, Array.toList_push, List.append_assoc]
    rfl

namespace Compilation

variable {s s' : Compilation} {priority position : Nat} {t : Token} {r : Rejection}
  {text : List Char}

/-- The operators scanned so far: those applied, and those that wait. -/
def account (s : Compilation) : List PlacedOperator :=
  s.assembly.applied.toList ++ s.operators.filter (!·.isGroup)

theorem applied_prefix_account (s : Compilation) : s.assembly.applied.toList <+: s.account :=
  List.prefix_append _ _

theorem filter_eq_self_of_ne_group {l : List PlacedOperator} (hl : ∀ o ∈ l, o.operator ≠ .group) :
    l.filter (!·.isGroup) = l := by
  refine List.filter_eq_self.2 fun o ho => ?_
  rw [PlacedOperator.isGroup, decide_eq_false (hl o ho)]
  rfl

/-- To apply operators does not change the account. -/
theorem account_applyTighter (h : s.applyTighter priority = .ok s') : s'.account = s.account := by
  obtain ⟨made, hoperators, hall, _, _⟩ := exists_of_applyTighter h
  obtain ⟨happlied, hmade⟩ := Assembly.applied_of_applyAll hall
  unfold account
  rw [happlied, hoperators, List.filter_append, filter_eq_self_of_ne_group hmade,
    List.append_assoc]

/-- The operator that cannot be applied comes right behind those that have been. -/
theorem named_of_applyTighter_eq_error (h : s.applyTighter priority = .error r) :
    r.named <+: s.account := by
  obtain ⟨made, o, rest, m, hsplit, hlt, hall, hlast⟩ := exists_of_applyTighter_eq_error h
  have hgroup : o.operator ≠ .group :=
    Operator.priority_group_lt_iff.1 (Nat.lt_of_le_of_lt (Nat.zero_le priority) hlt)
  obtain ⟨happlied, hmade⟩ := Assembly.applied_of_applyAll hall
  have hfilter : (made ++ [o]).filter (!·.isGroup) = made ++ [o] :=
    filter_eq_self_of_ne_group (List.forall_mem_append.2
      ⟨hmade, List.forall_mem_singleton.2 hgroup⟩)
  refine ⟨rest.filter (!·.isGroup), ?_⟩
  rw [(Assembly.apply_eq_error hgroup hlast).1]
  show m.applied.toList ++ [o] ++ _ = _
  unfold account
  rw [hsplit, List.append_cons made, List.filter_append, hfilter, happlied]
  simp only [List.append_assoc]

/-! ### The tokens -/

theorem account_push (assembly : Assembly) (l : List PlacedOperator) (flag : Bool)
    {o : PlacedOperator} (hgroup : o.operator ≠ .group) :
    (account ⟨assembly, o :: l, flag⟩).Perm (o :: account ⟨assembly, l, flag⟩) := by
  unfold account
  have hfilter : (o :: l).filter (!·.isGroup) = o :: l.filter (!·.isGroup) := by
    rw [← List.singleton_append, List.filter_append,
      filter_eq_self_of_ne_group (List.forall_mem_singleton.2 hgroup)]
    rfl
  simp only [hfilter]
  exact List.perm_middle

theorem account_pushOperator {operator : Operator} (hgroup : operator ≠ .group)
    (h : s.pushOperator operator position = .ok s') :
    s'.account.Perm (⟨operator, position⟩ :: s.account) := by
  obtain ⟨m, hm, hs'⟩ := exists_of_bind_eq_ok h
  cases hs'
  rw [← account_applyTighter hm]
  exact account_push m.assembly m.operators m.afterOperand hgroup

theorem account_beginOperand (h : s.beginOperand position = .ok s') :
    s'.account.Perm
      ((if s.afterOperand then [⟨.concatenation, position⟩] else []) ++ s.account) := by
  unfold beginOperand at h
  split_ifs at h ⊢
  · exact account_pushOperator (by decide) h
  · cases h
    exact .refl _

/-- **A token adds to the account what it brings**, and the next one will find whether an operand
has ended. -/
theorem account_read (h : s.read position t = .ok s') :
    s'.account.Perm (t.brings s.afterOperand position ++ s.account) ∧
      s'.afterOperand = t.endsOperand := by
  cases t with
  | atom a =>
    obtain ⟨m, hm, hs'⟩ := exists_of_bind_eq_ok h
    cases hs'
    have hperm := account_beginOperand hm
    exact ⟨hperm, rfl⟩
  | leftParenthesis =>
    obtain ⟨m, hm, hs'⟩ := exists_of_bind_eq_ok h
    cases hs'
    have hperm := account_beginOperand hm
    exact ⟨hperm, rfl⟩
  | quantifier q =>
    obtain ⟨hflag, hpush⟩ := read_quantifier_eq_ok_iff.1 h
    have hgroup : Operator.repetition q ≠ .group := nofun
    have houtline := (pushOperator_eq_ok hgroup hpush).2
    refine ⟨account_pushOperator hgroup hpush, ?_⟩
    exact (congrArg Outline.afterOperand houtline).trans hflag
  | pipe =>
    obtain ⟨m, hm, hs'⟩ := exists_of_bind_eq_ok h
    cases hs'
    have hperm := account_pushOperator (by decide) hm
    exact ⟨hperm, rfl⟩
  | rightParenthesis =>
    obtain ⟨p, flag, hm, hflag⟩ := closeGroup_eq_ok h
    refine ⟨?_, hflag⟩
    -- the open parenthesis was not in the account, so it is not missed
    rw [Token.brings, List.nil_append, ← account_applyTighter hm]
    exact .refl _

/-- **A token that is refused** leaves the operators named in the account, or is blamed itself. -/
theorem named_of_read_eq_error (h : s.read position t = .error r) :
    r.named.Subperm (t.brings s.afterOperand position ++ s.account) := by
  have hold (hnamed : r.named <+: s.account) :
      r.named.Subperm (t.brings s.afterOperand position ++ s.account) :=
    (hnamed.sublist.trans (List.sublist_append_right _ _)).subperm
  rcases exists_of_read_eq_error h with
    ⟨_, htighter, _⟩ | ⟨q, rfl, _, rfl⟩ | ⟨_, m, hm, _, rfl⟩
  · exact hold (named_of_applyTighter_eq_error htighter)
  · have hprefix := s.applied_prefix_account
    exact List.perm_append_comm.subperm.trans ((List.subperm_cons _).2 hprefix.sublist.subperm)
  · refine hold ?_
    rw [← account_applyTighter hm, Rejection.named_of_blamed_eq_nil rfl]
    exact m.applied_prefix_account

/-! ### Texts -/

/-- **The account of a text** names all operators that occur in it. -/
theorem accounts_of_readText (h : readText {} 0 text = .ok s) :
    Accounts s.account text ∧ (s.afterOperand = true ↔ EndsWithOperand text) := by
  induction text using List.reverseRecOn generalizing s with
  | nil =>
    cases h
    exact ⟨.empty, by simp [EndsWithOperand]⟩
  | append_singleton text c ih =>
    obtain ⟨m, t, hm, hc, hread⟩ := exists_of_readText_concat h
    obtain ⟨rfl, ht⟩ := Token.ofChar?_eq_some_iff.1 hc
    obtain ⟨haccounts, hflag⟩ := ih hm
    rw [Nat.zero_add] at hread
    obtain ⟨hperm, hflag'⟩ := account_read hread
    refine ⟨(haccounts.concat ht hflag).perm hperm, ?_⟩
    rw [hflag', endsWithOperand_concat_iff ht]

/-- A text that is refused names operators that occur in it, each once. -/
theorem named_of_readText_eq_error (h : readText {} 0 text = .error r) :
    (r.named.map (·.position)).Nodup ∧ ∀ o ∈ r.named, o.OccursIn text := by
  obtain ⟨l, c, rest, m, rfl, hm, hstep⟩ := exists_of_readText_eq_error h
  obtain ⟨haccounts, hflag⟩ := accounts_of_readText hm
  cases hc : Token.ofChar? c with
  | none =>
    rw [step_ofChar_of_none hc] at hstep
    cases hstep
    obtain ⟨hnodup, hmem⟩ := haccounts.of_subperm m.applied_prefix_account.sublist.subperm
    rw [Rejection.named_of_blamed_eq_nil rfl]
    exact ⟨hnodup, fun o ho => (hmem o ho).mono (List.prefix_append _ _)⟩
  | some t =>
    rw [step_ofChar hc, Nat.zero_add] at hstep
    obtain ⟨rfl, ht⟩ := Token.ofChar?_eq_some_iff.1 hc
    obtain ⟨hnodup, hmem⟩ := (haccounts.concat ht hflag).of_subperm (named_of_read_eq_error hstep)
    exact ⟨hnodup, fun o ho => (hmem o ho).mono ⟨rest, by simp⟩⟩

/-- At the end of the text the whole account has been applied. -/
theorem account_of_finish {m : Automaton} {applied : Array PlacedOperator}
    (h : s.finish = .ok (m, applied)) : applied.toList = s.account := by
  obtain ⟨⟨⟨arena, fragments, done⟩, l, flag⟩, hm, hs'⟩ := exists_of_bind_eq_ok h
  rw [← account_applyTighter hm]
  rcases l with _ | ⟨o, l⟩
  · rcases fragments with _ | ⟨f, _ | ⟨g, fragments⟩⟩
    · cases hs'
    · cases hs'
      exact (List.append_nil _).symm
    · cases hs'
  · cases hs'

theorem named_of_finish_eq_error (h : s.finish = .error r) : r.named <+: s.account := by
  rcases exists_of_finish_eq_error h with htighter | ⟨m, hm, rfl⟩
  · exact named_of_applyTighter_eq_error htighter
  · rw [← account_applyTighter hm, Rejection.named_of_blamed_eq_nil rfl]
    exact m.applied_prefix_account

end Compilation

end PatternAutomata
