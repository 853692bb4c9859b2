import PatternAutomata.Proofs.Compilation.Tree
import PatternAutomata.Proofs.Phrase.Quantifier

/-!
# Runs of quantifiers in a phrase

Wherever quantifiers stand in a row in the text of a phrase, all of them belong to one and the same
factor, since neither an operand nor a mark begins with a quantifier and no atom ends with one. So
they can be exchanged for another run that does the same to every language, without a change to what
the phrase stands for (`Phrase.exists_replace_run`). The run need not be all of the factor's: there
may be more quantifiers before and behind it.
-/

namespace PatternAutomata

/-- Different quantifiers are written differently. -/
theorem Quantifier.toChar_injective : Function.Injective Quantifier.toChar := by
  intro q r h
  have htoken : Token.quantifier q = .quantifier r :=
    (Token.toChar_inj (t := .quantifier q) (u := .quantifier r) trivial trivial).1 h
  exact Token.quantifier.inj htoken

/-! ### Where a run can stand -/

section

variable {a b l r : List Char} {c : Char} {own run : List Quantifier}

/-- If a text is joined of two, a run in it lies in one of them, unless the joint is between two
quantifiers. -/
theorem exists_of_append_eq_run (h : a ++ b = l ++ run.map Quantifier.toChar ++ r)
    (hjoint : ∀ (q q' : Quantifier) t t', a = t ++ [q.toChar] → b ≠ q'.toChar :: t') :
    (∃ r', a = l ++ run.map Quantifier.toChar ++ r' ∧ r = r' ++ b) ∨
      ∃ l', b = l' ++ run.map Quantifier.toChar ++ r ∧ l = a ++ l' := by
  rcases List.append_eq_append_iff.1 h with ⟨back, hfront, hb⟩ | ⟨r', ha, hr⟩
  · rcases List.append_eq_append_iff.1 hfront with ⟨front, ha, hrun⟩ | ⟨l', hl, hback⟩
    · -- the joint is at one end of the run
      obtain ⟨run₁, run₂, rfl, rfl, rfl⟩ := List.map_eq_append_iff.1 hrun
      rcases List.eq_nil_or_concat' run₁ with rfl | ⟨run₁, q, rfl⟩
      · exact .inr ⟨[], hb, by rw [ha, List.map_nil, List.append_nil, List.append_nil]⟩
      · cases run₂ with
        | nil => exact .inl ⟨[], by rw [ha]; simp, hb.symm⟩
        | cons q' run₂ =>
          refine (hjoint q q' (l ++ run₁.map Quantifier.toChar) _ ?_ hb).elim
          rw [ha, List.map_append, List.append_assoc]
          rfl
    · exact .inr ⟨l', by rw [hb, hback], hl⟩
  · exact .inl ⟨r', ha, hr⟩

/-- A run behind a character that is no quantifier. -/
theorem exists_of_cons_eq_run (hrun : run ≠ [])
    (h : c :: a = l ++ run.map Quantifier.toChar ++ r) (hc : ∀ q : Quantifier, c ≠ q.toChar) :
    ∃ l', a = l' ++ run.map Quantifier.toChar ++ r ∧ l = c :: l' := by
  cases l with
  | nil =>
    obtain ⟨q, run, rfl⟩ := List.exists_cons_of_ne_nil hrun
    exact absurd (List.cons.inj h).1 (hc q)
  | cons d l =>
    obtain ⟨rfl, ha⟩ := List.cons.inj h
    exact ⟨l, ha, rfl⟩

/-- There is no run in a single character that is no quantifier. -/
theorem singleton_ne_run (hrun : run ≠ []) (hc : ∀ q : Quantifier, c ≠ q.toChar) :
    [c] ≠ l ++ run.map Quantifier.toChar ++ r := by
  intro h
  obtain ⟨l', hnil, _⟩ := exists_of_cons_eq_run hrun h hc
  have hempty : run.map Quantifier.toChar = [] :=
    (List.append_eq_nil_iff.1 (List.append_eq_nil_iff.1 hnil.symm).1).2
  exact hrun (List.map_eq_nil_iff.1 hempty)

/-- A run within a longer one. -/
theorem exists_of_map_eq_run (h : own.map Quantifier.toChar = l ++ run.map Quantifier.toChar ++ r) :
    ∃ before behind, own = before ++ run ++ behind ∧ l = before.map Quantifier.toChar ∧
      r = behind.map Quantifier.toChar := by
  obtain ⟨front, behind, rfl, hfront, hr⟩ := List.map_eq_append_iff.1 h
  obtain ⟨before, run', rfl, hl, hrun⟩ := List.map_eq_append_iff.1 hfront
  obtain rfl := Quantifier.toChar_injective.list_map hrun
  exact ⟨before, behind, rfl, hl.symm, hr.symm⟩

end

namespace Phrase

/-- No phrase begins with a quantifier. -/
theorem text_ne_cons_toChar {k : Category} (e : Phrase k) (q : Quantifier) (l : List Char) :
    e.text ≠ q.toChar :: l := by
  intro h
  obtain ⟨c, t, rest, htext, hc, hbegins⟩ := e.exists_text_eq_cons
  obtain ⟨rfl, _⟩ := List.cons.inj (htext.symm.trans h)
  have hq : Token.ofChar? q.toChar = some (.quantifier q) :=
    Token.ofChar?_toChar (.quantifier q) trivial
  rw [hq] at hc
  cases hc
  cases hbegins

/-- No atom ends with a quantifier. -/
theorem text_ne_concat_toChar (x : Phrase .atom) (q : Quantifier) (l : List Char) :
    x.text ≠ l ++ [q.toChar] := by
  intro h
  have hlast : x.text.getLast? = some q.toChar := by rw [h, List.getLast?_concat]
  cases x with
  | literal c hc =>
    have hchar : c = q.toChar := Option.some.inj hlast
    exact (literal c hc).text_ne_cons_toChar q [] (congrArg (fun d => [d]) hchar)
  | dot => cases q <;> cases hlast
  | group inner =>
    rw [text, List.getLast?_concat] at hlast
    cases q <;> cases hlast

/-- **A run in a phrase can be replaced** by another one that does the same to every language. -/
theorem exists_replace_run {k : Category} (e : Phrase k) {l r : List Char}
    {run run' : List Quantifier} (hrun : run ≠ [])
    (hsame : ∀ L, run.foldl (fun L q => q.onLanguage L) L =
      run'.foldl (fun L q => q.onLanguage L) L)
    (h : e.text = l ++ run.map Quantifier.toChar ++ r) :
    ∃ e' : Phrase k, e'.text = l ++ run'.map Quantifier.toChar ++ r ∧
      e'.language = e.language := by
  induction e generalizing l r with
  | literal c hc =>
    have hchar : ∀ q : Quantifier, c ≠ q.toChar := by
      rintro q rfl
      exact (literal _ hc).text_ne_cons_toChar q [] rfl
    exact absurd h (singleton_ne_run hrun hchar)
  | dot => exact absurd h (singleton_ne_run hrun (by rintro ⟨⟩ <;> decide))
  | group inner ih =>
    obtain ⟨l, hbehind, rfl⟩ := exists_of_cons_eq_run hrun h (by rintro ⟨⟩ <;> decide)
    rcases exists_of_append_eq_run hbehind (fun _ q' _ _ _ => by cases q' <;> nofun) with
      ⟨r', hinner, rfl⟩ | ⟨l', hclose, _⟩
    · obtain ⟨e', htext, hlanguage⟩ := ih hinner
      exact ⟨group e', by simp [text, htext], hlanguage⟩
    · exact absurd hclose (singleton_ne_run hrun (by rintro ⟨⟩ <;> decide))
  | factor base own ih =>
    rcases exists_of_append_eq_run h
        (fun q _ _ _ hq => absurd hq (base.text_ne_concat_toChar q _)) with
      ⟨r', hbase, rfl⟩ | ⟨l', hown, rfl⟩
    · obtain ⟨base', htext, hlanguage⟩ := ih hbase
      exact ⟨factor base' own, by simp [text, htext], by rw [language, hlanguage, language]⟩
    · -- the factor's own run may go on before and behind
      obtain ⟨before, behind, rfl, rfl, rfl⟩ := exists_of_map_eq_run hown
      refine ⟨factor base (before ++ run' ++ behind), by simp [text], ?_⟩
      simp only [language, List.foldl_append, hsame]
  | single f ih =>
    obtain ⟨f', htext, hlanguage⟩ := ih h
    exact ⟨single f', htext, hlanguage⟩
  | juxtapose first rest ihf ihr =>
    rcases exists_of_append_eq_run h (fun _ q' _ _ _ => rest.text_ne_cons_toChar q' _) with
      ⟨r', hfirst, rfl⟩ | ⟨l', hrest, rfl⟩
    · obtain ⟨first', htext, hlanguage⟩ := ihf hfirst
      exact ⟨juxtapose first' rest, by simp [text, htext], by rw [language, hlanguage, language]⟩
    · obtain ⟨rest', htext, hlanguage⟩ := ihr hrest
      exact ⟨juxtapose first rest', by simp [text, htext], by rw [language, hlanguage, language]⟩
  | branch t ih =>
    obtain ⟨t', htext, hlanguage⟩ := ih h
    exact ⟨branch t', htext, hlanguage⟩
  | choice first rest ihf ihr =>
    have hbar : ∀ q : Quantifier, '|' ≠ q.toChar := by rintro ⟨⟩ <;> decide
    rcases exists_of_append_eq_run h
        (fun _ q' _ _ _ hq' => hbar q' (List.cons.inj hq').1) with
      ⟨r', hfirst, rfl⟩ | ⟨l', hbehind, rfl⟩
    · obtain ⟨first', htext, hlanguage⟩ := ihf hfirst
      exact ⟨choice first' rest, by simp [text, htext], by rw [language, hlanguage, language]⟩
    · obtain ⟨l', hrest, rfl⟩ := exists_of_cons_eq_run hrun hbehind hbar
      obtain ⟨rest', htext, hlanguage⟩ := ihr hrest
      exact ⟨choice first rest', by simp [text, htext], by rw [language, hlanguage, language]⟩

end Phrase

end PatternAutomata
