import Mathlib.Data.List.Induction
import PatternAutomata.Proofs.Arena.Separation
import PatternAutomata.Proofs.Workbench.Language
import PatternAutomata.Workbench.Language

/-!
# Scripts that use each fragment once

A script makes fragments out of characters and of fragments made before, in any order, so that
several unfinished fragments lie in the arena at the same time. If no fragment is used twice, then
each one that is not used at all accepts the language that the steps give it, whatever else there is
in the arena (`language_of_linear`).

The invariant is `Workbench.KeepsApart`, a table of languages: the words from the entry of an unused
fragment to the exit of an unused one are its language if the two are the same fragment, and
otherwise there are none. No states are assigned to fragments, so that it does not matter which
operations add states and which reuse those of their operands. A step keeps the table
(`KeepsApart.perform`): it confines itself to its operands (`Arena.Confines`), and these are no
longer in the table then.
-/

namespace PatternAutomata

open scoped Computability

/-- The step makes a fragment out of characters or of other fragments. -/
def Step.composes : Step → Bool
  | .literal _ | .wildcard _ | .concatenate _ _ | .alternate _ _ | .quantify _ _ => true
  | .state | .edge _ _ _ | .fragment _ _ => false

/-- Every step makes a fragment, and uses only those that steps before it have made. -/
def IsScript (steps : List Step) : Prop :=
  ∀ i, (h : i < steps.length) → steps[i].composes = true ∧ ∀ k ∈ steps[i].operands, k < i

instance (steps : List Step) : Decidable (IsScript steps) :=
  inferInstanceAs (Decidable (∀ i, (h : i < steps.length) →
    steps[i].composes = true ∧ ∀ k ∈ steps[i].operands, k < i))

theorem IsScript.of_concat {steps : List Step} {step : Step} (h : IsScript (steps ++ [step])) :
    IsScript steps ∧ step.composes = true ∧ ∀ k ∈ step.operands, k < steps.length := by
  have hlength : (steps ++ [step]).length = steps.length + 1 := List.length_append
  constructor
  · intro i hi
    have hstep := h i (by omega)
    rwa [List.getElem_append_left hi] at hstep
  · have hstep := h steps.length (by omega)
    rwa [List.getElem_concat_length rfl] at hstep

/-- The last step is given its language when all others have theirs. -/
theorem Step.languages?_concat {steps : List Step} {step : Step} {languages : List (Language Char)}
    {l : Language Char} (hsteps : languages? steps = some languages)
    (hstep : step.language? languages = some l) :
    languages? (steps ++ [step]) = some (languages ++ [l]) := by
  have happend : languages? (steps ++ [step]) = (languages? steps).bind fun earlier =>
      [step].foldlM (fun earlier step => (step.language? earlier).map (earlier ++ [·])) earlier :=
    List.foldlM_append
  rw [happend, hsteps]
  show ((step.language? languages).map (languages ++ [·])).bind some = _
  rw [hstep]
  rfl

namespace Workbench

variable {w w' w'' : Workbench} {steps : List Step} {step : Step} {product : Product}
  {products : List Product} {languages : List (Language Char)} {l : Language Char}
  {used indices : List Nat} {operands : List Fragment} {f g : Fragment} {i j : Nat}

/-- The last step is carried out when all others have been. -/
theorem performAll_concat (hsteps : w.performAll steps = some (products, w'))
    (hstep : w'.perform step = some (product, w'')) :
    w.performAll (steps ++ [step]) = some (products ++ [product], w'') := by
  induction steps generalizing w products with
  | nil =>
    cases hsteps
    show (w'.perform step).bind _ = _
    rw [hstep]
    rfl
  | cons first rest ih =>
    obtain ⟨⟨p, m⟩, hfirst, hsteps⟩ := Option.bind_eq_some_iff.1 hsteps
    obtain ⟨⟨ps, _⟩, hrest, hsteps⟩ := Option.bind_eq_some_iff.1 hsteps
    cases hsteps
    show (w.perform first).bind _ = _
    rw [hfirst]
    show (m.performAll (rest ++ [step])).bind _ = _
    rw [ih hrest]
    rfl

/-! ### The table of languages -/

/-- The words from the entry of one unused fragment to the exit of another one are the language of
the fragment if it is the same, and otherwise there are none. -/
structure KeepsApart (w : Workbench) (languages : List (Language Char)) (used : List Nat) :
    Prop where
  isValid : w.IsValid
  size_eq : w.fragments.size = languages.length
  words_eq : ∀ i j, i ∉ used → j ∉ used → ∀ f g l, w.fragments[i]? = some f →
    w.fragments[j]? = some g → languages[i]? = some l →
      w.arena.words f.entry g.exit = if i = j then l else 0

/-- The fragment with the number `i` is `f`; it has not been used, and stands for `l`. -/
structure IsUnused (w : Workbench) (languages : List (Language Char)) (used : List Nat) (i : Nat)
    (f : Fragment) (l : Language Char) : Prop where
  notMem : i ∉ used
  fragment_eq : w.fragments[i]? = some f
  language_eq : languages[i]? = some l
  contains : w.arena.Contains f
  words_eq : w.arena.words f.entry f.exit = l

namespace KeepsApart

theorem empty : KeepsApart {} [] [] :=
  ⟨IsValid.empty, rfl, fun i _ _ _ f _ _ hf => by simp at hf⟩

/-- Fragments that have not been used stand for their languages. -/
theorem exists_isUnused (h : w.KeepsApart languages used) (hlt : i < w.fragments.size)
    (hi : i ∉ used) : ∃ f l, w.IsUnused languages used i f l := by
  have hf := Array.getElem?_eq_getElem hlt
  have hl := List.getElem?_eq_getElem (h.size_eq ▸ hlt)
  have hwords := h.words_eq i i hi hi _ _ _ hf hf hl
  rw [if_pos rfl] at hwords
  exact ⟨_, _, hi, hf, hl, h.isValid.contains_of_getElem? hf, hwords⟩

/-- Two fragments that have not been used lie apart from each other. -/
theorem apart (h : w.KeepsApart languages used) (hi : i ∉ used) (hj : j ∉ used) (hij : i ≠ j)
    (hf : w.fragments[i]? = some f) (hg : w.fragments[j]? = some g) :
    w.arena.words f.entry g.exit = 0 ∧ w.arena.words g.entry f.exit = 0 := by
  have hzero (i j : Nat) (f g : Fragment) (hi : i ∉ used) (hj : j ∉ used) (hij : i ≠ j)
      (hf : w.fragments[i]? = some f) (hg : w.fragments[j]? = some g) :
      w.arena.words f.entry g.exit = 0 := by
    obtain ⟨hlt, _⟩ := Array.getElem?_eq_some_iff.1 hf
    have hl := List.getElem?_eq_getElem (h.size_eq ▸ hlt)
    rw [h.words_eq i j hi hj f g _ hf hg hl, if_neg hij]
  exact ⟨hzero i j f g hi hj hij hf hg, hzero j i g f hj hi hij.symm hg hf⟩

/-- The operands of an operation lie apart from every fragment that stays unused. -/
theorem misses (h : w.KeepsApart languages used)
    (hoperands : ∀ g ∈ operands, ∃ k ∈ indices, k ∉ used ∧ w.fragments[k]? = some g)
    (hi : i ∉ used ++ indices) (hf : w.fragments[i]? = some f) :
    w.arena.Misses f.entry operands ∧ w.arena.MissedBy operands f.exit := by
  rw [List.mem_append, not_or] at hi
  have hapart (g : Fragment) (hg : g ∈ operands) :
      w.arena.words f.entry g.exit = 0 ∧ w.arena.words g.entry f.exit = 0 := by
    obtain ⟨k, hk, hunused, hgk⟩ := hoperands g hg
    have hik : i ≠ k := fun heq => hi.2 (heq ▸ hk)
    exact h.apart hi.1 hunused hik hf hgk
  exact ⟨fun g hg => (hapart g hg).1, fun g hg => (hapart g hg).2⟩

/-- **The new row and the new column.** An operation that confines itself to its operands extends
the table by its result, with the operands struck out. -/
theorem place (h : w.KeepsApart languages used) {r : Arena × Fragment}
    (hoperands : ∀ g ∈ operands, ∃ k ∈ indices, k ∉ used ∧ w.fragments[k]? = some g)
    (hmakes : w.arena.Makes r) (hconfines : w.arena.Confines operands r)
    (hl : r.1.words r.2.entry r.2.exit = l) :
    (w.place r).2.KeepsApart (languages ++ [l]) (used ++ indices) := by
  refine ⟨h.isValid.place hmakes, ?_, ?_⟩
  · show (w.fragments.push r.2).size = _
    rw [Array.size_push, List.length_append, h.size_eq, List.length_singleton]
  intro i j hi hj f g m hf hg hm
  have hf' : (w.fragments.push r.2)[i]? = some f := hf
  have hg' : (w.fragments.push r.2)[j]? = some g := hg
  rw [Array.getElem?_push] at hf' hg'
  show r.1.words f.entry g.exit = _
  by_cases hin : i = w.fragments.size
  · rw [if_pos hin] at hf'
    obtain rfl := Option.some.inj hf'
    by_cases hjn : j = w.fragments.size
    · -- the result itself
      rw [if_pos hjn] at hg'
      obtain rfl := Option.some.inj hg'
      rw [hin, h.size_eq, List.getElem?_concat_length] at hm
      rw [if_pos (hin.trans hjn.symm), hl]
      exact Option.some.inj hm
    · -- from the result to an older fragment
      rw [if_neg hjn] at hg'
      rw [if_neg fun heq : i = j => hjn (heq ▸ hin)]
      exact hconfines.words_entry _ (h.isValid.contains_of_getElem? hg').exit_lt
        (h.misses hoperands hj hg').2
  · rw [if_neg hin] at hf'
    have hcontains := h.isValid.contains_of_getElem? hf'
    have hmisses := (h.misses hoperands hi hf').1
    by_cases hjn : j = w.fragments.size
    · -- from an older fragment to the result
      rw [if_pos hjn] at hg'
      obtain rfl := Option.some.inj hg'
      rw [if_neg fun heq : i = j => hin (heq ▸ hjn)]
      exact hconfines.words_exit _ hcontains.entry_lt hmisses
    · -- between older fragments
      rw [if_neg hjn] at hg'
      obtain ⟨hlt, _⟩ := Array.getElem?_eq_some_iff.1 hf'
      rw [List.getElem?_append_left (h.size_eq ▸ hlt)] at hm
      rw [List.mem_append, not_or] at hi hj
      rw [hconfines.words_eq _ _ hcontains.entry_lt
        (h.isValid.contains_of_getElem? hg').exit_lt hmisses]
      exact h.words_eq i j hi.1 hj.1 f g m hf' hg' hm

/-! ### One step and whole scripts -/

/-- The operands of a binary step. -/
theorem exists_pair (h : w.KeepsApart languages used) (hlt : ∀ k ∈ [i, j], k < w.fragments.size)
    (hfresh : ∀ k ∈ [i, j], k ∉ used) (hnodup : [i, j].Nodup) :
    ∃ f l g m, w.IsUnused languages used i f l ∧ w.IsUnused languages used j g m ∧ i ≠ j := by
  rw [List.forall_mem_cons, List.forall_mem_singleton] at hlt hfresh
  obtain ⟨f, l, hf⟩ := h.exists_isUnused hlt.1 hfresh.1
  obtain ⟨g, m, hg⟩ := h.exists_isUnused hlt.2 hfresh.2
  exact ⟨f, l, g, m, hf, hg, by simpa using hnodup⟩

theorem forall_mem_pair {m : Language Char} (hf : w.IsUnused languages used i f l)
    (hg : w.IsUnused languages used j g m) :
    ∀ h ∈ [f, g], ∃ k ∈ [i, j], k ∉ used ∧ w.fragments[k]? = some h := by
  rw [List.forall_mem_cons, List.forall_mem_singleton]
  exact ⟨⟨i, List.mem_cons_self, hf.notMem, hf.fragment_eq⟩,
    ⟨j, List.mem_cons_of_mem _ List.mem_cons_self, hg.notMem, hg.fragment_eq⟩⟩

/-- **What one step does to the table**, if its operands have not been used before. -/
theorem perform (h : w.KeepsApart languages used) (hcomposes : step.composes = true)
    (hlt : ∀ k ∈ step.operands, k < w.fragments.size) (hfresh : ∀ k ∈ step.operands, k ∉ used)
    (hnodup : step.operands.Nodup) :
    ∃ l product w', step.language? languages = some l ∧ w.perform step = some (product, w') ∧
      w'.KeepsApart (languages ++ [l]) (used ++ step.operands) := by
  have hclosed := h.isValid.isClosed
  cases step with
  | state | edge _ _ _ | fragment _ _ => cases hcomposes
  | literal c =>
    refine ⟨_, _, _, rfl, rfl, ?_⟩
    refine h.place (List.forall_mem_nil _) (.wildcard hclosed [c]) (.wildcard hclosed [c]) ?_
    rw [Arena.words_wildcard]
    ext v
    simp only [List.mem_singleton, exists_eq_left]
    exact Iff.rfl
  | wildcard characters =>
    refine ⟨_, _, _, rfl, rfl, ?_⟩
    exact h.place (List.forall_mem_nil _) (.wildcard hclosed characters)
      (.wildcard hclosed characters) (Arena.words_wildcard _ characters)
  | concatenate first second =>
    obtain ⟨f, l, g, m, hf, hg, hne⟩ := h.exists_pair hlt hfresh hnodup
    obtain ⟨hpast, hback⟩ := h.apart hf.notMem hg.notMem hne hf.fragment_eq hg.fragment_eq
    refine ⟨l * m, (w.place (w.arena.concatenate f g)).1, (w.place (w.arena.concatenate f g)).2,
      by simp [Step.language?, hf.language_eq, hg.language_eq],
      by simp [Workbench.perform, hf.fragment_eq, hg.fragment_eq], ?_⟩
    refine h.place (forall_mem_pair hf hg) (.concatenate hclosed hf.contains hg.contains)
      (.concatenate hf.contains g) ?_
    rw [Arena.words_concatenate_of_apart hf.contains.exit_lt hpast hback, hf.words_eq, hg.words_eq]
  | alternate left right =>
    obtain ⟨f, l, g, m, hf, hg, hne⟩ := h.exists_pair hlt hfresh hnodup
    obtain ⟨hpast, hback⟩ := h.apart hf.notMem hg.notMem hne hf.fragment_eq hg.fragment_eq
    refine ⟨l + m, (w.place (w.arena.alternate f g)).1, (w.place (w.arena.alternate f g)).2,
      by simp [Step.language?, hf.language_eq, hg.language_eq],
      by simp [Workbench.perform, hf.fragment_eq, hg.fragment_eq], ?_⟩
    refine h.place (forall_mem_pair hf hg) (.alternate hclosed hf.contains hg.contains)
      (.alternate hclosed hf.contains hg.contains) ?_
    rw [Arena.words_alternate_of_apart hclosed hf.contains.entry_lt hf.contains.exit_lt
      hg.contains.entry_lt hg.contains.exit_lt hpast hback, hf.words_eq, hg.words_eq]
  | quantify q inner =>
    obtain ⟨f, l, hf⟩ :=
      h.exists_isUnused (hlt inner List.mem_cons_self) (hfresh inner List.mem_cons_self)
    refine ⟨q.onLanguage l, (w.place (w.arena.quantify q f)).1, (w.place (w.arena.quantify q f)).2,
      by simp [Step.language?, hf.language_eq], by simp [Workbench.perform, hf.fragment_eq], ?_⟩
    refine h.place ?_ (.quantify hclosed hf.contains q) (.quantify hclosed hf.contains q) ?_
    · intro g hg
      rw [List.mem_singleton.1 hg]
      exact ⟨inner, List.mem_cons_self, hf.notMem, hf.fragment_eq⟩
    · rw [Arena.words_quantify hclosed hf.contains.entry_lt hf.contains.exit_lt, hf.words_eq]

/-- What a whole script does: every step is carried out and has a language, and the table is kept
with all operands struck out. -/
theorem performAll (hscript : IsScript steps) (hlinear : (steps.flatMap Step.operands).Nodup) :
    ∃ languages products w, Step.languages? steps = some languages ∧
      ({} : Workbench).performAll steps = some (products, w) ∧ languages.length = steps.length ∧
      w.KeepsApart languages (steps.flatMap Step.operands) := by
  induction steps using List.reverseRecOn with
  | nil => exact ⟨[], [], {}, rfl, rfl, rfl, empty⟩
  | append_singleton steps step ih =>
    rw [List.flatMap_append, List.flatMap_singleton] at hlinear ⊢
    obtain ⟨hsteps, hstep, hdisjoint⟩ := List.nodup_append.1 hlinear
    obtain ⟨hscript', hcomposes, hbound⟩ := hscript.of_concat
    obtain ⟨languages, products, w, hlanguages, hrun, hlength, hkeeps⟩ := ih hscript' hsteps
    have hlt : ∀ k ∈ step.operands, k < w.fragments.size := by
      rw [hkeeps.size_eq, hlength]
      exact hbound
    have hfresh : ∀ k ∈ step.operands, k ∉ steps.flatMap Step.operands :=
      fun k hk hused => hdisjoint k hused k hk rfl
    obtain ⟨l, product, w', hl, hperform, hkeeps'⟩ := hkeeps.perform hcomposes hlt hfresh hstep
    refine ⟨_, _, w', Step.languages?_concat hlanguages hl, performAll_concat hrun hperform, ?_,
      hkeeps'⟩
    rw [List.length_append, List.length_append, hlength, List.length_singleton,
      List.length_singleton]

end KeepsApart

/-- **Scripts that use each fragment at most once are compositional.** Such a script can be carried
out in whatever order its steps come, each step makes one fragment, and every fragment that is not
used accepts the language which the steps give it. -/
theorem language_of_linear (hscript : IsScript steps)
    (hlinear : (steps.flatMap Step.operands).Nodup) :
    ∃ languages products w, Step.languages? steps = some languages ∧
      ({} : Workbench).performAll steps = some (products, w) ∧
      languages.length = steps.length ∧ w.fragments.size = steps.length ∧
      ∀ k ∉ steps.flatMap Step.operands, ∀ f l, w.fragments[k]? = some f →
        languages[k]? = some l → w.arena.language f = l := by
  obtain ⟨languages, products, w, hlanguages, hrun, hlength, hkeeps⟩ :=
    KeepsApart.performAll hscript hlinear
  refine ⟨languages, products, w, hlanguages, hrun, hlength, hkeeps.size_eq.trans hlength, ?_⟩
  intro k hk f l hf hl
  have hwords := hkeeps.words_eq k k hk hk f f l hf hf hl
  rw [if_pos rfl] at hwords
  rw [(hkeeps.isValid.contains_of_getElem? hf).language_eq_words, hwords]

/-- Two literals are begun before either is used, one of them is repeated, and a fragment that
accepts nothing is left over. -/
theorem language_of_linear_interleaved :
    ∃ products w f, ({} : Workbench).performAll [.literal 'a', .literal 'ε', .quantify .plus 0,
        .wildcard [], .concatenate 2 1] = some (products, w) ∧
      w.fragments[4]? = some f ∧
      w.arena.language f = {['a']} * {['a']}∗ * ({['ε']} : Language Char) := by
  have hscript : IsScript [.literal 'a', .literal 'ε', .quantify .plus 0, .wildcard [],
      .concatenate 2 1] := by decide
  obtain ⟨languages, products, w, hlanguages, hrun, hlength, hsize, h⟩ :=
    language_of_linear hscript (by decide)
  obtain rfl := Option.some.inj hlanguages
  have hf := Array.getElem?_eq_getElem (show 4 < w.fragments.size by rw [hsize]; decide)
  exact ⟨products, w, _, hrun, hf, h 4 (by decide) _ _ hf rfl⟩

end Workbench

end PatternAutomata
