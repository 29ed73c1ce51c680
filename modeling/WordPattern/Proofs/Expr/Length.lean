import Mathlib.Data.Finite.Prod
import Mathlib.Data.Set.Finite.Lattice
import Mathlib.Order.Bounds.Basic
import WordPattern.Proofs.Expr.NormalForm
import WordPattern.Proofs.Generate

/-!
# Stars and the lengths of words

A part that may be repeated any number of times makes the whole match infinitely
many words, provided that every part matches something and the repeated body a
word that is not empty. Without such a part only finitely many words are matched,
and the length by which options are ordered is exactly the length of the longest
of them: an alternation in normal form has a longest option first. With such a
part the length is only an estimate, and nothing is said about it.
-/

namespace WordPattern

open Computability

namespace Expr

variable {a b e x : Expr} {word : Word}

/-- No part may be repeated any number of times. -/
def Starless (e : Expr) : Prop := ∀ body, ¬Part (repetition body .star) e

/-- The lengths of the words that an expression matches. -/
def wordLengths (e : Expr) : Set Nat := {n | ∃ word ∈ e.language, word.length = n}

theorem Starless.part (h : e.Starless) (hpart : Part x e) : x.Starless :=
  fun body hbody => h body (hbody.trans hpart)

/-- Without stars only finitely many words are matched. -/
theorem Starless.finite (h : e.Starless) : {word | word ∈ e.language}.Finite := by
  induction e using tree_induction with
  | literal text =>
    exact (Set.finite_singleton text).subset fun word hword => mem_literal.mp hword
  | charClass members =>
    have hletters : ((fun c => [c]) '' {c | c ∈ members}).Finite :=
      (List.finite_toSet members).image _
    refine hletters.subset fun word hword => ?_
    obtain ⟨c, hc, rfl⟩ := mem_charClass.mp hword
    exact ⟨c, hc, rfl⟩
  | concat first second ihfirst ihsecond =>
    have hpairs := Set.Finite.image2 (· ++ ·) (ihfirst (h.part (.first .whole)))
      (ihsecond (h.part (.second .whole)))
    refine hpairs.subset fun word hword => ?_
    obtain ⟨u, hu, v, hv, hsplit⟩ := Language.mem_mul.mp (language_concat ▸ hword)
    exact ⟨u, hu, v, hv, hsplit⟩
  | alternation options ih =>
    have hunion := (List.finite_toSet options).biUnion
      fun x hx => ih x hx (h.part (.option hx .whole))
    refine hunion.subset fun word hword => ?_
    obtain ⟨x, hx, hmem⟩ := mem_alternation.mp hword
    exact Set.mem_biUnion hx hmem
  | repetition body quantifier ih =>
    cases quantifier with
    | optional =>
      have hbody := ih (h.part (.body .whole))
      refine (hbody.insert []).subset fun word hword => ?_
      have hsum : word ∈ 1 + body.language := language_optional ▸ hword
      exact hsum
    | star => exact absurd .whole (h body)

/-- Rounds of a word that is not empty are infinitely many words. -/
theorem infinite_star (hword : word ∈ e.language) (hne : word ≠ []) :
    {word | word ∈ (repetition e .star).language}.Infinite := by
  let rounds : Nat → Word := fun n => (List.replicate n word).flatten
  have hlength : ∀ n, (rounds n).length = n * word.length := fun n => by simp [rounds]
  have hpos : 0 < word.length := List.length_pos_iff.mpr hne
  have hinj : Function.Injective rounds := by
    intro m n hmn
    have hlengths := congrArg List.length hmn
    rw [hlength, hlength] at hlengths
    exact Nat.eq_of_mul_eq_mul_right hpos hlengths
  have hmem : ∀ n, rounds n ∈ (repetition e .star).language := by
    intro n
    rw [language]
    refine Language.join_mem_kstar fun part hpart => ?_
    rw [List.eq_of_mem_replicate hpart]
    exact hword
  exact Set.infinite_of_injective_forall_mem hinj hmem

/-- The words of a part stand in words of the whole, always with the same text
before and the same text behind. -/
theorem Proper.exists_context (h : e.Proper) (hpart : Part x e) :
    ∃ before after, ∀ word ∈ x.language, before ++ word ++ after ∈ e.language := by
  induction hpart with
  | whole => exact ⟨[], [], fun word hword => by simpa using hword⟩
  | @first a b hpart ih =>
    obtain ⟨ha, hb⟩ := h.halves
    obtain ⟨before, after, hcontext⟩ := ih ha
    obtain ⟨other, hother⟩ := hb.exists_mem
    refine ⟨before, after ++ other, fun word hword => ?_⟩
    have hboth := Language.append_mem_mul (hcontext word hword) hother
    rw [language_concat, ← List.append_assoc]
    exact hboth
  | @second a b hpart ih =>
    obtain ⟨ha, hb⟩ := h.halves
    obtain ⟨before, after, hcontext⟩ := ih hb
    obtain ⟨other, hother⟩ := ha.exists_mem
    refine ⟨other ++ before, after, fun word hword => ?_⟩
    have hboth := Language.append_mem_mul hother (hcontext word hword)
    rw [language_concat, List.append_assoc other, List.append_assoc other]
    exact hboth
  | @option options option hmem _ ih =>
    cases h with
    | alternation _ hall =>
      obtain ⟨before, after, hcontext⟩ := ih (hall option hmem)
      exact ⟨before, after, fun word hword =>
        mem_alternation.mpr ⟨option, hmem, hcontext word hword⟩⟩
  | @body inner quantifier _ ih =>
    cases h with
    | repetition hinner =>
      obtain ⟨before, after, hcontext⟩ := ih hinner
      exact ⟨before, after, fun word hword => mem_repetition (hcontext word hword) quantifier⟩

/-- A part that matches infinitely many words makes the whole match as many. -/
theorem Proper.infinite_of_part (h : e.Proper) (hpart : Part x e)
    (hx : {word | word ∈ x.language}.Infinite) : {word | word ∈ e.language}.Infinite := by
  obtain ⟨before, after, hcontext⟩ := h.exists_context hpart
  have hinj : Function.Injective fun word : Word => before ++ word ++ after := by
    intro u v huv
    exact List.append_cancel_left (List.append_cancel_right huv)
  refine (hx.image hinj.injOn).mono ?_
  rintro _ ⟨word, hword, rfl⟩
  exact hcontext word hword

/-- An expression in normal form has a star exactly when it matches infinitely
many words. -/
theorem Normal.exists_star_iff (h : e.Normal) :
    (∃ body, Part (repetition body .star) e) ↔ {word | word ∈ e.language}.Infinite := by
  constructor
  · rintro ⟨body, hpart⟩
    have hbody : body.Solid := by
      rcases h with rfl | hsolid
      · cases hpart
      · cases hsolid.part hpart with
        | repetition hbody => exact hbody
    obtain ⟨word, hword, hne⟩ := hbody.exists_mem_ne_nil
    exact h.proper.infinite_of_part hpart (infinite_star hword hne)
  · intro hinfinite
    by_contra hnone
    exact hinfinite (Starless.finite fun body hbody => hnone ⟨body, hbody⟩)

/-- In an alternation with longer options first, no word of an option is longer
than the first option says. -/
theorem isGreatest_alternation {first : Expr} {rest : List Expr}
    (hsorted : (first :: rest).Pairwise fun x y => y.length ≤ x.length)
    (hall : ∀ x ∈ first :: rest, IsGreatest x.wordLengths x.length) :
    IsGreatest (alternation (first :: rest)).wordLengths (alternation (first :: rest)).length := by
  have hlength : (alternation (first :: rest)).length = first.length := by rw [length]
  rw [hlength]
  constructor
  · obtain ⟨word, hword, hn⟩ := (hall first List.mem_cons_self).1
    exact ⟨word, mem_alternation.mpr ⟨first, List.mem_cons_self, hword⟩, hn⟩
  · rintro n ⟨word, hword, rfl⟩
    obtain ⟨x, hx, hmem⟩ := mem_alternation.mp hword
    have hle : word.length ≤ x.length := (hall x hx).2 ⟨word, hmem, rfl⟩
    have hfirst : x.length ≤ first.length := by
      rcases List.mem_cons.mp hx with rfl | hrest
      · exact Nat.le_refl _
      · exact (List.pairwise_cons.mp hsorted).1 x hrest
    exact hle.trans hfirst

/-- Without stars, the length of a solid expression is that of the longest word
that it matches. -/
theorem Solid.isGreatest_length (h : e.Solid) (hfree : e.Starless) :
    IsGreatest e.wordLengths e.length := by
  induction h with
  | @literal text _ =>
    refine ⟨⟨text, mem_literal.mpr rfl, by rw [length]⟩, ?_⟩
    rintro n ⟨word, hword, rfl⟩
    rw [mem_literal.mp hword, length]
  | @charClass members hlength hnodup =>
    obtain ⟨c, hc, -⟩ := (Solid.charClass hlength hnodup).exists_ne
    refine ⟨⟨[c], mem_charClass.mpr ⟨c, hc, rfl⟩, by rw [length, List.length_singleton]⟩, ?_⟩
    rintro n ⟨word, hword, rfl⟩
    obtain ⟨d, -, rfl⟩ := mem_charClass.mp hword
    rw [length, List.length_singleton]
  | @concat a b _ _ iha ihb =>
    obtain ⟨⟨u, hu, hulength⟩, hua⟩ := iha (hfree.part (.first .whole))
    obtain ⟨⟨v, hv, hvlength⟩, hvb⟩ := ihb (hfree.part (.second .whole))
    rw [length]
    constructor
    · refine ⟨u ++ v, language_concat ▸ Language.append_mem_mul hu hv, ?_⟩
      rw [List.length_append, hulength, hvlength]
    · rintro n ⟨word, hword, rfl⟩
      obtain ⟨u', hu', v', hv', rfl⟩ := Language.mem_mul.mp (language_concat ▸ hword)
      have hfirst : u'.length ≤ a.length := hua ⟨u', hu', rfl⟩
      have hsecond : v'.length ≤ b.length := hvb ⟨v', hv', rfl⟩
      rw [List.length_append]
      omega
  | @alternation options hlength _ _ hsorted _ ih =>
    have hall : ∀ x ∈ options, IsGreatest x.wordLengths x.length :=
      fun x hx => ih x hx (hfree.part (.option hx .whole))
    match options, hlength, hsorted, hall with
    | first :: rest, _, hsorted, hall => exact isGreatest_alternation hsorted hall
  | @repetition body _ quantifier ih =>
    cases quantifier with
    | optional =>
      obtain ⟨⟨word, hword, hn⟩, hupper⟩ := ih (hfree.part (.body .whole))
      rw [length]
      refine ⟨⟨word, mem_repetition hword .optional, hn⟩, ?_⟩
      rintro n ⟨word, hword, rfl⟩
      rw [language_optional] at hword
      rcases hword with rfl | hbody
      · exact Nat.zero_le _
      · exact hupper ⟨word, hbody, rfl⟩
    | star => exact absurd .whole (hfree body)

/-- The length of each part of an expression in normal form that matches finitely
many words is that of the longest word that the part matches. -/
theorem Normal.isGreatest_length (h : e.Normal) (hfinite : {word | word ∈ e.language}.Finite)
    (hpart : Part x e) : IsGreatest x.wordLengths x.length := by
  have hfree : e.Starless := fun body hbody => h.exists_star_iff.mp ⟨body, hbody⟩ hfinite
  rcases h with rfl | hsolid
  · cases hpart
    refine ⟨⟨[], mem_literal.mpr rfl, rfl⟩, ?_⟩
    rintro n ⟨word, hword, rfl⟩
    rw [mem_literal.mp hword]
    exact Nat.le_refl _
  · exact (hsolid.part hpart).isGreatest_length (hfree.part hpart)

end Expr

/-- Every closed automaton that accepts a word has an expression, which has a star
exactly when infinitely many words are accepted; if these are finitely many, the
length of each part of the expression is that of the longest word that the part
matches. So the expression of given words is as long as the longest of them. -/
theorem expression_lengths_exact :
    (∀ a : Automaton, a.Closed → (∃ word, a.accepts word = .ok true) →
      ∃ e, a.expression = .ok (some e) ∧
        ((∃ body, Expr.Part (.repetition body .star) e) ↔
          {word | a.accepts word = .ok true}.Infinite) ∧
        ({word | a.accepts word = .ok true}.Finite →
          ∀ x, Expr.Part x e → IsGreatest x.wordLengths x.length)) ∧
    ∀ words : List Word, words ≠ [] → ∃ trie e, Trie.ofWords words = .ok trie ∧
      trie.expression = .ok (some e) ∧
        IsGreatest {n | ∃ word ∈ words, word.length = n} e.length := by
  constructor
  · intro a h hword
    obtain ⟨result, hok, hlanguage, -⟩ := h.expression_spec
    have hmem : ∀ word, word ∈ Expr.languageOf result ↔ a.accepts word = .ok true := by
      intro word
      rw [hlanguage, h.mem_wordsFrom_start]
    have hne : result ≠ none := fun hnone => (h.expression_eq_none_iff hok).mp hnone hword
    obtain ⟨e, rfl⟩ := Option.ne_none_iff_exists'.mp hne
    have hnormal : e.Normal := h.expression_normal hok
    have hsame : {word | word ∈ e.language} = {word | a.accepts word = .ok true} :=
      Set.ext hmem
    refine ⟨e, hok, ?_, fun hfinite x hpart => ?_⟩
    · rw [← hsame]
      exact hnormal.exists_star_iff
    · rw [← hsame] at hfinite
      exact hnormal.isGreatest_length hfinite hpart
  · intro words hwords
    obtain ⟨trie, htrie, h⟩ := Trie.ofWords_spec words
    obtain ⟨e, hok, -, hmem⟩ := h.expression_ok hwords
    obtain ⟨m, -, hclosed, hsame, -⟩ := Trie.expression_eq h.branching.closed
    have hnormal : e.Normal := hclosed.expression_normal (hsame ▸ hok)
    have hfinite : {word | word ∈ e.language}.Finite :=
      (List.finite_toSet words).subset fun word hword => (hmem word).mp hword
    have hlongest := hnormal.isGreatest_length hfinite .whole
    simp only [Expr.wordLengths, hmem] at hlongest
    exact ⟨trie, e, htrie, hok, hlongest⟩

theorem expression_lengths_exact_twoWays :
    (Automaton.twoWays.Closed ∧ (∃ word, Automaton.twoWays.accepts word = .ok true) ∧
      [['a'], [], ['b', 'a']] ≠ []) ∧
    (∃ e, Automaton.twoWays.expression = .ok (some e) ∧
      ((∃ body, Expr.Part (.repetition body .star) e) ↔
        {word | Automaton.twoWays.accepts word = .ok true}.Infinite) ∧
      ({word | Automaton.twoWays.accepts word = .ok true}.Finite →
        ∀ x, Expr.Part x e → IsGreatest x.wordLengths x.length)) ∧
    ∃ trie e, Trie.ofWords [['a'], [], ['b', 'a']] = .ok trie ∧
      trie.expression = .ok (some e) ∧
        IsGreatest {n | ∃ word ∈ [['a'], [], ['b', 'a']], word.length = n} e.length := by
  have hword : ∃ word, Automaton.twoWays.accepts word = .ok true := ⟨['b', 'a', 'a'], by decide⟩
  have hwords : [['a'], [], ['b', 'a']] ≠ [] := by decide
  exact ⟨⟨Automaton.closed_twoWays, hword, hwords⟩,
    expression_lengths_exact.1 Automaton.twoWays Automaton.closed_twoWays hword,
    expression_lengths_exact.2 _ hwords⟩

end WordPattern
