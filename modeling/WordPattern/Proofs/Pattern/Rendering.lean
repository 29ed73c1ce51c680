import Mathlib.Data.List.Basic
import WordPattern.Proofs.Expr.Proper
import WordPattern.Proofs.Pattern.Reading
import WordPattern.Proofs.Pattern.Runs
import WordPattern.Proofs.Pattern.Skipping

/-!
# Written expressions as patterns

The pattern of a proper expression spells what the parts of the expression make,
under all flags, for trees of any shape and whatever is made of the parts. Where
a part stands ungrouped it is tight enough for its place or is one atom. A class
is written as a row of runs, and the runs hold exactly the members, in whatever
order and however often these are given. So the pattern is one for the language
of the expression, and read back it gives a tree that matches its words; the
tree itself depends on how the expression is written and is not described here.
-/

namespace WordPattern.Pattern

variable {flags mode : Flags} {ranges : List (Char × Char)} {c : Char} {e : Expr}

/-- A character is written as the syntax allows. -/
theorem written_escape (flags : Flags) (c : Char) : Written (escape flags c) c := by
  unfold escape
  split
  · obtain ⟨values, hvalues, hsome, hnumber, hdigits⟩ := hexDigits_spec c.toNat
    refine .number ?_ hsome hnumber
    rw [codeDigits, hdigits, List.map_map]
    exact List.map_congr_left fun value hvalue => (hexDigit_spec (hvalues value hvalue)).1
  · split
    · rename_i hmeta
      exact .escaped hmeta
    · rename_i hmeta
      exact .plain hmeta

/-- A written run lists ranges with the same code points. -/
theorem listed_renderRun (flags : Flags) {first last : Char} (hends : first ≤ last) :
    ∃ ranges, Listed (renderRun flags first last) ranges ∧
      codePoints ranges = codePointsOf (first, last) := by
  have hle : first.toNat ≤ last.toNat := le_iff_toNat_le.mp hends
  have hfirst := written_escape flags first
  have hlast := written_escape flags last
  unfold renderRun
  split
  · have hsame : last = first := Char.toNat_inj.mp (by omega)
    refine ⟨[(first, first)], hfirst.listed, ?_⟩
    rw [codePoints_singleton, hsame]
  · rename_i hone
    have hnext : first.toNat + 1 = last.toNat := by omega
    refine ⟨[(first, first)] ++ [(last, last)], hfirst.listed.append hlast.listed, ?_⟩
    rw [codePoints_append, codePoints_singleton, codePoints_singleton, codePointsOf_self last,
      codePointsOf_cut (Char.le_refl first) hends, hone, hnext, List.range'_one]
  · have hrange := Listed.range hfirst hlast hends .nil
    rw [List.append_nil] at hrange
    exact ⟨[(first, last)], hrange, codePoints_singleton⟩

/-- Written runs one after the other list ranges with the same code points. -/
theorem listed_runs (flags : Flags) {written : List (Char × Char)}
    (hends : ∀ run ∈ written, run.1 ≤ run.2) :
    ∃ ranges, Listed (written.flatMap fun run => renderRun flags run.1 run.2) ranges ∧
      codePoints ranges = codePoints written := by
  induction written with
  | nil => exact ⟨[], .nil, rfl⟩
  | cons run rest ih =>
    obtain ⟨hrun, hrest⟩ := List.forall_mem_cons.mp hends
    obtain ⟨ranges, hlisted, hcodes⟩ := listed_renderRun flags hrun
    obtain ⟨ranges', hlisted', hcodes'⟩ := ih hrest
    refine ⟨ranges ++ ranges', ?_, ?_⟩
    · rw [List.flatMap_cons]
      exact hlisted.append hlisted'
    · rw [codePoints_append, codePoints_cons, hcodes, hcodes']

/-- Members listed as they come are ranges of one character each. -/
theorem listed_members (flags : Flags) (members : List Char) :
    ∃ ranges, Listed (members.flatMap (escape flags)) ranges ∧
      codePoints ranges = members.map Char.toNat := by
  induction members with
  | nil => exact ⟨[], .nil, rfl⟩
  | cons member rest ih =>
    obtain ⟨ranges, hlisted, hcodes⟩ := ih
    refine ⟨(member, member) :: ranges, ?_, ?_⟩
    · rw [List.flatMap_cons]
      exact .single (written_escape flags member) hlisted
    · rw [codePoints_cons, codePointsOf_self, hcodes, List.map_cons, List.singleton_append]

/-- Between its brackets a class lists ranges with the numbers of its members, each
as often as it is a member. -/
theorem listed_renderClass (flags : Flags) (members : List Char) :
    ∃ text ranges, renderClass flags members = '[' :: text ++ [']'] ∧ Listed text ranges ∧
      (codePoints ranges).Perm (members.map Char.toNat) := by
  unfold renderClass
  dsimp only
  split
  · obtain ⟨ranges, hlisted, hcodes⟩ := listed_members flags members
    exact ⟨_, ranges, rfl, hlisted, hcodes ▸ List.Perm.refl _⟩
  · have hruns := gathers_runs (members.mergeSort (· ≤ ·))
    obtain ⟨ranges, hlisted, hcodes⟩ := listed_runs flags hruns.ordered
    refine ⟨_, ranges, rfl, hlisted, ?_⟩
    rw [hcodes, hruns.codePoints_eq]
    exact (List.mergeSort_perm members _).map Char.toNat

section Spelling

variable {α : Type} {I : Interpretation α}

/-- What an interpretation makes of a text. -/
def meaningOfText (I : Interpretation α) : Word → α
  | [] => I.nothing
  | [c] => I.letters {c}
  | c :: text => I.append (I.letters {c}) (meaningOfText I text)

mutual

/-- What an interpretation makes of an expression. Without options, an
alternation is written as nothing. -/
def meaning (I : Interpretation α) : Expr → α
  | .literal text => meaningOfText I text
  | .charClass members => I.letters {c | c ∈ members}
  | .concat a b => I.append (meaning I a) (meaning I b)
  | .alternation options => meaningOfOptions I options
  | .repetition body .optional => I.optional (meaning I body)
  | .repetition body .star => I.star (meaning I body)

/-- What an interpretation makes of options. -/
def meaningOfOptions (I : Interpretation α) : List Expr → α
  | [] => I.nothing
  | [e] => meaning I e
  | e :: rest => I.either (meaning I e) (meaningOfOptions I rest)

end

/-- A written class with members is an atom. -/
theorem spells_renderClass (flags : Flags) {members : List Char} (hne : members ≠ []) :
    Spells I .atom (renderClass flags members) (I.letters {c | c ∈ members}) := by
  obtain ⟨text, ranges, htext, hlisted, hperm⟩ := listed_renderClass flags members
  have hmembers : {c | Covers ranges c} = {c | c ∈ members} :=
    Set.ext fun _ => covers_iff_mem hperm
  rw [htext, ← hmembers]
  exact .charClass hlisted (ne_nil_of_perm hperm hne)

/-- What the pattern of an expression spells wherever it stands. -/
structure Rendered (I : Interpretation α) (flags : Flags) (e : Expr) : Prop where
  /-- The pattern may be the body of a group. -/
  body : Spells I .body (render flags e) (meaning I e)
  /-- A pattern that holds together as a concatenation does is a row. -/
  row : 2 ≤ e.precedence → Spells I .row (render flags e) (meaning I e)
  /-- A pattern of one code point is an atom. -/
  atom : e.isSingleCodePoint = true → Spells I .atom (render flags e) (meaning I e)

theorem isSingleCodePoint_of_isSingleCharacter (h : e.isSingleCharacter = true) :
    e.isSingleCodePoint = true := by
  cases e with
  | literal text =>
    match text, h with
    | [c], _ => rfl
  | charClass => rfl
  | concat => cases h
  | alternation => cases h
  | repetition => cases h

/-- A part that stands ungrouped is tight enough or is one code point. -/
theorem part_cases (flags : Flags) (precedence : Nat) (e : Expr) (text : List Char) :
    part flags precedence e text = text ∧
        (precedence ≤ e.precedence ∨ e.isSingleCodePoint = true) ∨
      part flags precedence e text = group text := by
  unfold part
  split
  · rename_i hbare
    simp only [Bool.or_eq_true, Bool.and_eq_true, decide_eq_true_eq] at hbare
    refine Or.inl ⟨rfl, ?_⟩
    rcases hbare with (htight | hcharacter) | hunicode
    · exact Or.inl htight
    · exact Or.inr (isSingleCodePoint_of_isSingleCharacter hcharacter)
    · exact Or.inr hunicode.2
  · exact Or.inr rfl

/-- A pattern in a group is an atom. -/
theorem Rendered.group (h : Rendered I flags e) :
    Spells I .atom (group (render flags e)) (meaning I e) :=
  .group h.body

/-- A part of a concatenation is a row. -/
theorem Rendered.part (h : Rendered I flags e) :
    Spells I .row (part flags 2 e (render flags e)) (meaning I e) := by
  rcases part_cases flags 2 e (render flags e) with ⟨hbare, htight | hsingle⟩ | hgroup
  · rw [hbare]
    exact h.row htight
  · rw [hbare]
    exact .part (h.atom hsingle)
  · rw [hgroup]
    exact .part h.group

/-- Only repetitions hold together most tightly. -/
theorem exists_repetition_of_precedence (h : 3 ≤ e.precedence) :
    ∃ body quantifier, e = .repetition body quantifier := by
  cases e with
  | repetition body quantifier => exact ⟨body, quantifier, rfl⟩
  | literal => simp [Expr.precedence] at h
  | charClass => simp [Expr.precedence] at h
  | concat => simp [Expr.precedence] at h
  | alternation => simp [Expr.precedence] at h

/-- The body of a repetition is an atom. -/
theorem Rendered.repeated (h : Rendered I flags e) :
    Spells I .atom (repeated flags e (render flags e)) (meaning I e) := by
  unfold Pattern.repeated
  split
  · exact h.group
  · rename_i hother
    rcases part_cases flags 3 e (render flags e) with ⟨hbare, htight | hsingle⟩ | hgroup
    · obtain ⟨body, quantifier, he⟩ := exists_repetition_of_precedence htight
      exact absurd he (hother body quantifier)
    · rw [hbare]
      exact h.atom hsingle
    · rw [hgroup]
      exact h.group

/-- A written character is an atom. -/
theorem spells_letter (flags : Flags) (c : Char) :
    Spells I .atom (escape flags c) (I.letters {c}) :=
  .char (written_escape flags c)

/-- Literal text is a row. -/
theorem spells_literal (flags : Flags) (text : Word) :
    Spells I .row (text.flatMap (escape flags)) (meaningOfText I text) := by
  induction text with
  | nil => exact .empty
  | cons c text ih =>
    rw [List.flatMap_cons]
    cases text with
    | nil =>
      rw [List.flatMap_nil, List.append_nil]
      exact .part (spells_letter flags c)
    | cons d text => exact .append (.part (spells_letter flags c)) ih

/-- Options with bars between them are a body. -/
theorem spells_options {options : List Expr} (hne : options ≠ [])
    (h : ∀ e ∈ options, Spells I .body (render flags e) (meaning I e)) :
    Spells I .body (renderOptions flags options) (meaningOfOptions I options) := by
  induction options with
  | nil => exact absurd rfl hne
  | cons e rest ih =>
    obtain ⟨he, hrest⟩ := List.forall_mem_cons.mp h
    cases rest with
    | nil =>
      rw [renderOptions, meaningOfOptions]
      exact he
    | cons f rest =>
      rw [renderOptions, meaningOfOptions]
      · exact he.bar (ih (List.cons_ne_nil f rest) hrest)
      · exact List.cons_ne_nil f rest
      · exact List.cons_ne_nil f rest

/-- Every proper expression is written so that its pattern may stand where the
writer puts it. -/
theorem rendered (I : Interpretation α) (flags : Flags) (h : e.Proper) : Rendered I flags e := by
  induction h with
  | literal text =>
    have hrow : Spells I .row _ _ := spells_literal flags text
    rw [← render, ← meaning] at hrow
    refine ⟨.option hrow, fun _ => hrow, fun hsingle => ?_⟩
    obtain ⟨c, rfl⟩ := List.length_eq_one_iff.mp (of_decide_eq_true hsingle)
    rw [render, meaning, List.flatMap_singleton]
    exact spells_letter flags c
  | charClass hne =>
    have hatom : Spells I .atom _ _ := spells_renderClass flags hne
    rw [← render, ← meaning] at hatom
    exact ⟨.option (.part hatom), fun _ => .part hatom, fun _ => hatom⟩
  | concat _ _ iha ihb =>
    have hrow := iha.part.append ihb.part
    rw [← render, ← meaning] at hrow
    exact ⟨.option hrow, fun _ => hrow, fun hsingle => by cases hsingle⟩
  | alternation hne _ ih =>
    have hbody := spells_options hne fun e he => (ih e he).body
    rw [← render, ← meaning] at hbody
    exact ⟨hbody, fun htight => absurd htight (by simp [Expr.precedence]),
      fun hsingle => by cases hsingle⟩
  | @repetition body _ quantifier ih =>
    have hrow : Spells I .row (render flags (.repetition body quantifier))
        (meaning I (.repetition body quantifier)) := by
      rw [render]
      cases quantifier with
      | optional =>
        rw [meaning]
        exact .optional ih.repeated
      | star =>
        rw [meaning]
        exact .star ih.repeated
    exact ⟨.option hrow, fun _ => hrow, fun hsingle => by cases hsingle⟩

end Spelling

theorem meaningOfText_languages (text : Word) :
    meaningOfText languages text = (Expr.literal text).language := by
  induction text with
  | nil => exact Expr.language_empty.symm
  | cons c text ih =>
    have hletter : languages.letters {c} = (Expr.literal [c]).language := by
      ext word
      rw [Expr.mem_literal]
      exact exists_eq_left
    cases text with
    | nil => exact hletter
    | cons d text =>
      rw [meaningOfText, ih, hletter]
      · exact (Expr.language_literal_append [c] (d :: text)).symm
      · exact List.cons_ne_nil d text

theorem meaningOfOptions_languages {options : List Expr} (hne : options ≠ [])
    (h : ∀ e ∈ options, meaning languages e = e.language) :
    meaningOfOptions languages options = Expr.languageOfOptions options := by
  induction options with
  | nil => exact absurd rfl hne
  | cons e rest ih =>
    obtain ⟨he, hrest⟩ := List.forall_mem_cons.mp h
    cases rest with
    | nil =>
      rw [meaningOfOptions, he, Expr.languageOfOptions, Expr.languageOfOptions, add_zero]
    | cons f rest =>
      rw [meaningOfOptions, he, ih (List.cons_ne_nil f rest) hrest, Expr.languageOfOptions]
      · rfl
      · exact List.cons_ne_nil f rest

/-- The languages of its parts make the language of a proper expression. -/
theorem meaning_languages (h : e.Proper) : meaning languages e = e.language := by
  induction h with
  | literal text =>
    rw [meaning]
    exact meaningOfText_languages text
  | charClass =>
    rw [meaning, Expr.language]
    rfl
  | concat _ _ iha ihb =>
    rw [meaning, iha, ihb, Expr.language]
    rfl
  | alternation hne _ ih =>
    rw [meaning, Expr.language]
    exact meaningOfOptions_languages hne ih
  | repetition _ quantifier ih =>
    cases quantifier <;> rw [meaning, ih, Expr.language] <;> rfl

/-- What the pattern of a proper expression spells after skipping. -/
theorem spells_render {α : Type} (I : Interpretation α) (flags : Flags) (h : e.Proper) :
    Spells I .body (shown flags (render flags e)) (meaning I e) := by
  rw [(kept_render flags e).shown_eq]
  exact (rendered I flags h).body

/-- The pattern of a proper expression is a pattern for its language. -/
theorem spelled_render (flags : Flags) (h : e.Proper) :
    Spelled flags (render flags e) e.language := by
  rw [Spelled, ← meaning_languages h]
  exact spells_render languages flags h

/-- The pattern of a proper expression is read as a tree that is searched for as
the parts of the expression are, and finds its words. -/
theorem exists_tree (flags : Flags) (hcase : mode.caseInsensitive = false) (h : e.Proper) :
    ∃ tree, read? flags (render flags e) = some tree ∧ ends mode tree = meaning searches e ∧
      Denotes (ends mode tree) e.language := by
  obtain ⟨tree, hread, hdenotes⟩ := (spelled_render flags h).read? hcase
  obtain ⟨tree', hread', hends⟩ := (spells_render searches flags h).read? hcase
  obtain rfl := Option.some.inj (hread.symm.trans hread')
  exact ⟨tree, hread, hends, hdenotes⟩

/-- The search of an expression finds its words. -/
theorem denotes_meaning (h : e.Proper) : Denotes (meaning searches e) e.language := by
  have hcase : ({} : Flags).caseInsensitive = false := rfl
  obtain ⟨tree, -, hends, hdenotes⟩ := exists_tree {} hcase h
  rwa [hends] at hdenotes

/-- The pattern of a proper expression is read as a tree that matches exactly
the words of the expression. -/
theorem read?_render (flags : Flags) (hcase : mode.caseInsensitive = false) (h : e.Proper) :
    ∃ tree, read? flags (render flags e) = some tree ∧
      ∀ word, tree.MatchesWhole mode word ↔ word ∈ e.language := by
  obtain ⟨tree, hread, -, hdenotes⟩ := exists_tree flags hcase h
  exact ⟨tree, hread, fun _ => hdenotes.matchesWhole_iff⟩

/-- The pattern of a proper expression is well formed: it is a pattern for the
language of the expression and for no other. Readers take it as such, and match
exactly the words of the expression when letter case counts. -/
theorem render_wellFormed (flags : Flags) (h : e.Proper) :
    (∀ L, Spelled flags (render flags e) L ↔ L = e.language) ∧
      ∃ tree, read? flags (render flags e) = some tree ∧
        ∀ word, tree.MatchesWhole { flags with caseInsensitive := false } word ↔
          word ∈ e.language := by
  have hspelled := spelled_render flags h
  refine ⟨fun L => ⟨fun hL => hL.unique hspelled, fun hL => hL ▸ hspelled⟩, ?_⟩
  exact read?_render flags rfl h

/-- A repetition of an optional choice between a class, with its members out of
order, and nothing. -/
def nested : Expr :=
  .repetition (.repetition (.alternation [.charClass ['c', ' ', 'a', 'b'], .literal []]) .optional)
    .star

theorem nested_proper : nested.Proper := by
  have hclass : (Expr.charClass ['c', ' ', 'a', 'b']).Proper := .charClass (List.cons_ne_nil _ _)
  have hoptions : ∀ e ∈ [Expr.charClass ['c', ' ', 'a', 'b'], .literal []], e.Proper :=
    List.forall_mem_cons.mpr ⟨hclass, List.forall_mem_singleton.mpr (.literal [])⟩
  exact .repetition (.repetition (.alternation (List.cons_ne_nil _ _) hoptions) .optional) .star

theorem render_wellFormed_nested :
    nested.Proper ∧
      (∀ L, Spelled ⟨true, false, true, true⟩ (render ⟨true, false, true, true⟩ nested) L ↔
        L = nested.language) ∧
      ∃ tree, read? ⟨true, false, true, true⟩ (render ⟨true, false, true, true⟩ nested) =
          some tree ∧
        ∀ word, tree.MatchesWhole ⟨false, false, true, true⟩ word ↔ word ∈ nested.language :=
  ⟨nested_proper, render_wellFormed ⟨true, false, true, true⟩ nested_proper⟩

end WordPattern.Pattern
