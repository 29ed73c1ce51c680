import Mathlib.Data.List.Basic
import WordPattern.Proofs.Pattern.Escaping

/-!
# Reading classes

A class is read as one token with the ranges that the text lists, in their
order. Members and ends of ranges are read alike however they are written. A
dash stands only between the two ends of a range, so none stands where it would
be refused.
-/

namespace WordPattern.Pattern

variable {text : List Char} {ranges before : List (Char × Char)} {c : Char}

/-- The ranges that a class has so far where a member may follow. -/
def ClassState.listed? : ClassState → Option (List (Char × Char))
  | .between ranges => some ranges
  | .member ranges c => some ((c, c) :: ranges)
  | .outside => none
  | .dash .. => none

variable {state : ClassState} {glyph : Glyph}

theorem ne_outside_of_listed (h : state.listed? = some before) : state ≠ .outside := by
  intro he
  rw [he] at h
  cases h

/-- Inside a class, a glyph that does not end the class is taken into it. -/
theorem tokens_take {next : ClassState} (hstate : state ≠ .outside)
    (hglyph : glyph ≠ .plain ']') (htake : state.take? glyph = some next) (rest : List Glyph) :
    tokens state (glyph :: rest) = tokens next rest := by
  rw [tokens.eq_8 state glyph rest hglyph, htake]
  · exact fun _ h => absurd h hstate
  · exact fun h => absurd h hstate
  · exact fun h => absurd h hstate
  · exact fun _ h => absurd h hstate
  · exact fun _ h => absurd h hstate

/-- A glyph that stands for a character adds this character wherever one may be
added. -/
theorem Glyph.StandsFor.take?_eq (h : glyph.StandsFor c) (state : ClassState) :
    state.take? glyph = state.add? c := by
  cases h with
  | escaped => rfl
  | plain hplain =>
    have hdash : c ≠ '-' := fun h => hplain (h ▸ by decide)
    have hsigns : c ∉ ['[', '^', '&', '~'] := by
      intro h
      simp only [List.mem_cons, List.not_mem_nil, or_false] at h
      rcases h with rfl | rfl | rfl | rfl <;> exact hplain (by decide)
    rw [ClassState.take?, if_neg hsigns]
    exact fun h => hdash h

/-- A glyph that stands for a character is no sign with a meaning. -/
theorem Glyph.StandsFor.ne_plain (h : glyph.StandsFor c) {sign : Char}
    (hsign : sign ∈ metaCharacters) : glyph ≠ .plain sign := by
  intro he
  rw [he] at h
  cases h with
  | plain hplain => exact hplain hsign

/-- A character is taken as a member. -/
theorem tokens_member (h : state.listed? = some before) (hglyph : glyph.StandsFor c)
    (rest : List Glyph) : tokens state (glyph :: rest) = tokens (.member before c) rest := by
  refine tokens_take (ne_outside_of_listed h) (hglyph.ne_plain (by decide)) ?_ rest
  rw [hglyph.take?_eq]
  cases state with
  | outside => cases h
  | between =>
    cases h
    rfl
  | member =>
    cases h
    rfl
  | dash => cases h

/-- A dash and a character behind a member make a range. -/
theorem tokens_dash {first last : Char} (hle : first ≤ last) (hglyph : glyph.StandsFor last)
    (rest : List Glyph) :
    tokens (.member before first) (.plain '-' :: glyph :: rest) =
      tokens (.between ((first, last) :: before)) rest := by
  have htake : (ClassState.dash before first).take? glyph =
      some (.between ((first, last) :: before)) := by
    rw [hglyph.take?_eq, ClassState.add?, if_pos hle]
  have hmember : ClassState.member before first ≠ .outside := fun he => by cases he
  have hdash : ClassState.dash before first ≠ .outside := fun he => by cases he
  rw [tokens_take hmember (by decide) (ClassState.take?.eq_2 before first),
    tokens_take hdash (hglyph.ne_plain (by decide)) htake]

/-- Listed ranges are added to those that are read before, which are kept last
one first. -/
theorem Listed.yields (h : Listed text ranges) (hstate : state.listed? = some before) :
    ∃ gs next, Yields text gs ∧ (∀ rest, tokens state (gs ++ rest) = tokens next rest) ∧
      next.listed? = some (ranges.reverse ++ before) := by
  induction h generalizing state before with
  | nil => exact ⟨[], state, yields_nil, fun _ => rfl, hstate⟩
  | @single _ _ ranges c h _ ih =>
    obtain ⟨glyph, hyields, hglyph⟩ := h.yields
    have hmember : (ClassState.member before c).listed? = some ((c, c) :: before) := rfl
    obtain ⟨gs, next, hyields', htokens, hlisted⟩ := ih hmember
    refine ⟨[glyph] ++ gs, next, hyields.append hyields', fun rest => ?_, ?_⟩
    · rw [List.append_assoc, List.singleton_append, tokens_member hstate hglyph, htokens]
    · rw [hlisted, List.reverse_cons, List.append_assoc, List.singleton_append]
  | @range _ _ _ ranges first last hfirst hlast hle _ ih =>
    obtain ⟨glyph, hyields, hglyph⟩ := hfirst.yields
    obtain ⟨glyph', hyields', hglyph'⟩ := hlast.yields
    have hbetween : (ClassState.between ((first, last) :: before)).listed? =
        some ((first, last) :: before) := rfl
    obtain ⟨gs, next, hyields'', htokens, hlisted⟩ := ih hbetween
    have hdash : Yields ['-'] [.plain '-'] := yields_plain (by decide)
    refine ⟨[glyph] ++ ([.plain '-'] ++ [glyph']) ++ gs, next, ?_, fun rest => ?_, ?_⟩
    · exact (hyields.append (hdash.append hyields')).append hyields''
    · rw [List.append_assoc, List.append_assoc, List.singleton_append,
        tokens_member hstate hglyph, List.append_assoc, List.singleton_append,
        List.singleton_append, tokens_dash hle hglyph', htokens]
    · rw [hlisted, List.reverse_cons, List.append_assoc, List.singleton_append]

/-- A class ends with the ranges that it has, if there are any. -/
theorem tokens_close (h : state.listed? = some before) (hne : before ≠ []) (rest : List Glyph) :
    tokens state (.plain ']' :: rest) =
      (tokens .outside rest).map (.oneOf before.reverse :: ·) := by
  have hclose : state.close? = some before.reverse := by
    cases state with
    | outside => cases h
    | between =>
      cases h
      cases before with
      | nil => exact absurd rfl hne
      | cons => rfl
    | member =>
      cases h
      rfl
    | dash => cases h
  rw [tokens.eq_7 state rest (ne_outside_of_listed h), hclose]

/-- A class with members is read as one token that holds the listed ranges. -/
theorem Listed.yields_class (h : Listed text ranges) (hne : ranges ≠ []) :
    ∃ gs, Yields ('[' :: text ++ [']']) gs ∧
      ∀ rest, tokens .outside (gs ++ rest) = (tokens .outside rest).map (.oneOf ranges :: ·) := by
  have hstart : (ClassState.between []).listed? = some [] := rfl
  obtain ⟨gs, last, hyields, htokens, hlisted⟩ := h.yields hstart
  have hopen : Yields ['['] [.plain '['] := yields_plain (by decide)
  have hclose : Yields [']'] [.plain ']'] := yields_plain (by decide)
  have hsome : ranges.reverse ++ [] ≠ [] := by simpa using hne
  have hclass : Yields ('[' :: text ++ [']']) ([.plain '['] ++ gs ++ [.plain ']']) :=
    (hopen.append hyields).append hclose
  refine ⟨_, hclass, fun rest => ?_⟩
  rw [List.append_assoc, List.append_assoc, List.singleton_append, tokens.eq_4, htokens,
    List.singleton_append, tokens_close hlisted hsome, List.append_nil, List.reverse_reverse]

end WordPattern.Pattern
