import WordPattern.Proofs.Pattern.Grammar

/-!
# Reading written characters

A written character is read as one glyph that stands for it: escaped if it
follows a backslash or is given by its number, plain otherwise. The pass is
described for any text that follows, so that the pieces of a pattern can be read
one after the other.
-/

namespace WordPattern.Pattern

variable {text later : List Char} {c : Char}

/-- Text that is read as a row of glyphs, whatever follows it. -/
def Yields (text : List Char) (gs : List Glyph) : Prop :=
  ∀ rest, glyphs .outside (text ++ rest) = (glyphs .outside rest).map (gs ++ ·)

variable {gs gs' : List Glyph}

theorem yields_nil : Yields [] [] := fun _ => by simp

theorem Yields.append (h : Yields text gs) (hlater : Yields later gs') :
    Yields (text ++ later) (gs ++ gs') := by
  intro rest
  rw [List.append_assoc, h, hlater, Option.map_map]
  simp [Function.comp_def]

/-- A character that does not begin an escape is plain. -/
theorem yields_plain (h : c ≠ '\\') : Yields [c] [.plain c] := by
  intro rest
  rw [List.singleton_append, glyphs.eq_2, if_neg h]
  rfl

/-- A digit is added to the number that is read. -/
theorem glyphs_digit {digit : Char} {value : Nat} (h : hexValue? digit = some value)
    (before : Option Nat) (rest : List Char) :
    glyphs (.digits before) (digit :: rest) =
      glyphs (.digits (some (before.getD 0 * 16 + value))) rest := by
  have hnone : hexValue? '\x7d' = none := by decide
  have hbrace : digit ≠ '\x7d' := by
    intro he
    rw [he, hnone] at h
    cases h
  rw [glyphs.eq_5, if_neg hbrace, h]

/-- Digits are added one after the other. -/
theorem glyphs_digits {digits : List Char} {values : List Nat}
    (h : digits.map hexValue? = values.map some) (number : Nat) (rest : List Char) :
    glyphs (.digits (some number)) (digits ++ rest) =
      glyphs (.digits (some (values.foldl (fun number value => number * 16 + value) number)))
        rest := by
  induction digits generalizing values number with
  | nil =>
    cases values with
    | nil => rfl
    | cons => cases h
  | cons digit digits ih =>
    cases values with
    | nil => cases h
    | cons value values =>
      obtain ⟨hdigit, hdigits⟩ := List.cons.inj h
      rw [List.cons_append, glyphs_digit hdigit, ih hdigits]
      rfl

/-- Reading the digits of a number gives the number. -/
theorem glyphs_number {digits : List Char} {values : List Nat}
    (h : digits.map hexValue? = values.map some) (hsome : values ≠ []) (rest : List Char) :
    glyphs (.digits none) (digits ++ rest) = glyphs (.digits (some (numberOf values))) rest := by
  cases values with
  | nil => exact absurd rfl hsome
  | cons value values =>
    cases digits with
    | nil => cases h
    | cons digit digits =>
      obtain ⟨hdigit, hdigits⟩ := List.cons.inj h
      rw [List.cons_append, glyphs_digit hdigit, glyphs_digits hdigits]
      rfl

theorem charOfNumber?_toNat (c : Char) : charOfNumber? c.toNat = some c := by
  have hvalid : c.toNat.isValidChar := c.valid
  rw [charOfNumber?, if_pos hvalid, Char.ofNat_toNat]

/-- A glyph stands for a character wherever characters may stand. -/
inductive Glyph.StandsFor : Glyph → Char → Prop where
  /-- An escaped character stands for itself. -/
  | escaped (c : Char) : StandsFor (.escaped c) c
  /-- A plain character stands for itself if it means nothing. -/
  | plain {c : Char} (h : c ∉ metaCharacters) : StandsFor (.plain c) c

/-- A written character is read as one glyph that stands for it. -/
theorem Written.yields (h : Written text c) : ∃ glyph, Yields text [glyph] ∧ glyph.StandsFor c := by
  cases h with
  | plain h =>
    have hback : c ≠ '\\' := fun he => h (he ▸ by decide)
    exact ⟨.plain c, yields_plain hback, .plain h⟩
  | escaped h =>
    have hx : c ≠ 'x' := by
      intro hx
      rw [hx] at h
      exact absurd h (by decide)
    refine ⟨.escaped c, fun rest => ?_, .escaped c⟩
    rw [List.cons_append, List.singleton_append, glyphs.eq_2, if_pos rfl, glyphs.eq_3, if_neg hx,
      if_pos h]
    rfl
  | number hdigits hsome hnumber =>
    refine ⟨.escaped c, fun rest => ?_, .escaped c⟩
    simp only [List.append_assoc, List.cons_append, List.nil_append]
    rw [glyphs.eq_2, if_pos rfl, glyphs.eq_3, if_pos rfl, glyphs.eq_4, if_pos rfl,
      glyphs_number hdigits hsome, glyphs.eq_5, if_pos rfl, hnumber]
    simp [charOfNumber?_toNat]

end WordPattern.Pattern
