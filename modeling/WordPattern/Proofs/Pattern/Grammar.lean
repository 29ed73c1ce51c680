import Mathlib.Computability.Language
import WordPattern.Pattern.Token

/-!
# The syntax of patterns

Bars hold together least, then come parts side by side, and a mark belongs to
the one atom before it. An atom is a character, a class or a group. A character
that means nothing in patterns stands for itself, one that does follows a
backslash, and any may be given by its number. What a text spells depends on what
is made of its parts; as a rule, a language. White space and comments are left
out before, if the flags ask for it. Anchors, and signs that readers take
literally in some places only, are not part of this syntax.
-/

namespace WordPattern.Pattern

open Computability

/-- What is left of a text when white space and comments are skipped, if the
flags ask for it. -/
def shown (flags : Flags) (text : List Char) : List Char :=
  if flags.extended then skipBlanks false text else text

/-- The number with the given hexadecimal digits, highest one first. -/
def numberOf (values : List Nat) : Nat := values.foldl (fun number value => number * 16 + value) 0

/-- A text is a character as it may be written. -/
inductive Written : List Char → Char → Prop where
  /-- A character without a meaning stands for itself. -/
  | plain {c : Char} (h : c ∉ metaCharacters) : Written [c] c
  /-- A character with a meaning follows a backslash. -/
  | escaped {c : Char} (h : c ∈ metaCharacters) : Written ['\\', c] c
  /-- Any character may be given by its number. -/
  | number {digits : List Char} {values : List Nat} {c : Char}
      (hdigits : digits.map hexValue? = values.map some) (hsome : values ≠ [])
      (hnumber : numberOf values = c.toNat) :
      Written (['\\', 'x', '\x7b'] ++ digits ++ ['\x7d']) c

/-- A character lies in one of the ranges. -/
def Covers (ranges : List (Char × Char)) (c : Char) : Prop :=
  ∃ range ∈ ranges, range.1 ≤ c ∧ c ≤ range.2

/-- A text lists the ranges of a class. -/
inductive Listed : List Char → List (Char × Char) → Prop where
  /-- Nothing is listed. -/
  | nil : Listed [] []
  /-- A member is a range of one character. -/
  | single {text later : List Char} {ranges : List (Char × Char)} {c : Char}
      (h : Written text c) (hlater : Listed later ranges) :
      Listed (text ++ later) ((c, c) :: ranges)
  /-- The ends of a range stand around a dash, in order. -/
  | range {text text' later : List Char} {ranges : List (Char × Char)} {first last : Char}
      (hfirst : Written text first) (hlast : Written text' last) (hle : first ≤ last)
      (hlater : Listed later ranges) :
      Listed (text ++ '-' :: text' ++ later) ((first, last) :: ranges)

/-- What is made of the parts of a pattern. -/
structure Interpretation (α : Type) where
  /-- One character of a set. -/
  letters : Set Char → α
  /-- No parts. -/
  nothing : α
  /-- A part that may be left out. -/
  optional : α → α
  /-- A part that may be repeated. -/
  star : α → α
  /-- One part after the other. -/
  append : α → α → α
  /-- Either of two options. -/
  either : α → α → α

/-- Parts of a pattern give languages. -/
def languages : Interpretation (Language Char) where
  letters members := {word | ∃ c ∈ members, word = [c]}
  nothing := 1
  optional L := 1 + L
  star L := L∗
  append L M := L * M
  either L M := L + M

/-- How much a text may hold. -/
inductive Level where
  /-- One atom. -/
  | atom
  /-- Parts side by side. -/
  | row
  /-- Options with bars between them. -/
  | body

/-- A text spells what an interpretation makes of its parts. -/
inductive Spells {α : Type} (I : Interpretation α) : Level → List Char → α → Prop where
  /-- A character is an atom. -/
  | char {text : List Char} {c : Char} (h : Written text c) : Spells I .atom text (I.letters {c})
  /-- A class is an atom; it has members. -/
  | charClass {text : List Char} {ranges : List (Char × Char)} (h : Listed text ranges)
      (hne : ranges ≠ []) : Spells I .atom ('[' :: text ++ [']']) (I.letters {c | Covers ranges c})
  /-- A group is an atom, whatever stands in it. -/
  | group {text : List Char} {x : α} (h : Spells I .body text x) :
      Spells I .atom (['(', '?', ':'] ++ text ++ [')']) x
  /-- There may be no parts. -/
  | empty : Spells I .row [] I.nothing
  /-- An atom is a part. -/
  | part {text : List Char} {x : α} (h : Spells I .atom text x) : Spells I .row text x
  /-- An atom with a mark behind it may be left out. -/
  | optional {text : List Char} {x : α} (h : Spells I .atom text x) :
      Spells I .row (text ++ ['?']) (I.optional x)
  /-- An atom with a mark behind it may be repeated. -/
  | star {text : List Char} {x : α} (h : Spells I .atom text x) :
      Spells I .row (text ++ ['*']) (I.star x)
  /-- Parts follow each other. -/
  | append {text later : List Char} {x y : α} (h : Spells I .row text x)
      (hlater : Spells I .row later y) : Spells I .row (text ++ later) (I.append x y)
  /-- Parts side by side are an option. -/
  | option {text : List Char} {x : α} (h : Spells I .row text x) : Spells I .body text x
  /-- A bar stands between options. -/
  | bar {text later : List Char} {x y : α} (h : Spells I .body text x)
      (hlater : Spells I .body later y) : Spells I .body (text ++ '|' :: later) (I.either x y)

/-- A text is a pattern for a language under given flags. -/
def Spelled (flags : Flags) (text : List Char) (L : Language Char) : Prop :=
  Spells languages .body (shown flags text) L

variable {text later : List Char} {ranges ranges' : List (Char × Char)} {c : Char}

theorem Listed.append (h : Listed text ranges) (hlater : Listed later ranges') :
    Listed (text ++ later) (ranges ++ ranges') := by
  induction h with
  | nil => exact hlater
  | single h _ ih =>
    rw [List.append_assoc]
    exact .single h ih
  | range hfirst hlast hle _ ih =>
    rw [List.append_assoc]
    exact .range hfirst hlast hle ih

/-- A written character lists itself. -/
theorem Written.listed (h : Written text c) : Listed text [(c, c)] := by
  have hone := Listed.single h .nil
  rwa [List.append_nil] at hone

theorem not_covers_nil : ¬ Covers [] c := by
  simp [Covers]

theorem covers_cons {range : Char × Char} :
    Covers (range :: ranges) c ↔ (range.1 ≤ c ∧ c ≤ range.2) ∨ Covers ranges c := by
  simp [Covers]

/-- A range of one character holds this character. -/
theorem covers_single {d : Char} : Covers ((c, c) :: ranges) d ↔ d = c ∨ Covers ranges d := by
  rw [covers_cons]
  refine or_congr_left ⟨fun h => Char.le_antisymm h.2 h.1, fun h => ?_⟩
  exact h ▸ ⟨Char.le_refl d, Char.le_refl d⟩

end WordPattern.Pattern
