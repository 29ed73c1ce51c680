import WordPattern.Expr.Basic
import WordPattern.Flags
import WordPattern.Text.Blank

/-!
# Tokens of a pattern

A pattern text is read in three steps, each of which looks at one character
after the other: skipping white space and comments where the flags ask for it,
resolving escapes, and gathering character classes. What is left is a row of
tokens. A text that is refused at any step is in no language of patterns that
is read here; the wider languages of other readers are not claimed.
-/

namespace WordPattern.Pattern

/-- The characters that mean something in patterns. -/
def metaCharacters : List Char :=
  ['\\', '.', '+', '*', '?', '(', ')', '|', '[', ']', '\x7b', '\x7d', '^', '$', '#', '&', '-', '~']

/-- Leaves out white space and comments that are not escaped. A comment runs
from a hash to the end of its line. -/
def skipBlanks (inComment : Bool) : List Char → List Char
  | [] => []
  | '\\' :: c :: rest =>
    if inComment then skipBlanks (c ≠ '\n') rest else '\\' :: c :: skipBlanks false rest
  | c :: rest =>
    if inComment then skipBlanks (c ≠ '\n') rest
    else if c = '#' then skipBlanks true rest
    else if Text.isBlank c then skipBlanks false rest
    else c :: skipBlanks false rest

/-- A character of a pattern after escapes are resolved. -/
inductive Glyph where
  /-- A character that may mean something. -/
  | plain (c : Char)
  /-- A character that was escaped and stands for itself. -/
  | escaped (c : Char)
deriving DecidableEq

/-- How far the reader is in an escape. -/
inductive Escape where
  /-- In no escape. -/
  | outside
  /-- Behind a backslash. -/
  | backslash
  /-- Where the brace of a character number has to follow. -/
  | brace
  /-- In a character number, with the value of its digits so far, if any. -/
  | digits (value : Option Nat)
deriving DecidableEq

/-- The value of a hexadecimal digit. -/
def hexValue? (c : Char) : Option Nat :=
  if '0' ≤ c ∧ c ≤ '9' then some (c.toNat - '0'.toNat)
  else if 'a' ≤ c ∧ c ≤ 'f' then some (c.toNat - 'a'.toNat + 10)
  else if 'A' ≤ c ∧ c ≤ 'F' then some (c.toNat - 'A'.toNat + 10)
  else none

/-- The character with a number, if there is one. -/
def charOfNumber? (n : Nat) : Option Char :=
  if n.isValidChar then some (Char.ofNat n) else none

/-- Resolves escapes. A backslash takes the meaning from a character that has
one, or gives a character by its number. -/
def glyphs : Escape → List Char → Option (List Glyph)
  | .outside, [] => some []
  | .outside, c :: rest =>
    if c = '\\' then glyphs .backslash rest else (glyphs .outside rest).map (.plain c :: ·)
  | .backslash, c :: rest =>
    if c = 'x' then glyphs .brace rest
    else if c ∈ metaCharacters then (glyphs .outside rest).map (.escaped c :: ·)
    else none
  | .brace, c :: rest => if c = '\x7b' then glyphs (.digits none) rest else none
  | .digits value, c :: rest =>
    if c = '\x7d' then
      match value.bind charOfNumber? with
      | some number => (glyphs .outside rest).map (.escaped number :: ·)
      | none => none
    else
      match hexValue? c with
      | some digit => glyphs (.digits (some (value.getD 0 * 16 + digit))) rest
      | none => none
  | _, [] => none

/-- A token of a pattern. -/
inductive Token where
  /-- A character that stands for itself. -/
  | letter (c : Char)
  /-- A character class, given by ranges, both ends included. -/
  | oneOf (ranges : List (Char × Char))
  /-- The beginning of a group. -/
  | groupStart
  /-- The end of a group. -/
  | groupEnd
  /-- The bar between options. -/
  | bar
  /-- The mark of a repetition. -/
  | mark (quantifier : Quantifier)
  /-- The anchor of a beginning. -/
  | lineStart
  /-- The anchor of an end. -/
  | lineEnd
deriving DecidableEq

/-- The token of a plain character outside classes. -/
def tokenOf? (c : Char) : Option Token :=
  match c with
  | ')' => some .groupEnd
  | '|' => some .bar
  | '?' => some (.mark .optional)
  | '*' => some (.mark .star)
  | '^' => some .lineStart
  | '$' => some .lineEnd
  | '.' | '+' | '\x7b' | '\\' | '(' | '[' => none
  | c => some (.letter c)

/-- How far the reader is in a character class, with the ranges read so far,
last one first. -/
inductive ClassState where
  /-- In no class. -/
  | outside
  /-- Where only a member or the end may follow. -/
  | between (ranges : List (Char × Char))
  /-- Behind a member that may begin a range. -/
  | member (ranges : List (Char × Char)) (c : Char)
  /-- Behind the dash of a range. -/
  | dash (ranges : List (Char × Char)) (first : Char)
deriving DecidableEq

/-- Takes a member into a class. -/
def ClassState.add? : ClassState → Char → Option ClassState
  | outside, _ => none
  | between ranges, c => some (member ranges c)
  | member ranges earlier, c => some (member ((earlier, earlier) :: ranges) c)
  | dash ranges first, c => if first ≤ c then some (between ((first, c) :: ranges)) else none

/-- Takes a glyph into a class that it does not end. Plain brackets and the
signs of set operations have no place in a class. -/
def ClassState.take? (state : ClassState) : Glyph → Option ClassState
  | .escaped c => state.add? c
  | .plain '-' =>
    match state with
    | member ranges first => some (dash ranges first)
    | _ => none
  | .plain c => if c ∈ ['[', '^', '&', '~'] then none else state.add? c

/-- The ranges of a class at its end; a class has members. -/
def ClassState.close? : ClassState → Option (List (Char × Char))
  | member ranges c => some ((c, c) :: ranges).reverse
  | between (range :: ranges) => some (range :: ranges).reverse
  | _ => none

/-- Gathers character classes and gives every other glyph its token. -/
def tokens : ClassState → List Glyph → Option (List Token)
  | .outside, [] => some []
  | .outside, .plain '(' :: .plain '?' :: .plain ':' :: rest =>
    (tokens .outside rest).map (.groupStart :: ·)
  | .outside, .plain '(' :: rest =>
    if rest.head? = some (.plain '?') then none else (tokens .outside rest).map (.groupStart :: ·)
  | .outside, .plain '[' :: rest => tokens (.between []) rest
  | .outside, .plain c :: rest =>
    match tokenOf? c with
    | some token => (tokens .outside rest).map (token :: ·)
    | none => none
  | .outside, .escaped c :: rest => (tokens .outside rest).map (.letter c :: ·)
  | state, .plain ']' :: rest =>
    match state.close? with
    | some ranges => (tokens .outside rest).map (.oneOf ranges :: ·)
    | none => none
  | state, glyph :: rest =>
    match state.take? glyph with
    | some next => tokens next rest
    | none => none
  | _, [] => none

/-- The tokens of a pattern text. -/
def tokenize (flags : Flags) (text : List Char) : Option (List Token) := do
  let shown := if flags.extended then skipBlanks false text else text
  tokens .outside (← glyphs .outside shown)

end WordPattern.Pattern
