import WordPattern.Text.Quoted

/-!
# What can go wrong

Each error names its cause; its wording is a function of the cause.
-/

namespace WordPattern

/-- The causes of failure. -/
inductive Error where
  /-- An automaton was asked about a state that it does not have. -/
  | noSuchState (id : Nat)
  /-- A partition was asked about a block that it does not have. -/
  | missingBlock (id : Nat)
  /-- A flag letter without meaning. -/
  | unknownFlag (letter : Char)
  /-- There is no word to match, and no pattern matches nothing. -/
  | emptyLanguage
  /-- A pattern text is not in the language of patterns. -/
  | unreadablePattern
deriving DecidableEq

/-- The wording of an error. An unreadable pattern is not explained further. -/
def Error.message : Error → String
  | noSuchState id => s!"The automaton has no state {id}"
  | missingBlock id => s!"Partition refinement lost track of block {id}"
  | unknownFlag letter => s!"Unknown flag: {Text.quoted letter}"
  | emptyLanguage => "Cannot generate a pattern for an empty set of strings"
  | unreadablePattern => "Generated pattern failed to compile: *"

end WordPattern
