import WordPattern.Pattern.Token

/-!
# Pattern trees and how they are read

A pattern is read from its tokens with a stack of the groups that are open. A
repetition mark applies to the one item before it, items side by side form a
sequence, and bars divide the options of a group or of the whole pattern. Two
marks on one item are not read.
-/

namespace WordPattern.Pattern

/-- A pattern as it is read. -/
inductive Tree where
  /-- A character. -/
  | letter (c : Char)
  /-- Any character of the ranges. -/
  | oneOf (ranges : List (Char × Char))
  /-- A place where a line begins. -/
  | lineStart
  /-- A place where a line ends. -/
  | lineEnd
  /-- A group. -/
  | group (body : Tree)
  /-- Items one after the other, not exactly one of them. -/
  | sequence (items : List Tree)
  /-- Options in the order in which they are tried, not exactly one of them. -/
  | choice (options : List Tree)
  /-- A body as often as the quantifier allows. -/
  | repeated (body : Tree) (quantifier : Quantifier)

/-- A sequence; a single item stands for itself. -/
def Tree.ofItems : List Tree → Tree
  | [item] => item
  | items => .sequence items

/-- A choice; a single option stands for itself. -/
def Tree.ofOptions : List Tree → Tree
  | [option] => option
  | options => .choice options

/-- What has been read of a group, or of the whole pattern. -/
structure Frame where
  /-- The options that are complete, last one first. -/
  options : List Tree := []
  /-- The items of the current option, last one first. -/
  items : List Tree := []

namespace Frame

/-- Adds an item to the current option. -/
def push (frame : Frame) (item : Tree) : Frame := { frame with items := item :: frame.items }

/-- Completes the current option. -/
def nextOption (frame : Frame) : Frame :=
  { options := .ofItems frame.items.reverse :: frame.options, items := [] }

/-- The tree of what has been read. -/
def close (frame : Frame) : Tree := .ofOptions frame.nextOption.options.reverse

/-- Applies a repetition mark to the last item. -/
def repeatLast? (frame : Frame) (quantifier : Quantifier) : Option Frame :=
  match frame.items with
  | [] => none
  | .repeated .. :: _ => none
  | last :: earlier => some { frame with items := .repeated last quantifier :: earlier }

end Frame

/-- Reads tokens into the current group; `outer` are the groups around it,
innermost first. -/
def readTokens : List Token → Frame → List Frame → Option Tree
  | [], frame, [] => some frame.close
  | [], _, _ :: _ => none
  | .groupStart :: rest, frame, outer => readTokens rest {} (frame :: outer)
  | .groupEnd :: rest, frame, parent :: outer =>
    readTokens rest (parent.push (.group frame.close)) outer
  | .groupEnd :: _, _, [] => none
  | .bar :: rest, frame, outer => readTokens rest frame.nextOption outer
  | .mark quantifier :: rest, frame, outer =>
    match frame.repeatLast? quantifier with
    | some frame => readTokens rest frame outer
    | none => none
  | .letter c :: rest, frame, outer => readTokens rest (frame.push (.letter c)) outer
  | .oneOf ranges :: rest, frame, outer => readTokens rest (frame.push (.oneOf ranges)) outer
  | .lineStart :: rest, frame, outer => readTokens rest (frame.push .lineStart) outer
  | .lineEnd :: rest, frame, outer => readTokens rest (frame.push .lineEnd) outer

/-- Reads a pattern text. -/
def read? (flags : Flags) (text : List Char) : Option Tree := do
  readTokens (← tokenize flags text) {} []

mutual

/-- How deeply a tree is nested. Single characters and anchors do not count,
and a class counts twice if it lists more than one range. -/
def Tree.depth : Tree → Nat
  | .letter _ | .lineStart | .lineEnd => 0
  | .oneOf ranges => if 2 ≤ ranges.length then 2 else 1
  | .group body => body.depth + 1
  | .sequence [] => 0
  | .sequence items => Tree.depthOfList items + 1
  | .choice [] => 0
  | .choice options => Tree.depthOfList options + 1
  | .repeated body _ => body.depth + 1

/-- How deeply the deepest of several trees is nested. -/
def Tree.depthOfList : List Tree → Nat
  | [] => 0
  | tree :: rest => max tree.depth (Tree.depthOfList rest)

end

end WordPattern.Pattern
