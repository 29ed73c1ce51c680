import WordPattern.Pattern.Tree

/-!
# Searching with a pattern

A search finds the earliest place where a pattern matches and, of the matches
there, the one that is preferred: earlier options before later ones, and one
more repetition before none. Places are counted in bytes of UTF-8. Letter case
is that of ASCII, which is what case means to this search.
-/

namespace WordPattern.Pattern

/-- A place in a text. -/
structure Cursor where
  /-- The number of bytes before the place. -/
  offset : Nat
  /-- The character before the place, if there is one. -/
  previous : Option Char
  /-- The text behind the place. -/
  rest : List Char
deriving DecidableEq

namespace Cursor

/-- The beginning of a text. -/
def ofText (text : List Char) : Cursor := ⟨0, none, text⟩

/-- The place behind the next character, if that satisfies a test. -/
def advanceIf (test : Char → Bool) (here : Cursor) : List Cursor :=
  match here.rest with
  | [] => []
  | c :: rest => if test c then [⟨here.offset + c.utf8Size, some c, rest⟩] else []

/-- Whether a line begins here, where only the beginning of the text counts
unless there are many lines. -/
def atLineStart (flags : Flags) (here : Cursor) : Bool :=
  match here.previous with
  | none => true
  | some c => flags.multiLine && c = '\n'

/-- Whether a line ends here, where only the end of the text counts unless
there are many lines. -/
def atLineEnd (flags : Flags) (here : Cursor) : Bool :=
  match here.rest with
  | [] => true
  | c :: _ => flags.multiLine && c = '\n'

end Cursor

/-- Whether a character of the text is one of a class. -/
def inRanges (flags : Flags) (ranges : List (Char × Char)) (c : Char) : Bool :=
  ranges.any fun range =>
    (range.1 ≤ c && c ≤ range.2) ||
      (flags.caseInsensitive &&
        ((range.1 ≤ c.toLower && c.toLower ≤ range.2) ||
          (range.1 ≤ c.toUpper && c.toUpper ≤ range.2)))

/-- Where matches of a body end when it is matched again and again, longest way
first. A match of nothing is not repeated, so the text that is left bounds the
number of matches. -/
def repeatEnds (body : Cursor → List Cursor) : Nat → Cursor → List Cursor
  | 0, here => [here]
  | count + 1, here =>
    ((body here).filter fun next => next.rest.length < here.rest.length).flatMap
      (repeatEnds body count) ++ [here]

mutual

/-- Where the matches of a tree end that begin here, preferred one first. -/
def ends (flags : Flags) : Tree → Cursor → List Cursor
  | .letter c, here => here.advanceIf (inRanges flags [(c, c)])
  | .oneOf ranges, here => here.advanceIf (inRanges flags ranges)
  | .lineStart, here => if here.atLineStart flags then [here] else []
  | .lineEnd, here => if here.atLineEnd flags then [here] else []
  | .group body, here => ends flags body here
  | .sequence items, here => endsOfSequence flags items here
  | .choice options, here => endsOfChoice flags options here
  | .repeated body .optional, here => ends flags body here ++ [here]
  | .repeated body .star, here => repeatEnds (ends flags body) here.rest.length here

/-- Where the matches of items one after the other end. -/
def endsOfSequence (flags : Flags) : List Tree → Cursor → List Cursor
  | [], here => [here]
  | tree :: later, here => (ends flags tree here).flatMap (endsOfSequence flags later)

/-- Where the matches of options end. -/
def endsOfChoice (flags : Flags) : List Tree → Cursor → List Cursor
  | [], _ => []
  | tree :: later, here => ends flags tree here ++ endsOfChoice flags later here

end

/-- The first match that begins at or behind the place before `rest`. -/
def findFrom (flags : Flags) (tree : Tree) (offset : Nat) (previous : Option Char) :
    List Char → Option (Nat × Nat)
  | [] => (ends flags tree ⟨offset, previous, []⟩).head?.map fun stop => (offset, stop.offset)
  | c :: rest =>
    match ends flags tree ⟨offset, previous, c :: rest⟩ with
    | stop :: _ => some (offset, stop.offset)
    | [] => findFrom flags tree (offset + c.utf8Size) (some c) rest

/-- A pattern ready for searching. -/
structure Matcher where
  /-- The text of the pattern. -/
  source : List Char
  /-- The flags under which it was read. -/
  flags : Flags
  /-- What was read. -/
  tree : Tree

/-- Patterns nested more deeply than this are refused. -/
def nestLimit : Nat := 250

/-- Reads a pattern for searching. -/
def compile (flags : Flags) (text : List Char) : Except Error Matcher :=
  match read? flags text with
  | some tree =>
    if tree.depth ≤ nestLimit then .ok ⟨text, flags, tree⟩ else .error .unreadablePattern
  | none => .error .unreadablePattern

/-- Where the first match in a text begins and ends, in bytes. -/
def Matcher.find? (matcher : Matcher) (text : List Char) : Option (Nat × Nat) :=
  findFrom matcher.flags matcher.tree 0 none text

end WordPattern.Pattern
