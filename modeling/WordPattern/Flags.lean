import WordPattern.Error

/-!
# Flags

Flags are given by letters, in any order and as often as one likes, and are
shown in a fixed order, each once.
-/

namespace WordPattern

/-- The settings under which a pattern is written and read. -/
structure Flags where
  /-- Letters match in either case. -/
  caseInsensitive : Bool := false
  /-- The anchors also match at line ends. -/
  multiLine : Bool := false
  /-- White space and comments in a pattern are skipped. -/
  extended : Bool := false
  /-- Characters beyond U+FFFF count as one when a pattern is written. -/
  unicode : Bool := false
deriving DecidableEq

namespace Flags

/-- Sets the flag that a letter stands for. -/
def set (flags : Flags) : Char → Except Error Flags
  | 'i' => .ok { flags with caseInsensitive := true }
  | 'm' => .ok { flags with multiLine := true }
  | 'x' => .ok { flags with extended := true }
  | 'u' => .ok { flags with unicode := true }
  | letter => .error (.unknownFlag letter)

/-- Reads flag letters. The first one without meaning is the error. -/
def ofLetters (letters : List Char) : Except Error Flags := letters.foldlM set {}

/-- The letters of the flags that are set. -/
def letters (flags : Flags) : List Char :=
  [(flags.caseInsensitive, 'i'), (flags.multiLine, 'm'), (flags.extended, 'x'),
    (flags.unicode, 'u')].filterMap fun (isSet, letter) => if isSet then some letter else none

end Flags

end WordPattern
