import WordPattern.Generate

/-!
# The command line

The first argument holds flag letters and the lines of standard input are the
words. What is said on either output, and the exit code, is a function of the
arguments and of the bytes of the input. Flags are read first, so wrong ones
are reported whatever the input is.
-/

namespace WordPattern.CommandLine

/-- What a run leaves behind. -/
structure Outcome where
  /-- The exit code. -/
  code : Nat
  /-- What is written to standard output. -/
  out : String
  /-- What is written to standard error. -/
  err : String
deriving DecidableEq

/-- A run that fails with a message. -/
def Outcome.failure (message : String) : Outcome := ⟨1, "", s!"error: {message}\n"⟩

/-- A run that prints a line. -/
def Outcome.success (line : String) : Outcome := ⟨0, s!"{line}\n", ""⟩

/-- Divides bytes into lines. A line ends at a line feed, which takes a carriage
return right before it along; what follows the last line feed is a line unless
it is empty. `line` are the bytes of the current line, last one first. -/
def linesFrom (line : List UInt8) : List UInt8 → List (List UInt8)
  | [] => if line.isEmpty then [] else [line.reverse]
  | byte :: rest =>
    if byte = 10 then
      let ended := match line with
        | 13 :: before => before
        | line => line
      ended.reverse :: linesFrom [] rest
    else linesFrom (byte :: line) rest

/-- The lines of an input. -/
def lines (input : List UInt8) : List (List UInt8) := linesFrom [] input

/-- The text of a line, if it is valid UTF-8. -/
def decode? (line : List UInt8) : Option String := String.fromUTF8? ⟨line.toArray⟩

/-- The flags that the arguments ask for. -/
def readFlags (args : List String) : Except Error Flags :=
  Flags.ofLetters (args.headD "").toList

/-- The outcome for an input under given flags. -/
def answer (flags : Flags) (input : List UInt8) : Outcome :=
  match (lines input).mapM decode? with
  | none => .failure "stream did not contain valid UTF-8"
  | some words =>
    match Trie.ofWords (words.map String.toList) >>= fun trie => trie.pattern flags with
    | .ok text => .success (String.ofList text)
    | .error error => .failure error.message

/-- The outcome for arguments and an input. -/
def run (args : List String) (input : List UInt8) : Outcome :=
  match readFlags args with
  | .ok flags => answer flags input
  | .error error => .failure error.message

end WordPattern.CommandLine
