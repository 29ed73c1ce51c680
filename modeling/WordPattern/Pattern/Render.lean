import WordPattern.Pattern.Token

/-!
# Writing expressions as patterns

In a pattern, options are separated by bars, parts of a concatenation stand
side by side, and a repetition puts its mark behind its body. A part that holds
together less tightly than what surrounds it is grouped, unless it is read as
one character anyhow; so is a repetition under another, whose mark would
otherwise change the meaning of the first. Characters that mean something in
patterns are escaped, and white space is given by number where readers skip it.
-/

namespace WordPattern

/-- The mark of a quantifier. -/
def Quantifier.mark : Quantifier → Char
  | .optional => '?'
  | .star => '*'

namespace Pattern

/-- The number of a character in hexadecimal digits, capitals for letters. -/
def codeDigits (c : Char) : List Char := (Text.hexDigits c.toNat).map Char.toUpper

/-- A character as it is written in a pattern. -/
def escape (flags : Flags) (c : Char) : List Char :=
  if flags.extended && Text.isBlank c then
    ['\\', 'x', '\x7b'] ++ codeDigits c ++ ['\x7d']
  else if c ∈ metaCharacters then ['\\', c]
  else [c]

/-- Puts a character into the last range if it comes right after it, and into a
range of its own otherwise. The ranges are listed last one first. -/
def extendRanges (ranges : List (Char × Char)) (c : Char) : List (Char × Char) :=
  match ranges with
  | (first, last) :: earlier =>
    if last.toNat + 1 = c.toNat then (first, c) :: earlier else (c, c) :: ranges
  | [] => [(c, c)]

/-- The runs of consecutive code points in an ascending list, first and last. -/
def runs (cs : List Char) : List (Char × Char) := (cs.foldl extendRanges []).reverse

/-- A run of consecutive characters: one or two are listed, more are written
with a dash. -/
def renderRun (flags : Flags) (first last : Char) : List Char :=
  match last.toNat - first.toNat with
  | 0 => escape flags first
  | 1 => escape flags first ++ escape flags last
  | _ => escape flags first ++ '-' :: escape flags last

/-- A character class. Members are sorted and gathered into runs, but they are
listed as they come if code points count and one lies beyond U+FFFF. -/
def renderClass (flags : Flags) (members : List Char) : List Char :=
  let body :=
    if flags.unicode && members.any (·.toNat > 0xFFFF) then members.flatMap (escape flags)
    else (runs (members.mergeSort (· ≤ ·))).flatMap fun run => renderRun flags run.1 run.2
  '[' :: body ++ [']']

/-- Puts a pattern into a group. -/
def group (text : List Char) : List Char := ['(', '?', ':'] ++ text ++ [')']

/-- The pattern of a part as it stands where everything holds together with at
least the given precedence. -/
def part (flags : Flags) (precedence : Nat) (e : Expr) (text : List Char) : List Char :=
  if precedence ≤ e.precedence || e.isSingleCharacter ||
      (flags.unicode && e.isSingleCodePoint) then text
  else group text

/-- The pattern of a repetition's body, from the body's own pattern. -/
def repeated (flags : Flags) (body : Expr) (text : List Char) : List Char :=
  match body with
  | .repetition .. => group text
  | body => part flags 3 body text

mutual

/-- The pattern of an expression. -/
def render (flags : Flags) : Expr → List Char
  | .literal text => text.flatMap (escape flags)
  | .charClass members => renderClass flags members
  | .concat a b => part flags 2 a (render flags a) ++ part flags 2 b (render flags b)
  | .alternation options => renderOptions flags options
  | .repetition body quantifier => repeated flags body (render flags body) ++ [quantifier.mark]

/-- The patterns of options with bars between them. Nothing holds together less
tightly than an option, so none is grouped. -/
def renderOptions (flags : Flags) : List Expr → List Char
  | [] => []
  | [e] => render flags e
  | e :: rest => render flags e ++ '|' :: renderOptions flags rest

end

end Pattern

end WordPattern
