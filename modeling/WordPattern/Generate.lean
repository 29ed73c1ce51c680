import WordPattern.Automaton.Minimal
import WordPattern.Expr.Equations
import WordPattern.Pattern.Render
import WordPattern.Pattern.Search
import WordPattern.Trie

/-!
# From words to a pattern

The words are gathered in a trie, states that no word tells apart are joined,
the equations of the smaller automaton are solved, and the expression is
written down. The pattern matches the words and nothing else.
-/

namespace WordPattern

namespace Trie

/-- The minimal automaton of the words. -/
def minimal (trie : Trie) : Except Error Automaton := trie.automaton.minimal

/-- An expression for the words, absent if there are none. -/
def expression (trie : Trie) : Except Error (Option Expr) := do (← trie.minimal).expression

/-- A pattern for the words. -/
def pattern (trie : Trie) (flags : Flags) : Except Error (List Char) := do
  match ← trie.expression with
  | some e => return Pattern.render flags e
  | none => throw .emptyLanguage

/-- A pattern for the words, ready for searching. -/
def matcher (trie : Trie) (flags : Flags) : Except Error Pattern.Matcher := do
  Pattern.compile flags (← trie.pattern flags)

end Trie

/-- A pattern that matches exactly the given words, written under the flags
with the given letters. Flag letters are read before the words are looked at. -/
def generate (words : List String) (letters : String) : Except Error String := do
  let flags ← Flags.ofLetters letters.toList
  let trie ← Trie.ofWords (words.map String.toList)
  let text ← trie.pattern flags
  return String.ofList text

/-- A pattern that matches exactly the given words, ready for searching. -/
def compile (words : List String) (letters : String) : Except Error Pattern.Matcher := do
  let flags ← Flags.ofLetters letters.toList
  let trie ← Trie.ofWords (words.map String.toList)
  trie.matcher flags

end WordPattern
