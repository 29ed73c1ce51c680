import WordPattern.Alphabet
import WordPattern.Automaton.Basic

/-!
# Tries

A trie holds a finite set of words as an automaton in which words share the
states of their common beginnings. States are numbered in the order in which
the words first need them, so a word that the trie already has changes nothing.
The characters of the words are kept beside the automaton.
-/

namespace WordPattern

/-- A set of words. -/
structure Trie where
  /-- The automaton that accepts the words. -/
  automaton : Automaton := .initial
  /-- The characters of the words. -/
  alphabet : Alphabet := .empty
deriving DecidableEq

namespace Trie

/-- The trie without words. -/
def empty : Trie := {}

/-- Adds what is left of a word from a state on. -/
def addFrom (trie : Trie) (id : StateId) : Word → Except Error Trie
  | [] => do return { trie with automaton := ← trie.automaton.setAccepting id true }
  | letter :: rest => do
    let alphabet := trie.alphabet.insert letter
    let (automaton, next) ← trie.automaton.extend id letter
    addFrom ⟨automaton, alphabet⟩ next rest

/-- Adds a word. -/
def add (trie : Trie) (word : Word) : Except Error Trie := trie.addFrom Automaton.start word

/-- Adds words one after the other. -/
def addAll (trie : Trie) (words : List Word) : Except Error Trie := words.foldlM add trie

/-- The trie of the listed words. -/
def ofWords (words : List Word) : Except Error Trie := empty.addAll words

/-- The number of states, which is the number of beginnings of the words. -/
def numStates (trie : Trie) : Nat := trie.automaton.numStates

/-- Whether the trie has a word. -/
def accepts (trie : Trie) (word : Word) : Except Error Bool := trie.automaton.accepts word

end Trie

end WordPattern
