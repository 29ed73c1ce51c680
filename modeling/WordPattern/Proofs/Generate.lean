import WordPattern.Generate
import WordPattern.Proofs.Automaton.Minimal
import WordPattern.Proofs.Expr.Solution
import WordPattern.Proofs.Pattern.Rendering
import WordPattern.Proofs.Trie

/-!
# The pattern of given words

From words to a pattern every step keeps the language: the trie accepts the
words, its minimal automaton accepts the same, the expression matches what this
accepts, and the pattern is read as a tree that matches what the expression
does. Words are any texts, in any order and as often as one likes. Which match a
search prefers, and how a reader treats letter case, is not described here.
-/

namespace WordPattern

namespace Trie

variable {trie : Trie}

/-- The expression of a trie is that of its minimal automaton, which is closed and
accepts the same words. -/
theorem expression_eq (h : trie.automaton.Closed) :
    ∃ m : Automaton, trie.minimal = .ok m ∧ m.Closed ∧ trie.expression = m.expression ∧
      m.wordsFrom Automaton.start = trie.automaton.wordsFrom Automaton.start := by
  obtain ⟨-, -, -, m, f, -, -, -, hminimal, himage, -⟩ := h.minimal_spec
  refine ⟨m, hminimal, himage.closed, ?_, ?_⟩
  · rw [expression, minimal, hminimal]
    rfl
  · ext word
    have hverdict := himage.verdict .start word
    rw [himage.start] at hverdict
    rw [Automaton.mem_wordsFrom, Automaton.mem_wordsFrom, hverdict]

/-- The expression of a trie is found. It is proper and matches the words of the
trie, and it is absent only if there are none. -/
theorem expression_spec (h : trie.automaton.Closed) :
    ∃ result, trie.expression = .ok result ∧
      Expr.languageOf result = trie.automaton.wordsFrom Automaton.start ∧
      ∀ e, result = some e → e.Proper := by
  obtain ⟨m, -, hclosed, hsame, hwords⟩ := expression_eq h
  obtain ⟨result, hok, hlanguage, hproper⟩ := hclosed.expression_spec
  exact ⟨result, hsame.trans hok, hlanguage.trans hwords, hproper⟩

/-- Listed words have an expression, which is proper and matches these words and no
others. -/
theorem Lists.expression_ok {words : List Word} (h : trie.Lists words) (hwords : words ≠ []) :
    ∃ e, trie.expression = .ok (some e) ∧ e.Proper ∧ ∀ word, word ∈ e.language ↔ word ∈ words := by
  obtain ⟨result, hok, hlanguage, hproper⟩ := expression_spec h.branching.closed
  have hsame : ∀ word, word ∈ Expr.languageOf result ↔ word ∈ words := by
    intro word
    rw [hlanguage, Automaton.mem_wordsFrom, h.mem]
  cases result with
  | none =>
    obtain ⟨word, hword⟩ := List.exists_mem_of_ne_nil _ hwords
    exact absurd ((hsame word).mpr hword) (Language.notMem_zero word)
  | some e => exact ⟨e, hok, hproper e rfl, hsame⟩

/-- Without words there is no expression. -/
theorem Lists.expression_nil (h : trie.Lists []) : trie.expression = .ok none := by
  obtain ⟨result, hok, hlanguage, hproper⟩ := expression_spec h.branching.closed
  cases result with
  | none => exact hok
  | some e =>
    obtain ⟨word, hword⟩ := (hproper e rfl).exists_mem
    rw [← Expr.languageOf_some, hlanguage, Automaton.mem_wordsFrom, h.mem] at hword
    cases hword

end Trie

/-- With good flags, what is generated is the pattern of the trie of the words. -/
theorem generate_eq {words : List String} {letters : String} {flags : Flags} {trie : Trie}
    (hflags : Flags.ofLetters letters.toList = .ok flags)
    (htrie : Trie.ofWords (words.map String.toList) = .ok trie) :
    generate words letters = (trie.pattern flags).map String.ofList := by
  rw [generate, hflags]
  change (Trie.ofWords _ >>= _) = _
  rw [htrie]
  rfl

end WordPattern
