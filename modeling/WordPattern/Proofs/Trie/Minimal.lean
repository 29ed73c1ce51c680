import WordPattern.Generate
import WordPattern.Proofs.Automaton.Residual
import WordPattern.Proofs.Trie

/-!
# The minimal automaton of a trie

Every state of a trie but perhaps the start accepts some word: a new state is
made only on the way to a word that is being added, and no word is ever taken
out. So the minimal automaton of a trie has one state for each residual of the
listed words, and lists of the same words give the same automaton up to the
numbers of its states, whatever their order and repeats. The numbers themselves
depend on the order and are not described here.
-/

namespace WordPattern

namespace Trie

open Automaton

variable {trie : Trie} {words : List Word}

/-- The trie of some words is live: the start accepts them. -/
theorem Lists.live (h : trie.Lists words) {word : Word} (hword : word ∈ words) :
    trie.automaton.Live := by
  intro p hp
  by_cases hstart : p = start
  · exact ⟨word, hstart ▸ mem_wordsFrom.mpr ((h.mem word).mpr hword)⟩
  · exact h.fruitful (h.branching.closed.lt hp) hstart

/-- The listed words as a language. -/
def wordsOf (words : List Word) : Language Char := {word | word ∈ words}

theorem Lists.wordsFrom_eq (h : trie.Lists words) :
    trie.automaton.wordsFrom start = wordsOf words :=
  Set.ext h.mem

/-- The minimal automaton of a trie has the residuals of its words as its states. -/
theorem Lists.minimal_isResidual (h : trie.Lists words) :
    ∃ m, trie.minimal = .ok m ∧ IsResidual (wordsOf words) m := by
  obtain ⟨-, -, -, m, f, -, -, -, hminimal, himage, -, hnumber⟩ := h.branching.closed.minimal_spec
  refine ⟨m, hminimal, ?_⟩
  cases words with
  | nil =>
    have hempty : wordsOf [] = 0 := Set.ext fun word =>
      iff_of_false List.not_mem_nil (Language.notMem_zero word)
    have hnone : ∀ word, word ∉ trie.automaton.wordsFrom start := fun word hword =>
      List.not_mem_nil ((h.mem word).mp hword)
    rw [hempty]
    refine himage.isResidual_lone ?_ fun letter => ?_
    · by_contra haccepting
      exact hnone [] (nil_mem_wordsFrom.mpr (eq_true_of_ne_false haccepting))
    · by_contra hedge
      -- An edge would lead to a new state, which would be on the way of a word.
      obtain ⟨q, hq⟩ := Option.ne_none_iff_exists'.mp hedge
      obtain ⟨hlater, hlt⟩ := h.branching.later hq
      obtain ⟨word, hword⟩ := h.fruitful hlt (Nat.ne_of_gt hlater)
      exact hnone (letter :: word) (cons_mem_wordsFrom.mpr ⟨q, hq, hword⟩)
  | cons word rest =>
    rw [← h.wordsFrom_eq]
    exact (h.live List.mem_cons_self).isResidual himage hnumber

/-- The minimal automaton of listed words has one state for each residual of the
words that is not empty, or one state that rejects if there are no words. Its
start goes with the words themselves, runs may end where the empty word may
follow, and edges lead from what may follow to what may follow one letter more.
Lists of the same words give isomorphic automata. -/
theorem minimal_residuals (words : List Word) :
    ∃ trie m, ofWords words = .ok trie ∧ trie.minimal = .ok m ∧ IsResidual (wordsOf words) m ∧
      ∀ others : List Word, (∀ word, word ∈ others ↔ word ∈ words) →
        ∃ other n, ofWords others = .ok other ∧ other.minimal = .ok n ∧ Isomorphic m n := by
  obtain ⟨trie, htrie, h⟩ := ofWords_spec words
  obtain ⟨m, hminimal, hm⟩ := h.minimal_isResidual
  refine ⟨trie, m, htrie, hminimal, hm, fun others hsame => ?_⟩
  obtain ⟨other, hother, h'⟩ := ofWords_spec others
  obtain ⟨n, hminimal', hn⟩ := h'.minimal_isResidual
  have hwords : wordsOf others = wordsOf words := Set.ext hsame
  exact ⟨other, n, hother, hminimal', hm.isomorphic (hwords ▸ hn)⟩

end Trie

end WordPattern
