import Mathlib
import WordPattern.Proofs.Expr.Bottleneck
import WordPattern.Proofs.Generate

/-!
# Adjacent literals in the expression of given words

In the expression of given words two literals may be adjacent, although they could
be one. This never happens where a concatenation begins, so a union finds all the
text that its sides expose at the start. Elsewhere it happens only if the minimal
automaton of the words has a bottleneck, and then a union may miss some of the text
that its sides expose at the end.
-/

namespace WordPattern

namespace Trie

/-- Given words have an expression. Where two literals are adjacent among the
factors of one of its parts, another factor comes before them, and the minimal
automaton of the words has a bottleneck. -/
theorem expression_adjacent {words : List Word} (hwords : words ≠ []) :
    ∃ trie m order e, ofWords words = .ok trie ∧ trie.minimal = .ok m ∧
      m.preorder = .ok order ∧ trie.expression = .ok (some e) ∧
      ∀ x, Expr.Part x e → ∀ before s t after,
        x.factors = before ++ .literal s :: .literal t :: after →
          before ≠ [] ∧ ∃ p k, m.Bottleneck order p k := by
  obtain ⟨trie, htrie, h⟩ := ofWords_spec words
  obtain ⟨m, hminimal, hclosed, hsame, -⟩ := expression_eq h.branching.closed
  obtain ⟨order, hok, -⟩ := hclosed.preorder_spec
  obtain ⟨e, he, -⟩ := h.expression_ok hwords
  refine ⟨trie, m, order, e, htrie, hminimal, hok, he, fun x hpart before s t after hfactors => ?_⟩
  rw [hsame] at he
  exact hclosed.bottleneck_of_adjacent hok he hpart hfactors

/-- Words with a bottleneck behind which text meets text. -/
def joinedWords : List Word := ["ty", "tyc", "aty", "atyc"].map String.toList

theorem expression_adjacent_joinedWords : joinedWords ≠ [] ∧
    ∃ trie m order e, ofWords joinedWords = .ok trie ∧ trie.minimal = .ok m ∧
      m.preorder = .ok order ∧ trie.expression = .ok (some e) ∧
      (∀ x, Expr.Part x e → ∀ before s t after,
        x.factors = before ++ .literal s :: .literal t :: after →
          before ≠ [] ∧ ∃ p k, m.Bottleneck order p k) := by
  have hwords : joinedWords ≠ [] := by decide
  exact ⟨hwords, expression_adjacent hwords⟩

/-- The expression of these words has two adjacent literals. -/
theorem expression_joinedWords : joinedWords ≠ [] ∧
    ∃ e, (ofWords joinedWords >>= expression) = .ok (some e) ∧
      e.factors = [.repetition (.literal ['a']) .optional] ++ .literal ['t'] :: .literal ['y'] ::
        [.repetition (.literal ['c']) .optional] :=
  ⟨by decide, .concat (.concat (.repetition (.literal ['a']) .optional) (.literal ['t']))
    (.concat (.literal ['y']) (.repetition (.literal ['c']) .optional)), by cbv, rfl⟩

end Trie

end WordPattern
