import Mathlib
import WordPattern.Proofs.Generate
import WordPattern.Proofs.Pattern.Longest

/-!
# Searching for given words

In one of the given words, a search with their pattern finds a given word that
stands where the text begins, though not always the whole text. It finds the
whole text if the options of the expression stand in order. The order in which
they are put does not ensure this: options are sorted by the length of their
first option and of their bodies, and for some words a shorter match comes
first.
-/

namespace WordPattern

namespace Trie

variable {trie : Trie}

/-- The expression of a trie leaves no choice open and keeps longer matches
ahead, as far as this does not depend on the order of options. -/
theorem expression_steady (h : trie.automaton.Closed) {e : Expr}
    (he : trie.expression = .ok (some e)) : e.Unambiguous ∧ e.Steady := by
  obtain ⟨m, -, hclosed, hsame, -⟩ := expression_eq h
  rw [hsame] at he
  exact ⟨hclosed.expression_unambiguous he, hclosed.expression_steady he⟩

end Trie

/-- A pattern is generated for words, and in each of them a search with the
pattern finds, where the text begins, one of the words. It finds the whole text
if in no alternation of the expression a word of an option begins a word of a
later one. -/
theorem generate_finds {words : List String} {word : String} (hword : word ∈ words) :
    ∃ trie e text tree, Trie.ofWords (words.map String.toList) = .ok trie ∧
      trie.expression = .ok (some e) ∧
      generate words "" = .ok text ∧ Pattern.read? {} text.toList = some tree ∧
      (∃ found ∈ words, found.toList <+: word.toList ∧
        Pattern.Matcher.find? ⟨text.toList, {}, tree⟩ word.toList =
          some (0, found.utf8ByteSize)) ∧
      (e.LongestFirst → Pattern.Matcher.find? ⟨text.toList, {}, tree⟩ word.toList =
        some (0, word.utf8ByteSize)) := by
  obtain ⟨trie, htrie, h⟩ := Trie.ofWords_spec (words.map String.toList)
  have hin : word.toList ∈ words.map String.toList := List.mem_map_of_mem hword
  obtain ⟨e, hok, hproper, hwords⟩ := h.expression_ok (List.ne_nil_of_mem hin)
  have hcase : ({} : Flags).caseInsensitive = false := rfl
  have hflags : Flags.ofLetters "".toList = .ok {} := rfl
  obtain ⟨tree, hread, hends, hdenotes⟩ := Pattern.exists_tree {} hcase hproper
  obtain ⟨found, hfound, hbegins, hlongest, hfind⟩ :=
    hdenotes.find?_eq (Pattern.render {} e) ((hwords word.toList).mpr hin)
  obtain ⟨listed, hlisted, rfl⟩ := List.mem_map.mp ((hwords found).mp hfound)
  rw [String.ofList_toList] at hfind
  refine ⟨trie, e, String.ofList (Pattern.render {} e), tree, htrie, hok, ?_, ?_, ?_⟩
  · rw [generate_eq hflags htrie, Trie.pattern, hok]
    rfl
  · rwa [String.toList_ofList]
  · rw [String.toList_ofList]
    refine ⟨⟨listed, hlisted, hbegins, hfind⟩, fun horder => ?_⟩
    obtain ⟨hunambiguous, hsteady⟩ := Trie.expression_steady h.branching.closed hok
    have hdescending := Pattern.descending_meaning hproper hunambiguous hsteady horder
    have hwhole : listed = word := String.toList_inj.mp (hlongest (hends ▸ hdescending))
    rwa [hwhole] at hfind

/-- An alternation one of whose options begins with another one. -/
def nestedOptions : Expr :=
  .concat (.literal ['a']) (.alternation
    [.concat (.alternation [.literal ['b', 'c', 'd'], .literal ['g', 'h'], .literal ['y']])
      (.literal ['z']), .literal ['b', 'c', 'd'], .literal ['e', 'f']])

theorem longestFirst_nestedOptions : nestedOptions.LongestFirst := by
  have hconcat : ∀ {t : Word}, (∀ s ∈ [['b', 'c', 'd'], ['g', 'h'], ['y']], ¬s ++ ['z'] <+: t) →
      NeverBegins (Expr.concat (.alternation [.literal ['b', 'c', 'd'], .literal ['g', 'h'],
        .literal ['y']]) (.literal ['z'])).language (Expr.literal t).language := by
    intro t h u hu v hv
    obtain ⟨first, hfirst, last, hlast, rfl⟩ := Language.mem_mul.mp (Expr.language_concat ▸ hu)
    obtain ⟨option, hoption, hfirst⟩ := Expr.mem_alternation.mp hfirst
    obtain ⟨s, hs, rfl⟩ := List.mem_map.mp
      (show option ∈ [['b', 'c', 'd'], ['g', 'h'], ['y']].map Expr.literal from hoption)
    rw [Expr.mem_literal.mp hlast, Expr.mem_literal.mp hv, Expr.mem_literal.mp hfirst]
    exact h s hs
  have hinner : (Expr.alternation ([['b', 'c', 'd'], ['g', 'h'], ['y']].map
      .literal)).LongestFirst := Expr.longestFirst_texts (by decide)
  have hletter : ∀ s : Word, (Expr.literal s).LongestFirst := Expr.longestFirst_literal
  refine Expr.longestFirst_concat.mpr ⟨hletter _, Expr.longestFirst_alternation.mpr ⟨?_, ?_⟩⟩
  · refine .cons (List.forall_mem_cons.mpr ⟨hconcat (by decide), ?_⟩) (List.pairwise_pair.mpr ?_)
    · exact List.forall_mem_singleton.mpr (hconcat (by decide))
    · exact neverBegins_literal (by decide)
  · refine List.forall_mem_cons.mpr ⟨Expr.longestFirst_concat.mpr ⟨hinner, hletter _⟩, ?_⟩
    exact List.forall_mem_cons.mpr ⟨hletter _, List.forall_mem_singleton.mpr (hletter _)⟩

theorem generate_finds_abcdz :
    "abcdz" ∈ ["aef", "aghz", "ayz", "abcdz", "abcd"] ∧
    ∃ trie e text tree, Trie.ofWords (["aef", "aghz", "ayz", "abcdz", "abcd"].map
        String.toList) = .ok trie ∧ trie.expression = .ok (some e) ∧ e.LongestFirst ∧
      generate ["aef", "aghz", "ayz", "abcdz", "abcd"] "" = .ok text ∧
      Pattern.read? {} text.toList = some tree ∧
      Pattern.Matcher.find? ⟨text.toList, {}, tree⟩ "abcdz".toList =
        some (0, "abcdz".utf8ByteSize) := by
  have hword : "abcdz" ∈ ["aef", "aghz", "ayz", "abcdz", "abcd"] := by decide
  obtain ⟨trie, e, text, tree, htrie, hok, hgenerate, hread, -, hwhole⟩ := generate_finds hword
  have hexpression : (Trie.ofWords (["aef", "aghz", "ayz", "abcdz", "abcd"].map
      String.toList) >>= Trie.expression) = .ok (some nestedOptions) := by
    cbv
  obtain rfl : e = nestedOptions := by
    rw [htrie] at hexpression
    have hsame : trie.expression = .ok (some nestedOptions) := hexpression
    rw [hsame] at hok
    cases hok
    rfl
  exact ⟨hword, trie, nestedOptions, text, tree, htrie, hok, longestFirst_nestedOptions, hgenerate,
    hread, hwhole longestFirst_nestedOptions⟩

/-- The options of this pattern are equally long by the estimate, and the one
that comes first matches a shorter beginning of the text. -/
theorem generate_finds_shorter :
    "bcx" ∈ ["ax", "bcx", "b", "bde"] ∧
    generate ["ax", "bcx", "b", "bde"] "" = .ok "b(?:de)?|(?:bc|a)x" ∧
    ∃ tree, Pattern.read? {} "b(?:de)?|(?:bc|a)x".toList = some tree ∧
      Pattern.Matcher.find? ⟨"b(?:de)?|(?:bc|a)x".toList, {}, tree⟩ "bcx".toList = some (0, 1) ∧
      some (0, 1) ≠ some (0, "bcx".utf8ByteSize) := by
  refine ⟨by decide, by cbv, .choice [.sequence [.letter 'b',
      .repeated (.group (.sequence [.letter 'd', .letter 'e'])) .optional],
    .sequence [.group (.choice [.sequence [.letter 'b', .letter 'c'], .letter 'a']),
      .letter 'x']], ?_, ?_, by decide⟩
  · rfl
  · rfl

end WordPattern
