import WordPattern.Proofs.Automaton.Cycle
import WordPattern.Proofs.Expr.NormalForm
import WordPattern.Proofs.Generate

/-!
# What generating a pattern comes to

Flag letters are read before the words are looked at, and the first letter
without meaning is the error. With good flags, only an empty list of words is
one. Nothing else can go wrong: no state and no block is ever missing, and the
refinement comes to its end. If every word is empty, so is the pattern. How the
pattern looks otherwise is not described here.
-/

namespace WordPattern

/-- A letter that stands for a flag is taken, and any other is an error. -/
theorem Flags.set_cases (flags : Flags) (letter : Char) :
    (letter ∈ ['i', 'm', 'x', 'u'] ∧ ∃ next, flags.set letter = .ok next) ∨
      letter ∉ ['i', 'm', 'x', 'u'] ∧ flags.set letter = .error (.unknownFlag letter) := by
  by_cases hletter : letter ∈ ['i', 'm', 'x', 'u']
  · refine Or.inl ⟨hletter, ?_⟩
    simp only [List.mem_cons, List.not_mem_nil, or_false] at hletter
    rcases hletter with rfl | rfl | rfl | rfl <;> exact ⟨_, rfl⟩
  · refine Or.inr ⟨hletter, ?_⟩
    simp only [List.mem_cons, List.not_mem_nil, or_false, not_or] at hletter
    obtain ⟨hi, hm, hx, hu⟩ := hletter
    unfold Flags.set
    split <;> first | contradiction | rfl

/-- Reading flag letters ends at the first one without meaning. -/
theorem Flags.foldlM_set_cases (letters : List Char) (flags : Flags) :
    (∃ c, (letters.find? fun c => c ∉ ['i', 'm', 'x', 'u']) = some c ∧
      letters.foldlM Flags.set flags = .error (.unknownFlag c)) ∨
    (letters.find? fun c => c ∉ ['i', 'm', 'x', 'u']) = none ∧
      ∃ final, letters.foldlM Flags.set flags = .ok final := by
  induction letters generalizing flags with
  | nil => exact Or.inr ⟨rfl, flags, rfl⟩
  | cons letter rest ih =>
    rw [List.foldlM_cons]
    rcases flags.set_cases letter with ⟨hknown, next, hset⟩ | ⟨hunknown, hset⟩
    · rw [hset, List.find?_cons_of_neg (by rwa [decide_eq_true_eq, not_not])]
      exact ih next
    · rw [hset, List.find?_cons_of_pos (by rwa [decide_eq_true_eq])]
      exact Or.inl ⟨letter, rfl, rfl⟩

namespace Trie

variable {trie : Trie} {words : List Word}

/-- The expression of empty words is the empty literal. -/
theorem Lists.expression_eq_empty (h : trie.Lists words) (hempty : ∀ word ∈ words, word = [])
    {e : Expr} (he : trie.expression = .ok (some e)) (hmem : ∀ word ∈ e.language, word ∈ words) :
    e = .empty := by
  obtain ⟨m, -, hclosed, hsame, -⟩ := expression_eq h.branching.closed
  rw [hsame] at he
  rcases hclosed.expression_normal he with rfl | hsolid
  · rfl
  · obtain ⟨word, hword, hne⟩ := hsolid.exists_mem_ne_nil
    exact absurd (hempty word (hmem word hword)) hne

/-- Listed words have a pattern if there are any, and an empty one if all of them
are empty. -/
theorem Lists.pattern_eq (h : trie.Lists words) (flags : Flags) : ∃ text,
    trie.pattern flags = (if words = [] then .error .emptyLanguage else .ok text) ∧
      ((∀ word ∈ words, word = []) → text = []) := by
  by_cases hwords : words = []
  · subst hwords
    refine ⟨[], ?_, fun _ => rfl⟩
    rw [if_pos rfl, pattern, h.expression_nil]
    rfl
  · obtain ⟨e, hok, -, hmem⟩ := h.expression_ok hwords
    refine ⟨Pattern.render flags e, ?_, fun hempty => ?_⟩
    · rw [if_neg hwords, pattern, hok]
      rfl
    · rw [h.expression_eq_empty hempty hok fun word => (hmem word).mp]
      rfl

end Trie

/-- The first letter that stands for no flag is the error. With good flags, the
error is that there are no words, or else there is a pattern. -/
theorem generate_cases (words : List String) (letters : String) :
    (∃ c, (letters.toList.find? fun c => c ∉ ['i', 'm', 'x', 'u']) = some c ∧
      generate words letters = .error (.unknownFlag c)) ∨
    (letters.toList.find? fun c => c ∉ ['i', 'm', 'x', 'u']) = none ∧ ∃ text,
      generate words letters = (if words = [] then .error .emptyLanguage else .ok text) ∧
        ((∀ word ∈ words, word = "") → text = "") := by
  rcases Flags.foldlM_set_cases letters.toList {} with ⟨c, hfind, hflags⟩ | ⟨hfind, flags, hflags⟩
  · refine Or.inl ⟨c, hfind, ?_⟩
    rw [generate, Flags.ofLetters, hflags]
    rfl
  · obtain ⟨trie, htrie, h⟩ := Trie.ofWords_spec (words.map String.toList)
    obtain ⟨text, hpattern, hempty⟩ := h.pattern_eq flags
    simp only [List.map_eq_nil_iff] at hpattern
    refine Or.inr ⟨hfind, String.ofList text, ?_, fun hall => ?_⟩
    · rw [generate_eq hflags htrie, hpattern]
      split <;> rfl
    · rw [hempty (by simpa using hall), String.ofList_nil]

/-- Generating a pattern comes to an end without a lookup that is out of range and
without a missing block. For any words there are their trie, its traversal, the end of
its refinement, its minimal automaton, the answer whether this has a cycle, and what
its equations give. The first letter that stands for no flag is the error, whatever the
words are. With good flags, the error is that there are no words, or else there is a
pattern, and it is empty if all words are. -/
theorem generate_outcome (words : List String) (letters : String) :
    ∃ trie ids splitters last m acyclic result text,
      Trie.ofWords (words.map String.toList) = .ok trie ∧ trie.automaton.preorder = .ok ids ∧
      Refinement.Ends trie.automaton ids splitters last ∧
      trie.automaton.quotient last.partition = .ok m ∧ trie.minimal = .ok m ∧
      m.isAcyclic = .ok acyclic ∧ m.expression = .ok result ∧
      (∀ c, (letters.toList.find? fun c => c ∉ ['i', 'm', 'x', 'u']) = some c →
        generate words letters = .error (.unknownFlag c)) ∧
      ((letters.toList.find? fun c => c ∉ ['i', 'm', 'x', 'u']) = none →
        generate words letters = if words = [] then .error .emptyLanguage else .ok text) ∧
      ((∀ word ∈ words, word = "") → text = "") ∧
      ∀ id, generate words letters ≠ .error (.missingBlock id) ∧
        generate words letters ≠ .error (.noSuchState id) := by
  obtain ⟨trie, htrie, h⟩ := Trie.ofWords_spec (words.map String.toList)
  obtain ⟨ids, splitters, last, m, f, hids, hends, hquotient, hminimal, himage, -⟩ :=
    h.branching.closed.minimal_spec
  obtain ⟨acyclic, hacyclic⟩ := himage.closed.isAcyclic_ok
  obtain ⟨result, hresult, -⟩ := himage.closed.expression_spec
  rcases generate_cases words letters with ⟨c, hfind, herror⟩ | ⟨hfind, text, hgood, hempty⟩
  · refine ⟨trie, ids, splitters, last, m, acyclic, result, "", htrie, hids, hends, hquotient,
      hminimal, hacyclic, hresult, fun other hother => ?_, fun hnone => ?_, fun _ => rfl,
      fun id => ?_⟩
    · rw [herror, Option.some.inj (hfind.symm.trans hother)]
    · rw [hnone] at hfind
      cases hfind
    · rw [herror]
      exact ⟨nofun, nofun⟩
  · refine ⟨trie, ids, splitters, last, m, acyclic, result, text, htrie, hids, hends, hquotient,
      hminimal, hacyclic, hresult, fun c hsome => ?_, fun _ => hgood, hempty, fun id => ?_⟩
    · rw [hfind] at hsome
      cases hsome
    · rw [hgood]
      split <;> exact ⟨nofun, nofun⟩

end WordPattern
