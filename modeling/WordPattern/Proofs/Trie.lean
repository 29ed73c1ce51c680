import WordPattern.Proofs.Automaton.Branching
import WordPattern.Trie

/-!
# The words of a trie

Tries are branching automata beside the letters of their words. Adding a word
never fails: the state at hand is the start or the target of an edge. It adds
this word and its letters and no others. Words may be empty, may repeat and may
come in any order. The numbers of the states depend on the order and are not
described here.
-/

namespace WordPattern

namespace Trie

open Automaton

variable {trie : Trie} {words : List Word}

/-- What is left of a word is added from any state on. The letters of the
alphabet are those from before and those of the word. -/
theorem addFrom_spec (h : trie.automaton.Branching) {id : StateId}
    (hid : id < trie.automaton.numStates) (word : Word) :
    ∃ grown last alphabet, trie.addFrom id word = .ok ⟨grown.accept last, alphabet⟩ ∧
      Completes trie.automaton id word grown last ∧
      ∀ c, c ∈ alphabet.letters ↔ c ∈ trie.alphabet.letters ∨ c ∈ word := by
  induction word generalizing trie id with
  | nil =>
    refine ⟨trie.automaton, id, trie.alphabet, ?_, ⟨h, .refl _, rfl, fun q hq => Or.inl hq⟩, ?_⟩
    · rw [addFrom, setAccepting, edit?_eq_ok hid]
      rfl
    · simp
  | cons letter rest ih =>
    obtain ⟨automaton, next, hextend, hstep⟩ := extend_spec hid letter
    obtain ⟨hbranching, hgrows, hedge, hnew⟩ := h.extends_spec hid hstep
    let between : Trie := ⟨automaton, trie.alphabet.insert letter⟩
    have hbetween : between.automaton.Branching := hbranching
    obtain ⟨grown, last, alphabet, hadd, hrest, hletters⟩ := ih hbetween (hbranching.later hedge).2
    refine ⟨grown, last, alphabet, ?_, hrest.cons hgrows hedge hnew, fun c => ?_⟩
    · rw [addFrom, hextend]
      exact hadd
    · rw [hletters, Alphabet.mem_insert, List.mem_cons, or_left_comm, or_assoc]

/-- A trie has the words that are listed, and nothing else. -/
structure Lists (trie : Trie) (words : List Word) : Prop where
  /-- Every state but the start is entered once. -/
  branching : trie.automaton.Branching
  /-- The words that are accepted are the listed ones. -/
  mem : ∀ word, trie.automaton.verdict start word = some true ↔ word ∈ words
  /-- Every state but perhaps the start is on the way of a word. -/
  fruitful : trie.automaton.Fruitful
  /-- The alphabet has the letters of the words. -/
  letters : ∀ c, c ∈ trie.alphabet.letters ↔ ∃ word ∈ words, c ∈ word

theorem lists_empty : empty.Lists [] := by
  refine ⟨branching_initial, fun word => ?_, fun q hq hstart => ?_, fun c => ?_⟩
  · refine iff_of_false ?_ List.not_mem_nil
    cases word with
    | nil => decide
    | cons letter rest =>
      rw [verdict_cons]
      exact nofun
  · exact absurd (Nat.lt_one_iff.mp hq) hstart
  · exact iff_of_false (Alphabet.notMem_empty c) (by simp)

/-- A word is added to a trie, and becomes one of its words. -/
theorem Lists.add (h : trie.Lists words) (word : Word) :
    ∃ next, trie.add word = .ok next ∧ next.Lists (words ++ [word]) := by
  obtain ⟨grown, last, alphabet, hadd, hgrown, hletters⟩ :=
    addFrom_spec h.branching h.branching.nonempty word
  obtain ⟨hbranching, hwords⟩ := hgrown.branching.accept_spec hgrown.run
  have hlast : last < grown.numStates :=
    hgrown.branching.closed.lt (reachable_iff_run.mpr ⟨word, hgrown.run⟩)
  refine ⟨⟨grown.accept last, alphabet⟩, hadd, hbranching, fun other => ?_,
    h.fruitful.completes hgrown hlast, fun c => ?_⟩
  · rw [hwords, hgrown.grows.verdict h.branching hgrown.branching, h.mem, List.mem_append,
      List.mem_singleton]
  · rw [hletters, h.letters]
    simp only [List.mem_append, List.mem_singleton, or_and_right, exists_or, exists_eq_left]

/-- Words are added one after the other. -/
theorem Lists.addAll (h : trie.Lists words) (more : List Word) :
    ∃ next, trie.addAll more = .ok next ∧ next.Lists (words ++ more) := by
  induction more generalizing trie words with
  | nil => exact ⟨trie, rfl, by rwa [List.append_nil]⟩
  | cons word rest ih =>
    obtain ⟨next, hadd, hnext⟩ := h.add word
    obtain ⟨final, hall, hfinal⟩ := ih hnext
    refine ⟨final, ?_, by rwa [List.append_assoc, List.singleton_append] at hfinal⟩
    rw [Trie.addAll, List.foldlM_cons, hadd]
    exact hall

/-- Any words make a trie. -/
theorem ofWords_spec (words : List Word) : ∃ trie, ofWords words = .ok trie ∧ trie.Lists words :=
  lists_empty.addAll words

end Trie

end WordPattern
