import Mathlib.Data.Finset.Card
import Mathlib.Data.List.Infix
import WordPattern.Proofs.Trie.Minimal

/-!
# Tries that are filled call by call

Words come into a trie one at a time or as lists, and listed words may also be
collected into a new trie. However a trie is filled, it has the words that were
added and their letters. Its states are the beginnings of these words: one word
leads to each state, one edge from an earlier state enters each but the start, and
a word goes on from each, unless there are no words at all. Which number a
beginning gets is not described here.
-/

namespace WordPattern

namespace Trie

open Automaton

variable {trie : Trie} {words : List Word} {q : StateId}

/-- A call that puts words into a trie. -/
inductive Filling where
  /-- One word is added. -/
  | add (word : Word)
  /-- The listed words are added. -/
  | addAll (words : List Word)
  /-- The trie is extended by the listed words. -/
  | extend (words : List Word)
  /-- The listed words are collected into a new trie. -/
  | collect (words : List Word)

/-- The trie after a call. -/
def fill (trie : Trie) : Filling → Except Error Trie
  | .add word => trie.add word
  | .addAll words => trie.addAll words
  | .extend words => trie.addAll words
  | .collect words => ofWords words

/-- The words that were added to the trie at hand, after a call. -/
def Filling.wordsAfter (before : List Word) : Filling → List Word
  | .add word => before ++ [word]
  | .addAll words => before ++ words
  | .extend words => before ++ words
  | .collect words => words

/-- The trie after a sequence of calls. -/
def filled (calls : List Filling) : Except Error Trie := calls.foldlM fill empty

/-- The words that were added by a sequence of calls, since words were last
collected. -/
def added (calls : List Filling) : List Word := calls.foldl Filling.wordsAfter []

/-- A call leads from a trie of some words to a trie of the words after it. -/
theorem Lists.fill (h : trie.Lists words) (call : Filling) :
    ∃ next, trie.fill call = .ok next ∧ next.Lists (call.wordsAfter words) := by
  cases call with
  | add word => exact h.add word
  | addAll more => exact h.addAll more
  | extend more => exact h.addAll more
  | collect others => exact ofWords_spec others

/-- However a trie is filled, it has the added words. -/
theorem filled_spec (calls : List Filling) :
    ∃ trie, filled calls = .ok trie ∧ trie.Lists (added calls) := by
  have hrun : ∀ {trie words}, trie.Lists words → ∃ final, calls.foldlM Trie.fill trie = .ok final ∧
      final.Lists (calls.foldl Filling.wordsAfter words) := by
    induction calls with
    | nil => exact fun h => ⟨_, rfl, h⟩
    | cons call rest ih =>
      intro trie words h
      obtain ⟨next, hfill, hnext⟩ := h.fill call
      obtain ⟨final, hrest, hfinal⟩ := ih hnext
      refine ⟨final, ?_, hfinal⟩
      rw [List.foldlM_cons, hfill]
      exact hrest
  exact hrun lists_empty

/-- The beginnings of the listed words, the empty word always being one. -/
def beginnings (words : List Word) : Finset Word :=
  insert [] (words.flatMap List.inits).toFinset

theorem mem_beginnings {word : Word} :
    word ∈ beginnings words ↔ word = [] ∨ ∃ whole ∈ words, word <+: whole := by
  simp [beginnings]

/-- What the states, the edges and the letters of a trie have to do with the
words that were added to it. -/
structure Holds (trie : Trie) (words : List Word) : Prop where
  /-- The trie accepts the words and no others. -/
  accepts : ∀ word, trie.accepts word = .ok (decide (word ∈ words))
  /-- There are as many states as beginnings. -/
  numStates : trie.numStates = (beginnings words).card
  /-- One word leads to each state. -/
  way : ∀ q < trie.numStates, ∃! word, trie.automaton.runFrom start word = some q
  /-- What leads to a state is a beginning, and each beginning leads to one. -/
  runs : ∀ word, (∃ q, trie.automaton.runFrom start word = some q) ↔ word ∈ beginnings words
  /-- One edge enters each state but the start, and it comes from an earlier
  state. -/
  entered : ∀ q < trie.numStates, q ≠ start → ∃ p letter, p < q ∧
    ∀ source c, trie.automaton.target? source c = some q ↔ source = p ∧ c = letter
  /-- From every state a run leads on to an accepting one, except from the start
  if there are no words. -/
  ends : ∀ q < trie.numStates, (∃ word last, trie.automaton.runFrom q word = some last ∧
    trie.automaton.isAccepting last = true) ↔ q ≠ start ∨ words ≠ []
  /-- The alphabet ascends. -/
  ascending : trie.alphabet.letters.Pairwise (· < ·)
  /-- The alphabet has the letters of the words. -/
  alphabet : ∀ c, c ∈ trie.alphabet.letters ↔ ∃ word ∈ words, c ∈ word

/-- A trie accepts its words and no others. -/
theorem Lists.accepts (h : trie.Lists words) (word : Word) :
    trie.accepts word = .ok (decide (word ∈ words)) := by
  rw [Trie.accepts, h.branching.closed.accepts_eq]
  refine congrArg Except.ok ?_
  rw [Bool.eq_iff_iff, decide_eq_true_eq, ← h.mem]
  cases trie.automaton.verdict start word <;> simp

/-- The words with a run are the beginnings of the words of a trie. -/
theorem Lists.exists_run_iff (h : trie.Lists words) (word : Word) :
    (∃ q, trie.automaton.runFrom start word = some q) ↔ word ∈ beginnings words := by
  rw [mem_beginnings]
  constructor
  · rintro ⟨q, hrun⟩
    by_cases hstart : q = start
    · -- Only the empty word leads to the start.
      left
      exact h.branching.run_injective (hstart ▸ hrun) rfl
    · right
      have hlt : q < trie.automaton.numStates :=
        h.branching.closed.lt (reachable_iff_run.mpr ⟨word, hrun⟩)
      obtain ⟨rest, hrest⟩ := h.fruitful hlt hstart
      obtain ⟨last, hlast, haccepting⟩ := verdict_eq_true_iff.mp hrest
      refine ⟨word ++ rest, (h.mem _).mp (verdict_eq_true_iff.mpr ⟨last, ?_, haccepting⟩),
        List.prefix_append word rest⟩
      rw [runFrom_append, hrun]
      exact hlast
  · rintro (rfl | ⟨whole, hwhole, rest, rfl⟩)
    · exact ⟨start, rfl⟩
    · obtain ⟨last, hlast, -⟩ := verdict_eq_true_iff.mp ((h.mem _).mpr hwhole)
      rw [runFrom_append] at hlast
      obtain ⟨q, hrun, -⟩ := Option.bind_eq_some_iff.mp hlast
      exact ⟨q, hrun⟩

/-- A trie has as many states as its words have beginnings. -/
theorem Lists.numStates (h : trie.Lists words) : trie.numStates = (beginnings words).card := by
  let place : Word → StateId := fun word => (trie.automaton.runFrom start word).getD start
  have hplace : ∀ word ∈ beginnings words,
      trie.automaton.runFrom start word = some (place word) := by
    intro word hword
    obtain ⟨q, hrun⟩ := (h.exists_run_iff word).mpr hword
    rw [hrun]
    simp [place, hrun]
  have hcard : (beginnings words).card = (Finset.range trie.numStates).card := by
    refine Finset.card_bij (fun word _ => place word) ?_ ?_ ?_
    · intro word hword
      have hreach := reachable_iff_run.mpr ⟨word, hplace word hword⟩
      exact Finset.mem_range.mpr (h.branching.closed.lt hreach)
    · intro u hu v hv hsame
      have hrun := hplace v hv
      rw [← hsame] at hrun
      exact h.branching.run_injective (hplace u hu) hrun
    · intro q hq
      obtain ⟨word, hrun⟩ := reachable_iff_run.mp (h.branching.reachable (Finset.mem_range.mp hq))
      have hword := (h.exists_run_iff word).mp ⟨q, hrun⟩
      have hsame := hplace word hword
      rw [hrun, Option.some.injEq] at hsame
      exact ⟨word, hword, hsame.symm⟩
  rw [hcard, Finset.card_range]

/-- From every state of a trie a run leads on to an accepting one, except from the
start of the trie without words. -/
theorem Lists.exists_end_iff (h : trie.Lists words) (hq : q < trie.numStates) :
    (∃ word last, trie.automaton.runFrom q word = some last ∧
      trie.automaton.isAccepting last = true) ↔ q ≠ start ∨ words ≠ [] := by
  constructor
  · rintro ⟨word, last, hrun, haccepting⟩
    by_cases hstart : q = start
    · have hword := (h.mem word).mp (verdict_eq_true_iff.mpr ⟨last, hstart ▸ hrun, haccepting⟩)
      exact Or.inr (List.ne_nil_of_mem hword)
    · exact Or.inl hstart
  · intro hsome
    have hlive : ∃ word, word ∈ trie.automaton.wordsFrom q := by
      by_cases hstart : q = start
      · obtain ⟨word, hword⟩ :=
          List.exists_mem_of_ne_nil words (hsome.resolve_left (not_not.mpr hstart))
        exact h.live hword (h.branching.reachable hq)
      · exact h.fruitful hq hstart
    obtain ⟨word, hword⟩ := hlive
    obtain ⟨last, hrun, haccepting⟩ := verdict_eq_true_iff.mp hword
    exact ⟨word, last, hrun, haccepting⟩

/-- Any sequence of calls fills a trie, and afterwards its states are the beginnings
of the words that were added, and its alphabet has their letters. -/
theorem filled_holds (calls : List Filling) :
    ∃ trie, filled calls = .ok trie ∧ trie.Holds (added calls) := by
  obtain ⟨trie, hfilled, h⟩ := filled_spec calls
  have hbranching := h.branching
  refine ⟨trie, hfilled, h.accepts, h.numStates, ?_, h.exists_run_iff, ?_,
    fun q => h.exists_end_iff, trie.alphabet.ascending, h.letters⟩
  · intro q hq
    obtain ⟨word, hrun⟩ := reachable_iff_run.mp (hbranching.reachable hq)
    exact ⟨word, hrun, fun other hother => hbranching.run_injective hother hrun⟩
  · intro q hq hstart
    obtain ⟨p, letter, hedge⟩ := hbranching.entered hq hstart
    refine ⟨p, letter, (hbranching.later hedge).1, fun source c => ⟨fun hother => ?_, ?_⟩⟩
    · exact hbranching.single hother hedge
    · rintro ⟨rfl, rfl⟩
      exact hedge

end Trie

end WordPattern
