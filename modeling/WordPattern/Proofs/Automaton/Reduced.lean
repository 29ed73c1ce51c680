import Mathlib
import WordPattern.Proofs.Automaton.Residual

/-!
# States of a minimal automaton that accept the same words

The minimal automaton joins states that no word tells apart, and an undefined
run counts there as different from one that rejects. Two of its states that
accept the same words are therefore told apart by a run that one of them has and
the other lacks, and such a run ends where nothing is accepted. So the minimal
automaton is reduced, its states accepting different words, exactly when states
that accept the same words have edges with the same letters. This holds if every
state accepts some word, as in a trie with words. States that accept nothing are
neither removed nor joined with missing edges.
-/

namespace WordPattern.Automaton

variable {a m : Automaton} {f : StateId → StateId} {p q : StateId} {word : Word}

/-- No two states accept the same words, where runs that miss an edge reject. -/
def Reduced (a : Automaton) : Prop :=
  ∀ p q, p < a.numStates → q < a.numStates →
    (∀ word, a.acceptsFrom p word = a.acceptsFrom q word) → p = q

/-- From reachable states of a closed automaton the same words are accepted
exactly when acceptance has the same outcomes. -/
theorem Closed.acceptsFrom_eq_iff (h : a.Closed) (hp : a.Reachable p) (hq : a.Reachable q) :
    (∀ word, a.acceptsFrom p word = a.acceptsFrom q word) ↔ a.wordsFrom p = a.wordsFrom q := by
  have hone : ∀ word, a.acceptsFrom p word = a.acceptsFrom q word ↔
      (word ∈ a.wordsFrom p ↔ word ∈ a.wordsFrom q) := by
    intro word
    rw [h.acceptsFrom_eq hp, h.acceptsFrom_eq hq, mem_wordsFrom, mem_wordsFrom,
      Except.ok.injEq, Bool.eq_iff_iff]
    cases a.verdict p word <;> cases a.verdict q word <;> simp
  constructor
  · intro hall
    ext word
    exact (hone word).mp (hall word)
  · intro hwords word
    exact (hone word).mpr (hwords ▸ Iff.rfl)

/-- A run that is defined from one of two states that accept the same words and
not from the other ends where nothing is accepted. -/
theorem notMem_wordsFrom_of_run (hwords : a.wordsFrom p = a.wordsFrom q) {last : StateId}
    (hrun : a.runFrom p word = some last) (hnone : a.runFrom q word = none) (later : Word) :
    later ∉ a.wordsFrom last := by
  intro hlater
  have hlonger : word ++ later ∈ a.wordsFrom p := by
    rw [mem_wordsFrom, verdict, runFrom_append, hrun]
    exact hlater
  rw [hwords, mem_wordsFrom, verdict, runFrom_append, hnone] at hlonger
  cases hlonger

/-- States that accept the same words and that some word tells apart differ by a
run that only one of them has, which ends where nothing is accepted. -/
theorem exists_run_of_not_alike (hwords : a.wordsFrom p = a.wordsFrom q) (h : ¬a.Alike p q) :
    ∃ word last, (∀ later, later ∉ a.wordsFrom last) ∧
      (a.runFrom p word = some last ∧ a.runFrom q word = none ∨
        a.runFrom p word = none ∧ a.runFrom q word = some last) := by
  obtain ⟨word, hword⟩ := not_forall.mp h
  have hsame : a.verdict p word = some true ↔ a.verdict q word = some true := by
    rw [← mem_wordsFrom, ← mem_wordsFrom, hwords]
  cases hp : a.runFrom p word with
  | none =>
    cases hq : a.runFrom q word with
    | none => exact absurd (by rw [verdict, verdict, hp, hq]) hword
    | some last => exact ⟨word, last, notMem_wordsFrom_of_run hwords.symm hq hp, Or.inr ⟨hp, hq⟩⟩
  | some last =>
    cases hq : a.runFrom q word with
    | none => exact ⟨word, last, notMem_wordsFrom_of_run hwords hp hq, Or.inl ⟨hp, hq⟩⟩
    | some other =>
      rw [verdict, verdict, hp, hq] at hword hsame
      simp only [Option.map_some, Option.some.injEq] at hword hsame
      exact absurd (Bool.eq_iff_iff.mpr hsame) hword

/-- An image that numbers alike states alike is reduced exactly when the
automaton is uniform. -/
theorem Image.reduced_iff (h : Image a m f)
    (hnumber : ∀ {s t}, a.Reachable s → a.Reachable t → (f s = f t ↔ a.Alike s t)) :
    m.Reduced ↔ a.Uniform := by
  have hwords : ∀ {s t}, a.Reachable s → a.Reachable t →
      ((∀ word, m.acceptsFrom (f s) word = m.acceptsFrom (f t) word) ↔
        a.wordsFrom s = a.wordsFrom t) := by
    intro s t hs ht
    rw [h.closed.acceptsFrom_eq_iff (h.reachable_iff.mpr ⟨s, hs, rfl⟩)
      (h.reachable_iff.mpr ⟨t, ht, rfl⟩), h.wordsFrom hs, h.wordsFrom ht]
  constructor
  · intro hreduced s t hsame letter
    obtain ⟨hs, ht, heq⟩ := hsame
    have hone := hreduced (f s) (f t) (h.lt hs) (h.lt ht) ((hwords hs ht).mpr heq)
    have hedges := ((hnumber hs ht).mp hone).target? letter
    cases hleft : a.target? s letter <;> cases hright : a.target? t letter <;>
      rw [hleft, hright] at hedges <;> first | rfl | cases hedges
  · intro huniform p q hp hq hsame
    obtain ⟨s, hs, rfl⟩ := h.onto hp
    obtain ⟨t, ht, rfl⟩ := h.onto hq
    exact (hnumber hs ht).mpr (huniform.alike ⟨hs, ht, (hwords hs ht).mp hsame⟩)

/-- The minimal automaton of a closed automaton is reduced exactly when states
that accept the same words have edges with the same letters, and so if every
state accepts some word. Any two of its states that accept the same words differ
by a run that only one of them has, which ends where nothing is accepted. -/
theorem minimal_reduced_iff (h : a.Closed) :
    ∃ m, a.minimal = .ok m ∧ (m.Reduced ↔ a.Uniform) ∧ (a.Live → m.Reduced) ∧
      ∀ p q, p < m.numStates → q < m.numStates → p ≠ q →
        (∀ word, m.acceptsFrom p word = m.acceptsFrom q word) →
        ∃ word last, (∀ later, m.acceptsFrom last later = .ok false) ∧
          (m.runFrom p word = some last ∧ m.runFrom q word = none ∨
            m.runFrom p word = none ∧ m.runFrom q word = some last) := by
  obtain ⟨-, -, -, m, f, -, -, -, hminimal, himage, -, hnumber⟩ := h.minimal_spec
  have hiff := himage.reduced_iff hnumber
  refine ⟨m, hminimal, hiff, fun hlive => hiff.mpr hlive.uniform, ?_⟩
  intro p q hp hq hne hsame
  obtain ⟨s, hs, rfl⟩ := himage.onto hp
  obtain ⟨t, ht, rfl⟩ := himage.onto hq
  have hfs : m.Reachable (f s) := himage.reachable_iff.mpr ⟨s, hs, rfl⟩
  have hft : m.Reachable (f t) := himage.reachable_iff.mpr ⟨t, ht, rfl⟩
  have hnot : ¬m.Alike (f s) (f t) := by
    intro halike
    refine hne ((hnumber hs ht).mpr fun word => ?_)
    rw [← himage.verdict hs, ← himage.verdict ht]
    exact halike word
  obtain ⟨word, last, hdead, hruns⟩ :=
    exists_run_of_not_alike ((himage.closed.acceptsFrom_eq_iff hfs hft).mp hsame) hnot
  have hlast : m.Reachable last := by
    rcases hruns with ⟨hrun, -⟩ | ⟨-, hrun⟩
    · exact hfs.runFrom hrun
    · exact hft.runFrom hrun
  refine ⟨word, last, fun later => ?_, hruns⟩
  rw [himage.closed.acceptsFrom_eq hlast, Except.ok.injEq]
  have hlater := hdead later
  rw [mem_wordsFrom] at hlater
  cases hverdict : m.verdict last later with
  | none => rfl
  | some accepted =>
    cases accepted with
    | false => rfl
    | true => exact absurd hverdict hlater

theorem minimal_reduced_iff_twoWays :
    twoWays.Closed ∧
      ∃ m, twoWays.minimal = .ok m ∧ (m.Reduced ↔ twoWays.Uniform) ∧ (twoWays.Live → m.Reduced) ∧
        ∀ p q, p < m.numStates → q < m.numStates → p ≠ q →
          (∀ word, m.acceptsFrom p word = m.acceptsFrom q word) →
          ∃ word last, (∀ later, m.acceptsFrom last later = .ok false) ∧
            (m.runFrom p word = some last ∧ m.runFrom q word = none ∨
              m.runFrom p word = none ∧ m.runFrom q word = some last) :=
  ⟨closed_twoWays, minimal_reduced_iff closed_twoWays⟩

/-- Two states that accept the empty word only, one of which has an edge. It
leads to a state that accepts nothing. -/
def blindAlley : Automaton :=
  ⟨#[{ edges := { entries := [('a', 1), ('b', 2)] } },
    { accepting := true },
    { accepting := true, edges := { entries := [('d', 3)] } },
    {}]⟩

/-- The state with an edge into the blind alley is not joined with the one
without edges. -/
theorem minimal_blindAlley_not_reduced :
    blindAlley.Closed ∧ blindAlley.minimal = .ok blindAlley ∧
      (∀ word, blindAlley.acceptsFrom 1 word = blindAlley.acceptsFrom 2 word) ∧
      ¬blindAlley.Reduced := by
  have hclosed : blindAlley.Closed := closed_of_list [0, 1, 2, 3] (by decide) (by decide)
  have hsame : ∀ word, blindAlley.acceptsFrom 1 word = blindAlley.acceptsFrom 2 word := by
    intro word
    cases word with
    | nil => rfl
    | cons letter rest =>
      have hleft : blindAlley.acceptsFrom 1 (letter :: rest) = .ok false := rfl
      rw [hleft]
      by_cases hletter : letter = 'd'
      · subst hletter
        cases rest <;> rfl
      · have hnone : blindAlley.follow 2 letter = .ok none := by
          simp [follow, state, blindAlley, Table.find?, bind, Except.bind, pure, Except.pure,
            Ne.symm hletter]
        rw [acceptsFrom, hnone]
        rfl
  refine ⟨hclosed, by cbv, hsame, fun h => ?_⟩
  exact absurd (h 1 2 (by decide) (by decide) hsame) (by decide)

end WordPattern.Automaton
