import Mathlib.Computability.MyhillNerode
import Mathlib.Data.Set.Function
import WordPattern.Proofs.Automaton.Minimal
import WordPattern.Proofs.Expr.Solution

/-!
# Automata whose states are residuals

A residual of a language is what may follow some beginning of a word. If every
state of a closed automaton accepts some word, the states that no word tells
apart are those that accept the same words, and the minimal automaton has one
state for each residual that is not empty. Such an automaton is known from its
language up to the numbers of its states. States that accept nothing are
excluded; with them the minimal automaton may be larger.
-/

namespace WordPattern.Automaton

variable {a m n : Automaton} {f : StateId → StateId} {p q : StateId} {L : Language Char}
  {letter : Char} {word : Word}

/-- A word is accepted by taking the edge on its first letter. -/
theorem cons_mem_wordsFrom : letter :: word ∈ a.wordsFrom p ↔
    ∃ next, a.target? p letter = some next ∧ word ∈ a.wordsFrom next := by
  simp only [mem_wordsFrom, verdict_cons]
  exact Option.bind_eq_some_iff

/-- Where the empty word is accepted, runs may end. -/
theorem nil_mem_wordsFrom : [] ∈ a.wordsFrom p ↔ a.isAccepting p = true := by
  rw [mem_wordsFrom, verdict_nil, Option.some.injEq]

/-- Behind a run the words accepted are those that may follow. -/
theorem wordsFrom_runFrom (h : a.runFrom p word = some q) :
    a.wordsFrom q = (a.wordsFrom p).leftQuotient word := by
  ext later
  rw [Language.mem_leftQuotient, mem_wordsFrom, mem_wordsFrom, verdict, verdict, runFrom_append,
    h, Option.bind_some]

/-- Behind an edge the words accepted are those that may follow its letter. -/
theorem wordsFrom_target? (h : a.target? p letter = some q) :
    a.wordsFrom q = (a.wordsFrom p).leftQuotient [letter] := by
  refine wordsFrom_runFrom ?_
  rw [runFrom, h]
  rfl

/-- An image accepts the words of the states that it numbers. -/
theorem Image.wordsFrom (h : Image a m f) (hp : a.Reachable p) :
    m.wordsFrom (f p) = a.wordsFrom p := by
  ext word
  rw [mem_wordsFrom, mem_wordsFrom, h.verdict hp]

/-- Every state that a run comes to accepts some word. -/
def Live (a : Automaton) : Prop := ∀ ⦃p⦄, a.Reachable p → ∃ word, word ∈ a.wordsFrom p

/-- Runs come to both states, and the same words are accepted from them. -/
def SameWords (a : Automaton) (p q : StateId) : Prop :=
  a.Reachable p ∧ a.Reachable q ∧ a.wordsFrom p = a.wordsFrom q

/-- States that accept the same words have edges with the same letters. -/
def Uniform (a : Automaton) : Prop :=
  ∀ ⦃p q⦄, a.SameWords p q → ∀ letter, (a.target? p letter).isSome = (a.target? q letter).isSome

/-- In a live automaton, an edge is on the way to an accepted word. -/
theorem Live.uniform (h : a.Live) : a.Uniform := by
  have hedge : ∀ {p q}, a.SameWords p q → ∀ letter,
      (a.target? p letter).isSome = true → (a.target? q letter).isSome = true := by
    intro p q hsame letter hsome
    obtain ⟨hp, -, hwords⟩ := hsame
    obtain ⟨next, hnext⟩ := Option.isSome_iff_exists.mp hsome
    obtain ⟨word, hword⟩ := h (hp.edge hnext)
    have hlonger := cons_mem_wordsFrom.mpr ⟨next, hnext, hword⟩
    rw [hwords] at hlonger
    obtain ⟨other, hother, -⟩ := cons_mem_wordsFrom.mp hlonger
    exact Option.isSome_iff_exists.mpr ⟨other, hother⟩
  intro p q hsame letter
  exact Bool.eq_iff_iff.mpr
    ⟨hedge hsame letter, hedge ⟨hsame.2.1, hsame.1, hsame.2.2.symm⟩ letter⟩

/-- In a uniform automaton, states that accept the same words are alike. -/
theorem Uniform.alike (h : a.Uniform) (hsame : a.SameWords p q) : a.Alike p q := by
  have haccept : ∀ {p q}, a.SameWords p q → a.isAccepting p = a.isAccepting q := by
    intro p q hsame
    rw [Bool.eq_iff_iff, ← nil_mem_wordsFrom, ← nil_mem_wordsFrom, hsame.2.2]
  refine alike_of_related haccept ?_ hsame
  intro p q hsame letter
  have hboth := h hsame letter
  obtain ⟨hp, hq, hwords⟩ := hsame
  cases hnext : a.target? p letter with
  | none =>
    cases hother : a.target? q letter with
    | none => exact .none
    | some other =>
      rw [hnext, hother] at hboth
      cases hboth
  | some next =>
    cases hother : a.target? q letter with
    | none =>
      rw [hnext, hother] at hboth
      cases hboth
    | some other =>
      refine .some ⟨hp.edge hnext, hq.edge hother, ?_⟩
      rw [wordsFrom_target? hnext, wordsFrom_target? hother, hwords]

/-- What may follow the words of a beginning, if anything may. -/
def residuals (L : Language Char) : Set (Language Char) :=
  {R | (∃ word, word ∈ R) ∧ ∃ before, R = L.leftQuotient before}

/-- The states of an automaton are the residuals of a language: each state goes
with the words that it accepts. -/
structure IsResidual (L : Language Char) (m : Automaton) : Prop where
  /-- The start exists. -/
  nonempty : Automaton.start < m.numStates
  /-- The start goes with the language. -/
  start : m.wordsFrom start = L
  /-- There is one state for each residual that is not empty. -/
  states : (∃ word, word ∈ L) → Set.BijOn m.wordsFrom {i | i < m.numStates} (residuals L)
  /-- A language without words has one state, which rejects and has no edges. -/
  lone : (¬∃ word, word ∈ L) → m.numStates = 1 ∧ m.isAccepting Automaton.start = false ∧
    ∀ letter, m.target? Automaton.start letter = none
  /-- Runs may end where the empty word may follow. -/
  accepting : ∀ {i}, i < m.numStates → (m.isAccepting i = true ↔ [] ∈ m.wordsFrom i)
  /-- There is an edge where some word may follow its letter. -/
  edge : ∀ {i}, i < m.numStates → ∀ letter, (∃ j, m.target? i letter = some j) ↔
    ∃ word, word ∈ (m.wordsFrom i).leftQuotient [letter]
  /-- An edge leads to the state of what may follow its letter. -/
  target : ∀ {i j letter}, i < m.numStates → m.target? i letter = some j →
    j < m.numStates ∧ m.wordsFrom j = (m.wordsFrom i).leftQuotient [letter]

/-- The states of a live automaton, counted once if they are alike, are the
residuals of what it accepts. -/
theorem Live.isResidual (h : a.Live) (himage : Image a m f)
    (hnumber : ∀ {s t}, a.Reachable s → a.Reachable t → (f s = f t ↔ a.Alike s t)) :
    IsResidual (a.wordsFrom start) m := by
  have hclosed := himage.closed
  have hstart : m.wordsFrom start = a.wordsFrom start := by
    rw [← himage.wordsFrom .start, himage.start]
  have hreach : ∀ {i}, i < m.numStates → m.Reachable i := fun hi =>
    himage.reachable_iff.mpr (himage.onto hi)
  have hlive : ∀ {i}, m.Reachable i → ∃ word, word ∈ m.wordsFrom i := by
    intro i hi
    obtain ⟨s, hs, rfl⟩ := himage.reachable_iff.mp hi
    rw [himage.wordsFrom hs]
    exact h hs
  refine ⟨hclosed.nonempty, hstart, fun _ => ⟨?_, ?_, ?_⟩, fun hnone => absurd (h .start) hnone,
    fun _ => nil_mem_wordsFrom.symm, ?_, ?_⟩
  · intro i hi
    obtain ⟨before, hbefore⟩ := reachable_iff_run.mp (hreach hi)
    exact ⟨hlive (hreach hi), before, hstart ▸ wordsFrom_runFrom hbefore⟩
  · intro i hi j hj hwords
    obtain ⟨s, hs, rfl⟩ := himage.onto hi
    obtain ⟨t, ht, rfl⟩ := himage.onto hj
    rw [himage.wordsFrom hs, himage.wordsFrom ht] at hwords
    exact (hnumber hs ht).mpr (h.uniform.alike ⟨hs, ht, hwords⟩)
  · rintro R ⟨⟨word, hword⟩, before, rfl⟩
    rw [← hstart, Language.mem_leftQuotient, mem_wordsFrom, verdict, runFrom_append] at hword
    obtain ⟨last, hlast, -⟩ := Option.map_eq_some_iff.mp hword
    obtain ⟨i, hi, -⟩ := Option.bind_eq_some_iff.mp hlast
    exact ⟨i, hclosed.lt (reachable_iff_run.mpr ⟨before, hi⟩), hstart ▸ wordsFrom_runFrom hi⟩
  · intro i hi letter
    constructor
    · rintro ⟨j, hj⟩
      rw [← wordsFrom_target? hj]
      exact hlive ((hreach hi).edge hj)
    · rintro ⟨word, hword⟩
      obtain ⟨j, hj, -⟩ := cons_mem_wordsFrom.mp ((Language.mem_leftQuotient _ _).mp hword)
      exact ⟨j, hj⟩
  · intro i j letter hi hj
    exact ⟨hclosed.inRange (hreach hi) hj, wordsFrom_target? hj⟩

/-- A single state that rejects and has no edges goes with the language without
words. -/
theorem isResidual_lone (hsize : m.numStates = 1) (hreject : m.isAccepting start = false)
    (hedges : ∀ letter, m.target? start letter = none) : IsResidual 0 m := by
  have hempty : m.wordsFrom start = 0 := by
    ext word
    refine iff_of_false (fun hword => ?_) (Language.notMem_zero word)
    cases word with
    | nil =>
      rw [nil_mem_wordsFrom, hreject] at hword
      cases hword
    | cons letter rest =>
      obtain ⟨next, hnext, -⟩ := cons_mem_wordsFrom.mp hword
      rw [hedges] at hnext
      cases hnext
  have hstart : ∀ {i}, i < m.numStates → i = start := fun hi =>
    Nat.lt_one_iff.mp (hsize ▸ hi)
  refine ⟨hsize ▸ Nat.zero_lt_one, hempty, ?_, fun _ => ⟨hsize, hreject, hedges⟩,
    fun _ => nil_mem_wordsFrom.symm, ?_, ?_⟩
  · rintro ⟨word, hword⟩
    exact absurd hword (Language.notMem_zero word)
  · intro i hi letter
    obtain rfl := hstart hi
    refine iff_of_false ?_ ?_
    · rintro ⟨j, hj⟩
      rw [hedges] at hj
      cases hj
    · rintro ⟨word, hword⟩
      rw [hempty] at hword
      exact Language.notMem_zero _ ((Language.mem_leftQuotient _ _).mp hword)
  · intro i j letter hi hj
    rw [hstart hi, hedges] at hj
    cases hj

/-- A start that rejects and has no edges has images of that kind only. -/
theorem Image.isResidual_lone (h : Image a m f) (hreject : a.isAccepting Automaton.start = false)
    (hedges : ∀ letter, a.target? Automaton.start letter = none) : IsResidual 0 m := by
  have hreach : ∀ {p}, a.Reachable p → p = Automaton.start := by
    intro p hp
    induction hp with
    | start => rfl
    | edge _ hedge ih =>
      rw [ih, hedges] at hedge
      cases hedge
  have hstart : ∀ {i}, i < m.numStates → i = Automaton.start := by
    intro i hi
    obtain ⟨s, hs, rfl⟩ := h.onto hi
    rw [hreach hs, h.start]
  have hsize : m.numStates = 1 := by
    have hpos := h.closed.nonempty
    by_contra hsize
    exact absurd (hstart (i := 1) (by omega)) Nat.one_ne_zero
  refine Automaton.isResidual_lone hsize ?_ fun letter => ?_
  · rw [← h.start, h.accepting .start, hreject]
  · rw [← h.start, h.target? .start, hedges]
    rfl

/-- Two automata differ in the numbers of their states only. -/
def Isomorphic (m n : Automaton) : Prop :=
  ∃ f : StateId → StateId, Set.BijOn f {i | i < m.numStates} {i | i < n.numStates} ∧
    f start = start ∧ ∀ i < m.numStates, n.isAccepting (f i) = m.isAccepting i ∧
      ∀ letter, n.target? (f i) letter = (m.target? i letter).map f

/-- States of residual automata that accept the same words have edges on the
same letters. -/
theorem IsResidual.exists_target? (hm : IsResidual L m) (hn : IsResidual L n) {i j k : StateId}
    (hi : i < m.numStates) (hj : j < n.numStates) (hwords : n.wordsFrom j = m.wordsFrom i)
    (hk : m.target? i letter = some k) : ∃ next, n.target? j letter = some next ∧
      next < n.numStates ∧ n.wordsFrom next = m.wordsFrom k := by
  obtain ⟨next, hnext⟩ := (hn.edge hj letter).mpr
    (hwords ▸ (hm.edge hi letter).mp ⟨k, hk⟩)
  obtain ⟨hlt, hafter⟩ := hn.target hj hnext
  exact ⟨next, hnext, hlt, by rw [hafter, hwords, (hm.target hi hk).2]⟩

/-- Automata whose states are the residuals of one language are isomorphic: a
state is sent to the one that accepts the same words. -/
theorem IsResidual.isomorphic (hm : IsResidual L m) (hn : IsResidual L n) : Isomorphic m n := by
  by_cases hL : ∃ word, word ∈ L
  · -- Both automata number the same residuals: go from a state to its residual and
    -- back by the other numbering.
    have hinv := (hn.states hL).invOn_invFunOn
    let back := Function.invFunOn n.wordsFrom {i | i < n.numStates}
    have hback : Set.BijOn back (residuals L) {i | i < n.numStates} :=
      hinv.symm.bijOn (hn.states hL).surjOn.mapsTo_invFunOn (hn.states hL).mapsTo
    have hnumber := hback.comp (hm.states hL)
    have hwords : ∀ {i}, i < m.numStates → n.wordsFrom (back (m.wordsFrom i)) = m.wordsFrom i :=
      fun hi => hinv.2 ((hm.states hL).mapsTo hi)
    have hsame : ∀ {i j}, i < m.numStates → j < n.numStates → n.wordsFrom j = m.wordsFrom i →
        back (m.wordsFrom i) = j := fun hi hj he =>
      (hn.states hL).injOn (hnumber.mapsTo hi) hj ((hwords hi).trans he.symm)
    refine ⟨back ∘ m.wordsFrom, hnumber,
      hsame hm.nonempty hn.nonempty (hn.start.trans hm.start.symm), fun i hi => ⟨?_, ?_⟩⟩
    · rw [Bool.eq_iff_iff, hn.accepting (hnumber.mapsTo hi), hm.accepting hi]
      exact hwords hi ▸ Iff.rfl
    · intro letter
      cases hk : m.target? i letter with
      | none =>
        cases hnext : n.target? ((back ∘ m.wordsFrom) i) letter with
        | none => rfl
        | some next =>
          obtain ⟨k, hsome, -⟩ := hn.exists_target? hm (hnumber.mapsTo hi) hi (hwords hi).symm
            hnext
          rw [hk] at hsome
          cases hsome
      | some k =>
        obtain ⟨next, hnext, hlt, hafter⟩ := hm.exists_target? hn hi (hnumber.mapsTo hi)
          (hwords hi) hk
        rw [hnext, Option.map_some, Option.some.injEq]
        exact (hsame (hm.target hi hk).1 hlt hafter).symm
  · obtain ⟨hsize, hreject, hedges⟩ := hm.lone hL
    obtain ⟨hsize', hreject', hedges'⟩ := hn.lone hL
    refine ⟨id, ?_, rfl, fun i hi => ?_⟩
    · rw [hsize, hsize']
      exact Set.bijOn_id _
    · obtain rfl : i = Automaton.start := Nat.lt_one_iff.mp (hsize ▸ hi)
      refine ⟨hreject'.trans hreject.symm, fun letter => ?_⟩
      rw [id, hedges, hedges']
      rfl

end WordPattern.Automaton
