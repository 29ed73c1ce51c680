import WordPattern.Proofs.Automaton.Cycle
import WordPattern.Proofs.Automaton.Dangling

/-!
# What each outcome of the search for a cycle says

If the search answers that there is no cycle, it has entered every state that runs
can come to and has tried all edges of these states: none of them closes a cycle, and
none dangles. If it answers that there is a cycle, one can be reached, whether or not
some edge dangles. The only other outcome is that a missing state was looked for. On
an automaton with a cycle and an edge that dangles, the order of the edges decides
between the last two, and which of them it is is not described here.
-/

namespace WordPattern.Automaton

variable {a : Automaton}

/-- A search has an answer or looks for a missing state. -/
theorem acyclicFrom_cases (a : Automaton) (onPath done : IdSet)
    (path : List (StateId × List StateId)) :
    (∃ acyclic, a.acyclicFrom onPath done path = .ok acyclic) ∨
      MissesState (a.acyclicFrom onPath done path) := by
  induction onPath, done, path using acyclicFrom.induct a with
  | case1 onPath done => exact Or.inl ⟨true, by rw [acyclicFrom]⟩
  | case2 onPath done id above ih =>
    rw [acyclicFrom]
    exact ih
  | case3 onPath done id next later above hback =>
    exact Or.inl ⟨false, by rw [acyclicFrom, if_pos hback]⟩
  | case4 onPath done id next later above hback hdone ih =>
    rw [acyclicFrom, if_neg hback, if_pos hdone]
    exact ih
  | case5 onPath done id next later above hback hdone error herror =>
    rw [acyclicFrom_of_error hback hdone herror]
    exact Or.inr ⟨next, congrArg Except.error (eq_noSuchState herror)⟩
  | case6 onPath done id next later above hback hdone state hstate ih =>
    rw [acyclicFrom_of_ok hback hdone hstate, stateAt_eq hstate]
    exact ih

/-- The search for a cycle has an answer or looks for a missing state. -/
theorem isAcyclic_cases (a : Automaton) :
    (∃ acyclic, a.isAcyclic = .ok acyclic) ∨ MissesState a.isAcyclic := by
  rw [isAcyclic]
  by_cases hlt : start < a.numStates
  · rw [state_eq_ok hlt]
    exact a.acyclicFrom_cases _ _ _
  · rw [state_eq_error (Nat.le_of_not_lt hlt)]
    exact Or.inr ⟨start, rfl⟩

/-- On closed automata the search for a cycle has an answer, which is that there is
none exactly when no state that runs come to leads back to itself. On any automaton,
the answer that there is none shows that no such state exists and no edge that a run
can come to dangles, the answer that there is one shows that such a state exists, and
without an answer a missing state was looked for. -/
theorem isAcyclic_exact (a : Automaton) :
    (a.Closed → ∃ acyclic, a.isAcyclic = .ok acyclic ∧ (acyclic = true ↔ ¬a.Cyclic)) ∧
      (a.isAcyclic = .ok true → a.Closed ∧ ¬a.Cyclic) ∧
      (a.isAcyclic = .ok false → a.Cyclic) ∧
      ∀ error, a.isAcyclic = .error error → ¬a.Closed ∧ ∃ id, error = .noSuchState id := by
  refine ⟨?_, ?_, ?_, ?_⟩
  · intro hclosed
    obtain ⟨acyclic, hok⟩ := hclosed.isAcyclic_ok
    exact ⟨acyclic, hok, isAcyclic_iff hok⟩
  · exact fun hok => (isAcyclic_sound hok).1 rfl
  · exact fun hok => (isAcyclic_sound hok).2 rfl
  · intro error herror
    refine ⟨fun hclosed => ?_, ?_⟩
    · obtain ⟨acyclic, hok⟩ := hclosed.isAcyclic_ok
      rw [hok] at herror
      cases herror
    · rcases a.isAcyclic_cases with ⟨acyclic, hok⟩ | ⟨id, hmissing⟩
      · rw [hok] at herror
        cases herror
      · exact ⟨id, Except.error.inj (herror.symm.trans hmissing)⟩

/-- A loop is tried before an edge that dangles. -/
def loopFirst : Automaton :=
  ⟨#[{ edges := { entries := [('t', 1)] } },
    { accepting := true, edges := { entries := [('u', 1), ('v', 5)] } }]⟩

/-- An edge that dangles is tried before a loop. -/
def loopLast : Automaton :=
  ⟨#[{ edges := { entries := [('t', 1)] } },
    { accepting := true, edges := { entries := [('v', 5), ('u', 1)] } }]⟩

theorem isAcyclic_exact_loops :
    (twoWays.Closed ∧
      ∃ acyclic, twoWays.isAcyclic = .ok acyclic ∧ (acyclic = true ↔ ¬twoWays.Cyclic)) ∧
    (initial.isAcyclic = .ok true ∧ initial.Closed ∧ ¬initial.Cyclic) ∧
    (loopFirst.isAcyclic = .ok false ∧ loopFirst.Cyclic) ∧
    (loopLast.isAcyclic = .error (.noSuchState 5) ∧ ¬loopLast.Closed) := by
  have hnone : initial.isAcyclic = .ok true := by
    simp [isAcyclic, acyclicFrom, state, initial, State.successors, Table.values, Table.empty,
      start, bind, Except.bind]
  have hloop : loopFirst.isAcyclic = .ok false := by
    simp [isAcyclic, acyclicFrom, state, loopFirst, State.successors, Table.values, start, bind,
      Except.bind]
  have hmissing : loopLast.isAcyclic = .error (.noSuchState 5) := by
    simp [isAcyclic, acyclicFrom, state, loopLast, State.successors, Table.values, start, bind,
      Except.bind]
  exact ⟨⟨closed_twoWays, (isAcyclic_exact twoWays).1 closed_twoWays⟩,
    ⟨hnone, (isAcyclic_exact initial).2.1 hnone⟩,
    ⟨hloop, (isAcyclic_exact loopFirst).2.2.1 hloop⟩,
    hmissing, ((isAcyclic_exact loopLast).2.2.2 _ hmissing).1⟩

end WordPattern.Automaton
