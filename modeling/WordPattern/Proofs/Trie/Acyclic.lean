import Mathlib.Order.Interval.Finset.Nat
import Mathlib.Order.Preorder.Finite
import WordPattern.Proofs.Automaton.Cycle
import WordPattern.Proofs.Automaton.Minimal
import WordPattern.Proofs.Trie.Filling

/-!
# Minimization keeps cycles

An image of an automaton has a cycle exactly when the automaton has one. A cycle
of the automaton is numbered state by state. A cycle of the image need not be
one of the automaton: the states of a number need not return to themselves. But
the word of the cycle leads each of them to another one of them, and as there
are finitely many of them, some number of repetitions leads one back to itself.
The edges of a trie lead to later states, so tries have no cycle, and neither
have their minimal automata.
-/

namespace WordPattern

namespace Automaton

variable {a m : Automaton} {f : StateId → StateId} {p q : StateId} {word : Word}

/-- If a word leads from each state of a finite kind to a state of that kind, then
one of them returns to itself. -/
theorem exists_returns {kind : StateId → Prop} {bound : Nat}
    (hbound : ∀ {p}, kind p → p < bound) (hword : word ≠ [])
    (hstep : ∀ {p}, kind p → ∃ q, a.runFrom p word = some q ∧ kind q) (hp : kind p) :
    ∃ q, kind q ∧ a.Returns q := by
  have hrepeat : ∀ count, ∃ q,
      a.runFrom p (List.replicate count word).flatten = some q ∧ kind q := by
    intro count
    induction count with
    | zero => exact ⟨p, rfl, hp⟩
    | succ count ih =>
      obtain ⟨q, hrun, hq⟩ := ih
      obtain ⟨next, hnext, hkind⟩ := hstep hq
      refine ⟨next, ?_, hkind⟩
      rw [List.replicate_succ', List.flatten_concat, runFrom_append, hrun]
      exact hnext
  choose stage hstage hkind using hrepeat
  have hin : ∀ count, stage count ∈ Set.Iio bound := fun count => hbound (hkind count)
  obtain ⟨early, late, hlt, hsame⟩ :=
    Set.Finite.exists_lt_map_eq_of_forall_mem hin (Set.finite_Iio bound)
  obtain ⟨more, hmore⟩ := Nat.exists_eq_add_of_lt hlt
  have hsplit : (List.replicate late word).flatten =
      (List.replicate early word).flatten ++ (List.replicate (more + 1) word).flatten := by
    rw [hmore, Nat.add_assoc, List.replicate_add, List.flatten_append]
  have hround : a.runFrom (stage early) (List.replicate (more + 1) word).flatten =
      some (stage early) := by
    have hlate := hstage late
    rw [hsplit, runFrom_append, hstage early, ← hsame] at hlate
    exact hlate
  have hne : (List.replicate (more + 1) word).flatten ≠ [] := by
    rw [List.replicate_succ, List.flatten_cons]
    exact List.append_ne_nil_of_left_ne_nil hword _
  exact ⟨stage early, hkind early, _, hne, hround⟩

/-- An image has a cycle exactly when the automaton has one. -/
theorem Image.cyclic_iff (h : Image a m f) (hclosed : a.Closed) : m.Cyclic ↔ a.Cyclic := by
  constructor
  · intro hcyclic
    obtain ⟨i, hi, word, hne, hrun⟩ := hcyclic
    obtain ⟨s, hs, hnumber⟩ := h.reachable_iff.mp hi
    let kind : StateId → Prop := fun p => a.Reachable p ∧ f p = i
    have hbound : ∀ {p}, kind p → p < a.numStates := fun hp => hclosed.lt hp.1
    have hstep : ∀ {p}, kind p → ∃ q, a.runFrom p word = some q ∧ kind q := by
      intro p hp
      obtain ⟨hreach, hfp⟩ := hp
      have hmapped := h.runFrom hreach word
      rw [hfp, hrun, eq_comm, Option.map_eq_some_iff] at hmapped
      obtain ⟨q, hq, hfq⟩ := hmapped
      exact ⟨q, hq, hreach.runFrom hq, hfq⟩
    obtain ⟨q, hq, hreturns⟩ := exists_returns hbound hne hstep ⟨hs, hnumber⟩
    exact ⟨q, hq.1, hreturns⟩
  · intro hcyclic
    obtain ⟨p, hp, word, hne, hrun⟩ := hcyclic
    have hmapped := h.runFrom hp word
    rw [hrun, Option.map_some] at hmapped
    exact ⟨f p, h.reachable_iff.mpr ⟨p, hp, rfl⟩, word, hne, hmapped⟩

/-- Runs of branching automata never lead to an earlier state. -/
theorem Branching.le_of_run (h : a.Branching) (hrun : a.runFrom p word = some q) : p ≤ q := by
  induction word generalizing p with
  | nil =>
    cases hrun
    exact Nat.le_refl _
  | cons letter rest ih =>
    obtain ⟨next, hedge, hrest⟩ := Option.bind_eq_some_iff.mp hrun
    exact (h.later hedge).1.le.trans (ih hrest)

/-- Branching automata have no cycle. -/
theorem Branching.not_cyclic (h : a.Branching) : ¬a.Cyclic := by
  intro hcyclic
  obtain ⟨p, -, hreturns⟩ := hcyclic
  obtain ⟨next, hnext, word, hrun⟩ := hreturns.exists_successor
  obtain ⟨letter, hedge⟩ := mem_successors.mp hnext
  have hlater := (h.later hedge).1
  have hback := h.le_of_run hrun
  exact Nat.lt_irrefl p (hlater.trans_le hback)

/-- The search for a cycle has the same answer on a closed automaton and on its
minimal automaton, and the answer is right on both. -/
theorem Closed.minimal_isAcyclic (h : a.Closed) :
    ∃ m acyclic, a.minimal = .ok m ∧ (m.Cyclic ↔ a.Cyclic) ∧ a.isAcyclic = .ok acyclic ∧
      m.isAcyclic = .ok acyclic ∧ (acyclic = true ↔ ¬a.Cyclic) := by
  obtain ⟨-, -, -, m, f, -, -, -, hminimal, himage, -⟩ := h.minimal_spec
  obtain ⟨acyclic, hok⟩ := h.isAcyclic_ok
  obtain ⟨answer, hanswer⟩ := himage.closed.isAcyclic_ok
  have hiff := isAcyclic_iff hok
  have hcyclic := himage.cyclic_iff h
  have hsame : answer = acyclic := by
    rw [Bool.eq_iff_iff, isAcyclic_iff hanswer, hiff, hcyclic]
  exact ⟨m, acyclic, hminimal, hcyclic, hok, hsame ▸ hanswer, hiff⟩

/-- However a trie is filled, its minimal automaton has no cycle. -/
theorem filled_acyclic (calls : List Trie.Filling) :
    ∃ trie m, Trie.filled calls = .ok trie ∧ trie.minimal = .ok m ∧ ¬m.Cyclic ∧
      m.isAcyclic = .ok true := by
  obtain ⟨trie, hfilled, h⟩ := Trie.filled_spec calls
  obtain ⟨m, acyclic, hminimal, hcyclic, -, hanswer, hiff⟩ := h.branching.closed.minimal_isAcyclic
  have hnot := h.branching.not_cyclic
  have hacyclic : acyclic = true := hiff.mpr hnot
  exact ⟨trie, m, hfilled, hminimal, fun hm => hnot (hcyclic.mp hm), hacyclic ▸ hanswer⟩

/-- Minimization neither makes nor removes cycles: the minimal automaton of a closed
automaton exists and has a cycle exactly when the automaton has one, and the search
for a cycle says so of both. The minimal automata of tries have no cycle. -/
theorem minimal_cyclic_iff :
    (∀ a : Automaton, a.Closed → ∃ m acyclic, a.minimal = .ok m ∧ (m.Cyclic ↔ a.Cyclic) ∧
      a.isAcyclic = .ok acyclic ∧ m.isAcyclic = .ok acyclic ∧ (acyclic = true ↔ ¬a.Cyclic)) ∧
    ∀ calls, ∃ trie m, Trie.filled calls = .ok trie ∧ trie.minimal = .ok m ∧ ¬m.Cyclic ∧
      m.isAcyclic = .ok true :=
  ⟨fun _ => Closed.minimal_isAcyclic, filled_acyclic⟩

theorem minimal_cyclic_iff_twoWays :
    twoWays.Closed ∧ ∃ m acyclic, twoWays.minimal = .ok m ∧ (m.Cyclic ↔ twoWays.Cyclic) ∧
      twoWays.isAcyclic = .ok acyclic ∧ m.isAcyclic = .ok acyclic ∧
      (acyclic = true ↔ ¬twoWays.Cyclic) :=
  ⟨closed_twoWays, minimal_cyclic_iff.1 twoWays closed_twoWays⟩

end Automaton

end WordPattern
