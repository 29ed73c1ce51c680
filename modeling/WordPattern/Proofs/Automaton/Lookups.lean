import WordPattern.Proofs.Automaton.Unreached

/-!
# Lookups that are out of range

The traversal, the index of incoming edges, the refinement, the tour of its blocks,
the search for a cycle and the equations all look into rows by numbers that come from
edges and blocks, and fail where there is nothing to be read. On an automaton whose
reachable edges lead to states that exist, every number that is looked up is one of a
reachable state or of a block that was found, and nothing fails. On any other one the
traversal comes first, and it fails.
-/

namespace WordPattern

namespace Automaton

variable {a : Automaton}

/-- What begins with the traversal and is found on closed automata looks for a
missing state exactly if the automaton dangles. -/
theorem missesState_bind_iff {α : Type} {f : List StateId → Except Error α}
    (hpos : 0 < a.numStates) (hfound : a.Closed → ∃ value, a.preorder >>= f = .ok value) :
    MissesState (a.preorder >>= f) ↔ a.Dangles := by
  constructor
  · intro hmisses
    by_contra hnot
    obtain ⟨value, hok⟩ := hfound ((closed_iff_not_dangles hpos).mpr hnot)
    rw [hok] at hmisses
    exact not_missesState_ok value hmisses
  · intro hdangles
    obtain ⟨id, herror⟩ := (preorder_missesState_iff hpos).mpr hdangles
    exact ⟨id, by rw [herror]; rfl⟩

/-- The minimal automaton of a closed automaton is made. -/
theorem Closed.minimal_ok (h : a.Closed) : ∃ m, a.minimal = .ok m := by
  obtain ⟨-, -, -, m, -, -, -, -, hminimal, -⟩ := h.minimal_spec
  exact ⟨m, hminimal⟩

/-- The expression of a closed automaton is found. -/
theorem Closed.expression_ok (h : a.Closed) : ∃ result, a.expression = .ok result := by
  obtain ⟨order, -, -, hresult⟩ := h.expression_eq
  exact ⟨_, hresult⟩

/-- The traversal, the minimal automaton and the expression of an automaton that
was built call by call look for a missing state exactly if the automaton dangles.
If it does not, they are found, and no lookup on the way is out of range. If it does,
the lookup that fails is one of the traversal, with which all of them begin. Edges of
states that no run comes to have no effect, wherever they lead. Acceptance looks for
a missing state exactly if the run of a beginning of the word ends in one. -/
theorem missesState_iff_dangles {calls : List Edit} (h : built calls = .ok a) :
    (MissesState a.preorder ↔ a.Dangles) ∧ (MissesState a.minimal ↔ a.Dangles) ∧
      (MissesState a.expression ↔ a.Dangles) ∧
      (¬a.Dangles → (∃ order, a.preorder = .ok order) ∧ (∃ m, a.minimal = .ok m) ∧
        ∃ result, a.expression = .ok result) ∧
      (∀ error, a.preorder = .error error →
        a.minimal = .error error ∧ a.expression = .error error) ∧
      (∀ p letter q b, ¬a.Reachable p → a.setEdge p letter q = .ok b →
        b.preorder = a.preorder ∧ b.minimal = a.minimal ∧ b.expression = a.expression ∧
          ∀ word, b.accepts word = a.accepts word) ∧
      ∀ word, MissesState (a.accepts word) ↔
        ∃ first q, first <+: word ∧ a.runFrom start first = some q ∧ a.numStates ≤ q := by
  have hpos := numStates_pos_of_built h
  refine ⟨preorder_missesState_iff hpos, missesState_bind_iff hpos Closed.minimal_ok,
    missesState_bind_iff hpos Closed.expression_ok, ?_, ?_, ?_,
    acceptsFrom_missesState_iff a start⟩
  · intro hnot
    have hclosed := (closed_iff_not_dangles hpos).mpr hnot
    exact ⟨preorder_ok_iff.mpr hclosed, hclosed.minimal_ok, hclosed.expression_ok⟩
  · intro error herror
    rw [minimal, expression, herror]
    exact ⟨rfl, rfl⟩
  · intro p letter q b hp hok
    have hsame := coincides_of_edit? hp hok
    exact ⟨hsame.preorder, hsame.minimal, hsame.expression, hsame.acceptsFrom .start⟩

/-- The calls that make an automaton in which the edge of a state that runs come to
dangles, and so does that of one that no run comes to. -/
def looseCalls : List Edit :=
  [.addState, .addState, .setAccepting 1 true, .setEdge 0 'q' 1, .setEdge 1 'r' 7,
    .setEdge 2 's' 9]

/-- The automaton that the calls make. -/
def loose : Automaton :=
  ⟨#[{ edges := { entries := [('q', 1)] } },
    { accepting := true, edges := { entries := [('r', 7)] } },
    { edges := { entries := [('s', 9)] } }]⟩

theorem missesState_iff_dangles_loose :
    built looseCalls = .ok loose ∧
      (MissesState loose.preorder ↔ loose.Dangles) ∧ (MissesState loose.minimal ↔ loose.Dangles) ∧
      (MissesState loose.expression ↔ loose.Dangles) ∧
      (¬loose.Dangles → (∃ order, loose.preorder = .ok order) ∧ (∃ m, loose.minimal = .ok m) ∧
        ∃ result, loose.expression = .ok result) ∧
      (∀ error, loose.preorder = .error error →
        loose.minimal = .error error ∧ loose.expression = .error error) ∧
      (∀ p letter q b, ¬loose.Reachable p → loose.setEdge p letter q = .ok b →
        b.preorder = loose.preorder ∧ b.minimal = loose.minimal ∧
          b.expression = loose.expression ∧ ∀ word, b.accepts word = loose.accepts word) ∧
      ∀ word, MissesState (loose.accepts word) ↔
        ∃ first q, first <+: word ∧ loose.runFrom start first = some q ∧ loose.numStates ≤ q :=
  ⟨rfl, missesState_iff_dangles (show built looseCalls = .ok loose from rfl)⟩

example : loose.preorder = .error (.noSuchState 7) := by cbv

end Automaton

end WordPattern
