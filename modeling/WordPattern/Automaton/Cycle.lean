import WordPattern.Automaton.Basic
import WordPattern.IdSet
import WordPattern.Untried

/-!
# Search for a cycle

The search walks the automaton depth first and keeps the states of the path on
which it stands apart from those that it is done with. An edge that leads back
onto the path closes a cycle, and the search ends there, before it looks at
anything else. Cycles that cannot be reached from the start do not count.
-/

namespace WordPattern.Automaton

/-- The number of tries and of ways back that a path still holds. -/
def pathSize : List (StateId × List StateId) → Nat
  | [] => 0
  | (_, later) :: above => later.length + 1 + pathSize above

/-- Goes on with a search. `onPath` are the states of the path, and `done` those
that were left for good; `path` holds the states from the current one back to the
start, each with the successors that are still to be tried. -/
def acyclicFrom (a : Automaton) (onPath done : IdSet) (path : List (StateId × List StateId)) :
    Except Error Bool :=
  match path with
  | [] => .ok true
  | (id, []) :: above => a.acyclicFrom (onPath.erase id) (done.insert id) above
  | (id, next :: later) :: above =>
    if next ∈ onPath then .ok false
    else if next ∈ done then a.acyclicFrom onPath done ((id, later) :: above)
    else
      match _ : a.state next with
      | .error error => .error error
      | .ok state =>
        a.acyclicFrom (onPath.insert next) done ((next, state.successors) :: (id, later) :: above)
termination_by
  ((untried (List.range a.numStates) (onPath.members ++ done.members)).length, pathSize path)
decreasing_by
  · -- a state that is left counts as tried as before
    have hleft : onPath.members ++ done.members ⊆
        (onPath.erase id).members ++ (done.insert id).members := by
      intro s
      by_cases he : s = id <;> simp [he]
    have hpath : pathSize above < pathSize ((id, []) :: above) := by
      simp only [pathSize, List.length_nil]
      omega
    rcases Nat.lt_or_eq_of_le (length_untried_le hleft) with hlt | heq
    · exact Prod.Lex.left _ _ hlt
    · rw [heq]
      exact Prod.Lex.right _ hpath
  · apply Prod.Lex.right
    simp only [pathSize, List.length_cons]
    omega
  · rename_i hpath hdone hstate
    have hentered : onPath.members ++ done.members ⊆
        (onPath.insert next).members ++ done.members := by
      intro s hs
      simp only [List.mem_append, IdSet.mem_members, IdSet.mem_insert] at hs ⊢
      exact hs.imp_left Or.inr
    have hrange := List.mem_range.mpr (lt_of_state_eq_ok hstate)
    exact Prod.Lex.left _ _ (length_untried_lt hentered hrange (by simp [hpath, hdone]) (by simp))

/-- Whether no cycle can be reached from the start. -/
def isAcyclic (a : Automaton) : Except Error Bool := do
  let state ← a.state start
  a.acyclicFrom (.singleton start) .empty [(start, state.successors)]

end WordPattern.Automaton
