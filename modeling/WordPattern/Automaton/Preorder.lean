import WordPattern.Automaton.Basic

/-!
# States in depth-first preorder

The traversal enters a state once, on the first way that leads there, and goes
on with the state's successors in the order of its edges. States that wait are
kept on a stack; one that has been entered meanwhile is dropped when its turn
comes. Entering a state that does not exist is an error.
-/

namespace WordPattern.Automaton

/-- Goes on with a traversal. `unseen` are the states not entered so far and
`stack` the states whose turn comes, next one first. -/
def preorderFrom (a : Automaton) (unseen stack : List StateId) : Except Error (List StateId) :=
  match stack with
  | [] => .ok []
  | id :: rest =>
    if _ : id ∈ unseen then do
      let state ← a.state id
      let later ← a.preorderFrom (unseen.erase id) (state.successors ++ rest)
      return id :: later
    else if id < a.numStates then a.preorderFrom unseen rest
    else .error (.noSuchState id)
termination_by (unseen.length, stack.length)
decreasing_by
  · rename_i h
    have hpos := List.length_pos_of_mem h
    have hlen := List.length_erase_of_mem h
    exact Prod.Lex.left _ _ (by omega)
  · apply Prod.Lex.right
    simp only [List.length_cons]
    omega

/-- The states that can be reached from the start, in depth-first preorder. -/
def preorder (a : Automaton) : Except Error (List StateId) :=
  a.preorderFrom (List.range a.numStates) [start]

end WordPattern.Automaton
