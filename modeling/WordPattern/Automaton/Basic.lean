import WordPattern.Error
import WordPattern.Table

/-!
# Deterministic automata

An automaton is a numbered row of states, state 0 being where every run
starts. Edges are partial: a letter without an edge ends the run, which then
rejects. Nothing makes the target of an edge exist; looking into a state that
does not is the error `noSuchState`, and only the look is one.
-/

namespace WordPattern

/-- The number of a state. -/
abbrev StateId := Nat

/-- A word is the list of its characters, one per code point. -/
abbrev Word := List Char

/-- One state of an automaton. -/
structure State where
  /-- Whether a run may end here. -/
  accepting : Bool := false
  /-- The edges that leave, in the order in which their letters were added. -/
  edges : Table Char StateId := .empty
deriving DecidableEq

/-- The row of states. -/
structure Automaton where
  /-- The states in order of their numbers. -/
  states : Array State
deriving DecidableEq

namespace State

/-- The targets of the edges, in the order of the edges. -/
def successors (state : State) : List StateId := state.edges.values

/-- Whether both states accept alike and have the same edges, in whatever
order. -/
def agrees (a b : State) : Bool :=
  a.accepting = b.accepting && a.edges.sameEntries b.edges

end State

namespace Automaton

/-- Every run starts in state 0. -/
def start : StateId := 0

/-- One rejecting state without edges. -/
def initial : Automaton := ⟨#[{}]⟩

/-- The number of states. -/
def numStates (a : Automaton) : Nat := a.states.size

/-- Looks into a state. -/
def state (a : Automaton) (id : StateId) : Except Error State :=
  match a.states[id]? with
  | some state => .ok state
  | none => .error (.noSuchState id)

/-- Only states below their number can be looked into. -/
theorem lt_of_state_eq_ok {a : Automaton} {id : StateId} {state : State}
    (h : a.state id = .ok state) : id < a.numStates := by
  rw [Automaton.state] at h
  split at h
  · rename_i hget
    exact (Array.getElem?_eq_some_iff.mp hget).1
  · cases h

/-- Adds a rejecting state without edges, which gets the next number. -/
def addState (a : Automaton) : Automaton × StateId :=
  (⟨a.states.push {}⟩, a.numStates)

/-- Changes a state by `f`; a state that does not exist stays missing. -/
def edit (a : Automaton) (id : StateId) (f : State → State) : Automaton :=
  ⟨a.states.modify id f⟩

/-- Changes a state by `f`, provided that it exists. -/
def edit? (a : Automaton) (id : StateId) (f : State → State) : Except Error Automaton :=
  if id < a.numStates then .ok (a.edit id f) else .error (.noSuchState id)

/-- Says whether runs may end in a state. -/
def setAccepting (a : Automaton) (id : StateId) (accepting : Bool) : Except Error Automaton :=
  a.edit? id fun state => { state with accepting }

/-- Sets the target of an edge. The target itself is not looked at. -/
def setEdge (a : Automaton) (source : StateId) (letter : Char) (target : StateId) :
    Except Error Automaton :=
  a.edit? source fun state => { state with edges := state.edges.insert letter target }

/-- Where the edge on a letter leads, if there is the state and the edge. -/
def target? (a : Automaton) (source : StateId) (letter : Char) : Option StateId :=
  a.states[source]?.bind fun state => state.edges.find? letter

/-- Where the edge on a letter leads, if there is one. -/
def follow (a : Automaton) (source : StateId) (letter : Char) :
    Except Error (Option StateId) := do
  return (← a.state source).edges.find? letter

/-- Follows the edge on a letter, to a new state if there is no edge yet. -/
def extend (a : Automaton) (source : StateId) (letter : Char) :
    Except Error (Automaton × StateId) := do
  match ← a.follow source letter with
  | some target => return (a, target)
  | none =>
    let (grown, target) := a.addState
    return (← grown.setEdge source letter target, target)

/-- Whether the run of a word from a state ends in an accepting state. Only
the states that the run looks into need to exist. -/
def acceptsFrom (a : Automaton) (id : StateId) : Word → Except Error Bool
  | [] => do return (← a.state id).accepting
  | letter :: rest => do
    match ← a.follow id letter with
    | some target => a.acceptsFrom target rest
    | none => return false

/-- Whether the automaton accepts a word. -/
def accepts (a : Automaton) (word : Word) : Except Error Bool := a.acceptsFrom start word

/-- Whether the states agree, number by number. -/
def agrees (a b : Automaton) : Bool :=
  a.numStates = b.numStates && (a.states.toList.zip b.states.toList).all fun pair =>
    pair.1.agrees pair.2

end Automaton

end WordPattern
