import WordPattern.Automaton.Cycle
import WordPattern.Automaton.Preorder
import WordPattern.Expr.Simplify
import WordPattern.Lookup

/-!
# From an automaton to an expression by solving equations

Each state that a run can reach is an unknown, standing for the words that are
accepted from there, and has an equation: the unknown is the union of a
constant, the empty word if the state accepts, and of one term per state that
an edge leads to, the letters of those edges followed by that state's unknown.
The equations are solved from the last state in preorder up to the start. An
unknown in its own equation becomes a repetition of its coefficient, and a
solved equation is put into the others. An absent expression matches nothing.
-/

namespace WordPattern

/-- An equation for the words accepted from a state. -/
structure Equation where
  /-- The state whose words the equation describes. -/
  unknown : StateId
  /-- Words accepted without passing another unknown. -/
  constant : Option Expr
  /-- What may be read before each unknown, by unknown. -/
  terms : Table StateId Expr

namespace Equation

/-- The equation of a state. -/
def ofState (id : StateId) (state : State) : Equation where
  unknown := id
  constant := if state.accepting then some .empty else none
  terms := state.edges.entries.foldl (fun terms edge =>
    terms.merge Expr.union edge.2 (.literal [edge.1])) .empty

/-- Solves an equation for its own unknown: what may be read before that
unknown may be read any number of times before everything else. -/
def solveLoop (e : Equation) : Equation :=
  match e.terms.find? e.unknown with
  | none => e
  | some coefficient =>
    let loop := coefficient.star
    { e with
      constant := e.constant.map loop.append
      terms := (e.terms.erase e.unknown).map loop.append }

/-- Puts a solved equation into another one in place of its unknown. -/
def substitute (solved e : Equation) : Equation :=
  match e.terms.find? solved.unknown with
  | none => e
  | some coefficient =>
    { e with
      constant := Expr.union? e.constant (solved.constant.map coefficient.append)
      terms := solved.terms.entries.foldl (fun terms term =>
        terms.merge Expr.union term.1 (coefficient.append term.2)) (e.terms.erase solved.unknown) }

/-- Solves equations in order and gives the solution of the last one. -/
def solve (equations : List Equation) : Option Expr :=
  match equations with
  | [] => none
  | [e] => e.solveLoop.constant
  | e :: rest => solve (rest.map e.solveLoop.substitute)
termination_by equations.length
decreasing_by
  simp only [List.length_map, List.length_attach, List.length_cons]
  omega

end Equation

namespace Automaton

/-- The equation of a state, whose successors have their places among the
unknowns. -/
def equation (a : Automaton) (unknowns : List StateId) (id : StateId) : Except Error Equation := do
  let state ← a.state id
  let _ ← state.successors.mapM (Row.placeOf unknowns)
  return Equation.ofState id state

/-- The expression for the words that an automaton accepts, absent if there
are none. Whether there is a cycle is found out, and makes no difference. -/
def expression (a : Automaton) : Except Error (Option Expr) := do
  let reachable ← a.preorder
  let _ ← a.isAcyclic
  let equations ← reachable.reverse.mapM (a.equation reachable)
  return Equation.solve equations

end Automaton

end WordPattern
