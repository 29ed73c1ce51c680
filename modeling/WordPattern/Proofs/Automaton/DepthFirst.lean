import Mathlib.Data.List.Basic
import WordPattern.Proofs.Automaton.Reachable

/-!
# Recursion in place of the stack

Depth-first preorder is defined by recursion: to enter a state is to list it and
then to enter its successors one after the other, each with all that it leads to
before the next one has its turn; a state that was entered before is passed over.
The traversal keeps states on a stack instead, where a state may wait several
times and may be entered by another way before its turn comes. On a closed
automaton both list the same states in the same order. States that do not exist
are never entered by the recursion, which has no errors to report.
-/

namespace WordPattern.Automaton

mutual

/-- Lists what is entered when a state has its turn. A state that is no longer
unseen is passed over; any other is marked before its successors are entered. -/
def enter (a : Automaton) (unseen : List StateId) (id : StateId) : List StateId :=
  if _ : id ∈ unseen then id :: a.enterEach (unseen.erase id) (a.stateAt id).successors else []
termination_by (unseen.length, 0)
decreasing_by
  rename_i h
  have hpos := List.length_pos_of_mem h
  have hlen := List.length_erase_of_mem h
  exact Prod.Lex.left _ _ (by omega)

/-- Lists what is entered when states have their turns one after the other. What
was entered in one turn is no longer unseen in the next one. -/
def enterEach (a : Automaton) (unseen : List StateId) : List StateId → List StateId
  | [] => []
  | id :: later =>
    a.enter unseen id ++ a.enterEach (unseen.diff (a.enter unseen id)) later
termination_by ids => (unseen.length, ids.length)
decreasing_by
  · apply Prod.Lex.right
    simp only [List.length_cons]
    omega
  · apply Prod.Lex.right'
    · exact (List.diff_sublist unseen _).length_le
    · simp only [List.length_cons]
      omega

end

/-- The states that runs can reach, in depth-first preorder by recursion. -/
def depthFirst (a : Automaton) : List StateId := a.enter (List.range a.numStates) start

variable {a : Automaton} {unseen : List StateId} {id : StateId}

/-- An unseen state is entered, and then its successors. -/
theorem enter_of_mem (h : id ∈ unseen) :
    a.enter unseen id = id :: a.enterEach (unseen.erase id) (a.stateAt id).successors := by
  rw [enter, dif_pos h]

/-- A state that was entered before is passed over. -/
theorem enter_of_notMem (h : id ∉ unseen) : a.enter unseen id = [] := by
  rw [enter, dif_neg h]

/-- The states of two lists have their turns one list after the other. -/
theorem enterEach_append (a : Automaton) (unseen first second : List StateId) :
    a.enterEach unseen (first ++ second) =
      a.enterEach unseen first ++ a.enterEach (unseen.diff (a.enterEach unseen first)) second := by
  induction first generalizing unseen with
  | nil => simp [enterEach]
  | cons id later ih =>
    rw [List.cons_append, enterEach, ih, enterEach, List.diff_append, List.append_assoc]

/-- The successors that are put on top of the stack are entered with all that
they lead to before the traversal comes to what lies below them. -/
theorem Closed.preorderFrom_eq_enterEach (h : a.Closed) (unseen stack : List StateId)
    (hstack : ∀ id ∈ stack, a.Reachable id) :
    a.preorderFrom unseen stack = .ok (a.enterEach unseen stack) := by
  induction unseen, stack using preorderFrom.induct a with
  | case1 unseen => rw [preorderFrom, enterEach]
  | case2 unseen id below hid ih =>
    obtain ⟨hreach, hbelow⟩ := List.forall_mem_cons.mp hstack
    have hnext := ih (a.stateAt id) (List.forall_mem_append.mpr ⟨hreach.successors, hbelow⟩)
    rw [preorderFrom_of_mem hid (h.lt hreach), hnext, enterEach, enter_of_mem hid,
      enterEach_append, List.diff_cons]
    rfl
  | case3 unseen id below hid hlt ih =>
    have hnext := ih (List.forall_mem_cons.mp hstack).2
    rw [preorderFrom_of_notMem hid hlt, hnext, enterEach, enter_of_notMem hid, List.diff_nil,
      List.nil_append]
  | case4 unseen id below hid hlt => exact absurd (h.lt (hstack id List.mem_cons_self)) hlt

/-- A loop in which state 2 waits as a successor of the start while state 1 leads
to it earlier, and a state that no run comes to and whose edge dangles. -/
def shortcut : Automaton :=
  ⟨#[{ edges := { entries := [('g', 1), ('h', 2)] } },
    { edges := { entries := [('h', 2), ('k', 3)] } },
    { edges := { entries := [('m', 0)] } },
    { accepting := true },
    { edges := { entries := [('n', 9)] } }]⟩

theorem closed_shortcut : shortcut.Closed :=
  closed_of_list [0, 1, 2, 3] (by decide) (by decide)

/-- The traversal of a closed automaton runs through and lists what the recursion
lists, in the same order. The list begins with the start and has each state that
runs can reach once, and no other state. -/
theorem preorder_depthFirst (h : a.Closed) :
    a.preorder = .ok a.depthFirst ∧ a.depthFirst.head? = some start ∧ a.depthFirst.Nodup ∧
      ∀ id, id ∈ a.depthFirst ↔ a.Reachable id := by
  have hstack := h.preorderFrom_eq_enterEach (List.range a.numStates) [start]
    (List.forall_mem_singleton.mpr .start)
  have hone : a.enterEach (List.range a.numStates) [start] = a.depthFirst := by
    rw [enterEach, enterEach, List.append_nil, depthFirst]
  have hok : a.preorder = .ok a.depthFirst := by
    rw [preorder, hstack, hone]
  obtain ⟨order, horder, hnodup, hreach⟩ := h.preorder_spec
  obtain rfl := Except.ok.inj (hok.symm.trans horder)
  exact ⟨hok, h.preorder_head hok, hnodup, hreach⟩

theorem preorder_depthFirst_shortcut :
    shortcut.Closed ∧ shortcut.preorder = .ok shortcut.depthFirst ∧
      shortcut.depthFirst.head? = some start ∧ shortcut.depthFirst.Nodup ∧
      ∀ id, id ∈ shortcut.depthFirst ↔ shortcut.Reachable id :=
  ⟨closed_shortcut, preorder_depthFirst closed_shortcut⟩

example : shortcut.depthFirst = [0, 1, 2, 3] := by cbv

end WordPattern.Automaton
