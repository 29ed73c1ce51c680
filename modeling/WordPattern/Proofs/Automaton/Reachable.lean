import Mathlib.Data.List.Nodup
import WordPattern.Automaton.Preorder
import WordPattern.Proofs.Fallible
import WordPattern.Proofs.Table

/-!
# Runs and the states they can reach

A run follows one edge per letter and is undefined where an edge is missing. An
automaton is closed when every edge that a run can come to leads to a state
that exists; edges of other states may dangle. On closed automata acceptance
never fails, and the traversal lists the reachable states, each once and the
start first. The order of the other states is not described here.
-/

namespace WordPattern.Automaton

variable {a : Automaton} {p q : StateId}

/-- A state that some run from the start comes to. -/
inductive Reachable (a : Automaton) : StateId → Prop where
  /-- Runs begin in the start. -/
  | start : Reachable a start
  /-- A run goes on by an edge. -/
  | edge {p q : StateId} {letter : Char} (before : Reachable a p)
      (edge : a.target? p letter = some q) : Reachable a q

/-- The start exists, and the edges of reachable states lead to states that
exist. -/
structure Closed (a : Automaton) : Prop where
  /-- There is at least one state. -/
  nonempty : 0 < a.numStates
  /-- No edge of a reachable state dangles. -/
  inRange : ∀ {p q letter}, a.Reachable p → a.target? p letter = some q → q < a.numStates

/-- Every reachable state of a closed automaton exists. -/
theorem Closed.lt (h : a.Closed) (hp : a.Reachable p) : p < a.numStates := by
  cases hp with
  | start => exact h.nonempty
  | edge before edge => exact h.inRange before edge

/-- The state with a number, one without edges where there is none. -/
def stateAt (a : Automaton) (id : StateId) : State := a.states[id]?.getD {}

/-- Whether a run may end in the state with a number. -/
def isAccepting (a : Automaton) (id : StateId) : Bool := (a.stateAt id).accepting

/-- A state that exists can be looked into. -/
theorem state_eq_ok (h : p < a.numStates) : a.state p = .ok (a.stateAt p) := by
  have hget : a.states[p]? = some a.states[p] := Array.getElem?_eq_getElem h
  simp only [state, stateAt, hget, Option.getD_some]

/-- A state that can be looked into is the one with its number. -/
theorem stateAt_eq {state : State} (h : a.state p = .ok state) : a.stateAt p = state := by
  rw [Automaton.state] at h
  rw [stateAt]
  cases hget : a.states[p]? with
  | none =>
    rw [hget] at h
    cases h
  | some found =>
    rw [hget] at h
    exact Except.ok.inj h

/-- Edges are read off the state with a number. -/
theorem target?_eq (a : Automaton) (p : StateId) (letter : Char) :
    a.target? p letter = (a.stateAt p).edges.find? letter := by
  rw [target?, stateAt]
  cases a.states[p]? <;> rfl

/-- Successors are the targets of edges. -/
theorem mem_successors : q ∈ (a.stateAt p).successors ↔ ∃ letter, a.target? p letter = some q := by
  simp only [State.successors, Table.mem_values, target?_eq]

/-- An automaton is closed if its start is among listed states that exist and
whose successors are listed. -/
theorem closed_of_list (ids : List StateId) (hstart : start ∈ ids)
    (h : ∀ p ∈ ids, p < a.numStates ∧ ∀ q ∈ (a.stateAt p).successors, q ∈ ids) : a.Closed := by
  have hlisted : ∀ {p}, a.Reachable p → p ∈ ids := by
    intro p hp
    induction hp with
    | start => exact hstart
    | @edge p q letter _ hedge ih => exact (h p ih).2 q (mem_successors.mpr ⟨letter, hedge⟩)
  exact ⟨(h start hstart).1, fun hp hedge => (h _ (hlisted (hp.edge hedge))).1⟩

/-- Where the run of a word from a state ends, if it is defined. -/
def runFrom (a : Automaton) (id : StateId) : Word → Option StateId
  | [] => some id
  | letter :: rest => (a.target? id letter).bind (a.runFrom · rest)

/-- What a run of a word from a state says: nothing if it is undefined, and
otherwise whether it ends in an accepting state. -/
def verdict (a : Automaton) (id : StateId) (word : Word) : Option Bool :=
  (a.runFrom id word).map a.isAccepting

@[simp] theorem runFrom_nil (a : Automaton) (id : StateId) : a.runFrom id [] = some id := rfl

@[simp] theorem verdict_nil (a : Automaton) (id : StateId) :
    a.verdict id [] = some (a.isAccepting id) := rfl

/-- The verdict on a word is that on its rest after the first edge. -/
theorem verdict_cons (a : Automaton) (id : StateId) (letter : Char) (rest : Word) :
    a.verdict id (letter :: rest) = (a.target? id letter).bind (a.verdict · rest) := by
  rw [verdict, runFrom]
  cases a.target? id letter <;> rfl

/-- A run of two words one after the other goes on where the first one ends. -/
theorem runFrom_append (a : Automaton) (id : StateId) (first second : Word) :
    a.runFrom id (first ++ second) = (a.runFrom id first).bind (a.runFrom · second) := by
  induction first generalizing id with
  | nil => rfl
  | cons letter rest ih =>
    rw [List.cons_append, runFrom, runFrom]
    cases a.target? id letter with
    | none => rfl
    | some next => exact ih next

/-- A run of a word that is not empty ends with an edge. -/
theorem runFrom_concat {word : Word} {letter : Char} :
    a.runFrom p (word ++ [letter]) = some q ↔
      ∃ before, a.runFrom p word = some before ∧ a.target? before letter = some q := by
  rw [runFrom_append, Option.bind_eq_some_iff]
  simp [runFrom]

/-- Runs stay within states of a kind whose successors are of the kind. -/
theorem runFrom_keeps {kind : StateId → Prop}
    (hkind : ∀ {p}, kind p → ∀ next ∈ (a.stateAt p).successors, kind next) (hp : kind p)
    {word : Word} (hrun : a.runFrom p word = some q) : kind q := by
  induction word generalizing p with
  | nil =>
    cases hrun
    exact hp
  | cons letter rest ih =>
    obtain ⟨next, hedge, hrest⟩ := Option.bind_eq_some_iff.mp hrun
    exact ih (hkind hp next (mem_successors.mpr ⟨letter, hedge⟩)) hrest

/-- The successors of a reachable state are reachable. -/
theorem Reachable.successors (hp : a.Reachable p) :
    ∀ next ∈ (a.stateAt p).successors, a.Reachable next := by
  intro next hnext
  obtain ⟨letter, hedge⟩ := mem_successors.mp hnext
  exact hp.edge hedge

/-- Runs stay within the reachable states. -/
theorem Reachable.runFrom (hp : a.Reachable p) {word : Word}
    (hrun : a.runFrom p word = some q) : a.Reachable q :=
  runFrom_keeps Reachable.successors hp hrun

/-- The reachable states are those in which runs from the start end. -/
theorem reachable_iff_run : a.Reachable q ↔ ∃ word, a.runFrom start word = some q := by
  constructor
  · intro hq
    induction hq with
    | start => exact ⟨[], rfl⟩
    | @edge p q letter _ hedge ih =>
      obtain ⟨word, hword⟩ := ih
      exact ⟨word ++ [letter], runFrom_concat.mpr ⟨p, hword, hedge⟩⟩
  · rintro ⟨word, hword⟩
    exact Reachable.start.runFrom hword

/-- On a closed automaton acceptance never fails: a word is accepted when its
run is defined and ends in an accepting state. -/
theorem Closed.acceptsFrom_eq (h : a.Closed) (hp : a.Reachable p) (word : Word) :
    a.acceptsFrom p word = .ok ((a.verdict p word).getD false) := by
  induction word generalizing p with
  | nil =>
    rw [acceptsFrom, state_eq_ok (h.lt hp)]
    rfl
  | cons letter rest ih =>
    rw [acceptsFrom, follow, state_eq_ok (h.lt hp), verdict_cons, target?_eq]
    cases hedge : (a.stateAt p).edges.find? letter with
    | none => simp [bind, Except.bind, pure, Except.pure, hedge]
    | some next =>
      have hnext : a.Reachable next := hp.edge (by rw [target?_eq, hedge])
      simpa [bind, Except.bind, pure, Except.pure, hedge] using ih hnext

/-- On a closed automaton the outcome of a word is decided by its run. -/
theorem Closed.accepts_eq (h : a.Closed) (word : Word) :
    a.accepts word = .ok ((a.verdict start word).getD false) :=
  h.acceptsFrom_eq .start word

/-- The traversal enters an unseen state and goes on with its successors. -/
theorem preorderFrom_of_mem {unseen rest : List StateId} (hunseen : p ∈ unseen)
    (hlt : p < a.numStates) : a.preorderFrom unseen (p :: rest) =
      (a.preorderFrom (unseen.erase p) ((a.stateAt p).successors ++ rest)).map (p :: ·) := by
  rw [preorderFrom, dif_pos hunseen, state_eq_ok hlt]
  simp only [bind, Except.bind, pure, Except.pure]
  cases a.preorderFrom (unseen.erase p) ((a.stateAt p).successors ++ rest) <;> rfl

/-- The traversal drops a state that it has entered before. -/
theorem preorderFrom_of_notMem {unseen rest : List StateId} (hseen : p ∉ unseen)
    (hlt : p < a.numStates) : a.preorderFrom unseen (p :: rest) = a.preorderFrom unseen rest := by
  rw [preorderFrom, dif_neg hseen, if_pos hlt]

/-- A traversal of reachable states runs through. It lists states that were
unseen, each once, and leaves out no unseen state of its stack and no unseen
successor of a state that it lists. -/
theorem Closed.preorderFrom_spec (h : a.Closed) (unseen stack : List StateId)
    (hunseen : unseen.Nodup) (hstack : ∀ id ∈ stack, a.Reachable id) :
    ∃ order, a.preorderFrom unseen stack = .ok order ∧ order.Nodup ∧ order ⊆ unseen ∧
      (∀ id ∈ order, a.Reachable id) ∧ (∀ id ∈ stack, id ∈ unseen → id ∈ order) ∧
      ∀ id ∈ order, ∀ next ∈ (a.stateAt id).successors, next ∈ unseen → next ∈ order := by
  induction unseen, stack using preorderFrom.induct a with
  | case1 unseen => exact ⟨[], by rw [preorderFrom], by simp⟩
  | case2 unseen id rest hid ih =>
    obtain ⟨hreach, hrest⟩ := List.forall_mem_cons.mp hstack
    obtain ⟨order, hok, hnodup, hsub, hall, htaken, hsucc⟩ := ih (a.stateAt id)
      (hunseen.erase id) (List.forall_mem_append.mpr ⟨hreach.successors, hrest⟩)
    have hnot : id ∉ order := fun hmem => hunseen.not_mem_erase (hsub hmem)
    have hdone : ∀ next, next ∈ unseen → (next ∈ unseen.erase id → next ∈ order) →
        next ∈ id :: order := by
      intro next hnext hlate
      by_cases he : next = id
      · exact he ▸ List.mem_cons_self
      · exact List.mem_cons_of_mem _ (hlate ((List.mem_erase_of_ne he).mpr hnext))
    refine ⟨id :: order, ?_, List.nodup_cons.mpr ⟨hnot, hnodup⟩, ?_, ?_, ?_, ?_⟩
    · rw [preorderFrom_of_mem hid (h.lt hreach), hok]
      rfl
    · exact List.cons_subset.mpr ⟨hid, fun next hnext => List.mem_of_mem_erase (hsub hnext)⟩
    · exact List.forall_mem_cons.mpr ⟨hreach, hall⟩
    · intro next hnext hin
      rcases List.mem_cons.mp hnext with rfl | hrest
      · exact List.mem_cons_self
      · exact hdone next hin (htaken next (List.mem_append_right _ hrest))
    · intro source hsource next hnext hin
      rcases List.mem_cons.mp hsource with rfl | hlate
      · exact hdone next hin (htaken next (List.mem_append_left _ hnext))
      · exact hdone next hin (hsucc source hlate next hnext)
  | case3 unseen id rest hid hlt ih =>
    obtain ⟨order, hok, hnodup, hsub, hall, htaken, hsucc⟩ :=
      ih hunseen fun next hnext => hstack next (List.mem_cons_of_mem _ hnext)
    refine ⟨order, ?_, hnodup, hsub, hall, ?_, hsucc⟩
    · rw [preorderFrom_of_notMem hid hlt, hok]
    · intro next hnext hin
      rcases List.mem_cons.mp hnext with rfl | hrest
      · exact absurd hin hid
      · exact htaken next hrest hin
  | case4 unseen id rest hid hlt => exact absurd (h.lt (hstack id List.mem_cons_self)) hlt

/-- On a closed automaton the traversal runs through and lists the reachable
states, each once. -/
theorem Closed.preorder_spec (h : a.Closed) :
    ∃ order, a.preorder = .ok order ∧ order.Nodup ∧ ∀ id, id ∈ order ↔ a.Reachable id := by
  obtain ⟨order, hok, hnodup, hsub, hall, htaken, hsucc⟩ :=
    h.preorderFrom_spec (List.range a.numStates) [start] List.nodup_range
      (by simpa using Reachable.start)
  refine ⟨order, hok, hnodup, fun id => ⟨hall id, fun hid => ?_⟩⟩
  have hin : ∀ {id}, a.Reachable id → id ∈ List.range a.numStates := fun hid =>
    List.mem_range.mpr (h.lt hid)
  induction hid with
  | start => exact htaken start List.mem_cons_self (hin .start)
  | @edge p q letter before hedge ih =>
    exact hsucc p ih q (mem_successors.mpr ⟨letter, hedge⟩) (hin (before.edge hedge))

/-- The traversal begins with the start. -/
theorem Closed.preorder_head (h : a.Closed) {order : List StateId}
    (hok : a.preorder = .ok order) : order.head? = some start := by
  rw [preorder, preorderFrom_of_mem (p := start) (List.mem_range.mpr h.nonempty) h.nonempty,
    map_eq_ok_iff] at hok
  obtain ⟨later, -, rfl⟩ := hok
  rfl

/-- Two ways into a loop, a state that accepts nothing, and a state that no run
comes to and whose edge dangles. -/
def twoWays : Automaton :=
  ⟨#[{ edges := { entries := [('a', 1), ('b', 2), ('c', 3)] } },
    { accepting := true, edges := { entries := [('a', 1)] } },
    { accepting := true, edges := { entries := [('a', 1)] } },
    { edges := { entries := [('c', 3)] } },
    { accepting := true, edges := { entries := [('z', 9)] } }]⟩

theorem closed_twoWays : twoWays.Closed :=
  closed_of_list [0, 1, 2, 3] (by decide) (by decide)

end WordPattern.Automaton
