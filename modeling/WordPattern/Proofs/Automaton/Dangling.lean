import WordPattern.Proofs.Automaton.Reachable

/-!
# Edges that dangle

An automaton is built by adding states, saying which of them accept, and setting
edges; an edge may be set to a state that does not exist. If a run from the start
can come to such an edge, the traversal looks for the missing state and fails, and
if no run can, it runs through. A word fails exactly if the run of a beginning of
it ends in a missing state: only the states that the run comes to are looked into.
Edges of states that no run comes to are never looked at.
-/

namespace WordPattern

/-- The result is the error that a state is missing. -/
def MissesState {α : Type} (result : Except Error α) : Prop :=
  ∃ id, result = .error (.noSuchState id)

theorem not_missesState_ok {α : Type} (value : α) : ¬MissesState (.ok value) := by
  rintro ⟨id, he⟩
  cases he

namespace Automaton

variable {a b : Automaton} {p q id : StateId}

/-- A call that changes an automaton that is being built. -/
inductive Edit where
  /-- A rejecting state without edges is added. -/
  | addState
  /-- Runs may end in a state, or may not. -/
  | setAccepting (id : StateId) (accepting : Bool)
  /-- The target of an edge is set, whether or not it exists. -/
  | setEdge (source : StateId) (letter : Char) (target : StateId)

/-- The automaton after a call; only the state that is changed has to exist. -/
def apply (a : Automaton) : Edit → Except Error Automaton
  | .addState => .ok a.addState.1
  | .setAccepting id accepting => a.setAccepting id accepting
  | .setEdge source letter target => a.setEdge source letter target

/-- The automaton that a sequence of calls makes of one rejecting state. -/
def built (edits : List Edit) : Except Error Automaton := edits.foldlM apply initial

/-- Changing a state keeps the number of states. -/
theorem numStates_of_edit? {f : State → State} (h : a.edit? id f = .ok b) :
    b.numStates = a.numStates := by
  rw [edit?] at h
  split at h
  · cases h
    exact Array.size_modify
  · cases h

/-- No call takes states away. -/
theorem numStates_le_of_apply {call : Edit} (h : a.apply call = .ok b) :
    a.numStates ≤ b.numStates := by
  cases call with
  | addState =>
    cases h
    rw [addState, numStates, numStates, Array.size_push]
    exact Nat.le_succ _
  | setAccepting id accepting => exact Nat.le_of_eq (numStates_of_edit? h).symm
  | setEdge source letter target => exact Nat.le_of_eq (numStates_of_edit? h).symm

/-- What is built has a start. -/
theorem numStates_pos_of_built {edits : List Edit} (h : built edits = .ok a) :
    0 < a.numStates := by
  let hasStart : Automaton → Prop := fun b => 0 < b.numStates
  have hstep : ∀ {call b next}, hasStart b → b.apply call = .ok next → hasStart next :=
    fun hpos happly => Nat.lt_of_lt_of_le hpos (numStates_le_of_apply happly)
  have hinitial : hasStart initial := Nat.one_pos
  exact foldlM_keeps hstep hinitial h

/-- Runs can come to a state with an edge to a state that does not exist. -/
def Dangles (a : Automaton) : Prop :=
  ∃ p letter q, a.Reachable p ∧ a.target? p letter = some q ∧ a.numStates ≤ q

/-- An automaton with a start is closed unless it dangles. -/
theorem closed_iff_not_dangles (hpos : 0 < a.numStates) : a.Closed ↔ ¬a.Dangles := by
  constructor
  · rintro h ⟨p, letter, q, hp, hedge, hle⟩
    exact Nat.not_lt_of_le hle (h.inRange hp hedge)
  · intro h
    refine ⟨hpos, fun {p q letter} hp hedge => ?_⟩
    by_contra hge
    exact h ⟨p, letter, q, hp, hedge, Nat.le_of_not_lt hge⟩

/-- A state that does not exist cannot be looked into. -/
theorem state_eq_error (h : a.numStates ≤ id) : a.state id = .error (.noSuchState id) := by
  have hnone : a.states[id]? = none := Array.getElem?_eq_none h
  rw [state, hnone]

/-- Looking into a state fails only where there is none. -/
theorem eq_noSuchState {error : Error} (h : a.state id = .error error) :
    error = .noSuchState id := by
  by_cases hlt : id < a.numStates
  · rw [state_eq_ok hlt] at h
    cases h
  · rw [state_eq_error (Nat.le_of_not_lt hlt)] at h
    exact (Except.error.inj h).symm

/-- A traversal runs through or looks for a missing state. -/
theorem preorderFrom_cases (a : Automaton) (unseen stack : List StateId) :
    (∃ order, a.preorderFrom unseen stack = .ok order) ∨
      MissesState (a.preorderFrom unseen stack) := by
  induction unseen, stack using preorderFrom.induct a with
  | case1 unseen => exact Or.inl ⟨[], by rw [preorderFrom]⟩
  | case2 unseen id below hid ih =>
    by_cases hlt : id < a.numStates
    · rw [preorderFrom_of_mem hid hlt]
      rcases ih (a.stateAt id) with ⟨order, hok⟩ | ⟨missing, herror⟩
      · exact Or.inl ⟨id :: order, by rw [hok, Except.map]⟩
      · exact Or.inr ⟨missing, by rw [herror, Except.map]⟩
    · rw [preorderFrom, dif_pos hid, state_eq_error (Nat.le_of_not_lt hlt)]
      exact Or.inr ⟨id, rfl⟩
  | case3 unseen id below hid hlt ih =>
    rw [preorderFrom_of_notMem hid hlt]
    exact ih
  | case4 unseen id below hid hlt =>
    rw [preorderFrom, dif_neg hid, if_neg hlt]
    exact Or.inr ⟨id, rfl⟩

/-- A state that a traversal has dealt with when it has run through: it exists, and
is listed if it was unseen. -/
def Settled (a : Automaton) (unseen order : List StateId) (id : StateId) : Prop :=
  id < a.numStates ∧ (id ∈ unseen → id ∈ order)

/-- A state that is settled without the one that is just entered is settled. -/
theorem Settled.entered {unseen order : List StateId}
    (h : a.Settled (unseen.erase p) order id) : a.Settled unseen (p :: order) id := by
  refine ⟨h.1, fun hid => ?_⟩
  by_cases he : id = p
  · exact he ▸ List.mem_cons_self
  · exact List.mem_cons_of_mem p (h.2 ((List.mem_erase_of_ne he).mpr hid))

/-- A traversal that runs through has looked into each state that it lists, and
has settled the states of its stack and all successors of listed states. -/
theorem settled_of_preorderFrom {unseen stack order : List StateId}
    (hok : a.preorderFrom unseen stack = .ok order) :
    (∀ id ∈ stack, a.Settled unseen order id) ∧
      ∀ id ∈ order, id < a.numStates ∧
        ∀ next ∈ (a.stateAt id).successors, a.Settled unseen order next := by
  induction unseen, stack using preorderFrom.induct a generalizing order with
  | case1 unseen =>
    rw [preorderFrom] at hok
    cases hok
    exact ⟨List.forall_mem_nil _, List.forall_mem_nil _⟩
  | case2 unseen id below hid ih =>
    rw [preorderFrom, dif_pos hid] at hok
    obtain ⟨state, hstate, hrest⟩ := bind_eq_ok_iff.mp hok
    have hlt := lt_of_state_eq_ok hstate
    obtain ⟨later, hlater, hlist⟩ := bind_eq_ok_iff.mp hrest
    cases hlist
    obtain ⟨hstack, hlisted⟩ := ih state hlater
    obtain ⟨hsucc, hbelow⟩ := List.forall_mem_append.mp hstack
    rw [← stateAt_eq hstate] at hsucc
    refine ⟨List.forall_mem_cons.mpr ⟨⟨hlt, fun _ => List.mem_cons_self⟩, ?_⟩,
      List.forall_mem_cons.mpr ⟨⟨hlt, ?_⟩, ?_⟩⟩
    · exact fun next hnext => (hbelow next hnext).entered
    · exact fun next hnext => (hsucc next hnext).entered
    · intro source hsource
      obtain ⟨hin, hnexts⟩ := hlisted source hsource
      exact ⟨hin, fun next hnext => (hnexts next hnext).entered⟩
  | case3 unseen id below hid hlt ih =>
    rw [preorderFrom_of_notMem hid hlt] at hok
    obtain ⟨hstack, hlisted⟩ := ih hok
    exact ⟨List.forall_mem_cons.mpr ⟨⟨hlt, fun hin => absurd hin hid⟩, hstack⟩, hlisted⟩
  | case4 unseen id below hid hlt =>
    rw [preorderFrom, dif_neg hid, if_neg hlt] at hok
    cases hok

/-- The traversal runs through exactly on closed automata. -/
theorem preorder_ok_iff : (∃ order, a.preorder = .ok order) ↔ a.Closed := by
  constructor
  · rintro ⟨order, hok⟩
    obtain ⟨hstack, hlisted⟩ := settled_of_preorderFrom hok
    have hin : ∀ {id}, a.Settled (List.range a.numStates) order id → id ∈ order := fun h =>
      h.2 (List.mem_range.mpr h.1)
    refine closed_of_list order (hin (hstack start List.mem_cons_self)) ?_
    intro p hp
    obtain ⟨hlt, hsucc⟩ := hlisted p hp
    exact ⟨hlt, fun q hq => hin (hsucc q hq)⟩
  · intro h
    obtain ⟨order, hok, -⟩ := h.preorder_spec
    exact ⟨order, hok⟩

/-- An automaton that the traversal runs through is closed, and its reachable states
are listed. -/
theorem closed_of_preorder {order : List StateId} (hok : a.preorder = .ok order) :
    a.Closed ∧ ∀ id, id ∈ order ↔ a.Reachable id := by
  have hclosed := preorder_ok_iff.mp ⟨order, hok⟩
  obtain ⟨listed, hlisted, -, hreach⟩ := hclosed.preorder_spec
  obtain rfl := Except.ok.inj (hok.symm.trans hlisted)
  exact ⟨hclosed, hreach⟩

/-- Given a start, the traversal looks for a missing state exactly if the automaton
dangles. -/
theorem preorder_missesState_iff (hpos : 0 < a.numStates) : MissesState a.preorder ↔ a.Dangles := by
  constructor
  · rintro ⟨id, herror⟩
    by_contra hnot
    obtain ⟨order, hok⟩ := preorder_ok_iff.mpr ((closed_iff_not_dangles hpos).mpr hnot)
    rw [hok] at herror
    cases herror
  · intro hdangles
    refine (preorderFrom_cases a _ _).resolve_left fun hok => ?_
    exact (closed_iff_not_dangles hpos).mp (preorder_ok_iff.mp hok) hdangles

/-- The run of some beginning of a word leads from a state to one that does not
exist. -/
def RunsOut (a : Automaton) (id : StateId) (word : Word) : Prop :=
  ∃ first q, first <+: word ∧ a.runFrom id first = some q ∧ a.numStates ≤ q

/-- From a state that does not exist every word runs out. -/
theorem runsOut_of_le (h : a.numStates ≤ id) (word : Word) : a.RunsOut id word :=
  ⟨[], id, List.nil_prefix, rfl, h⟩

/-- From a state that exists the empty word does not run out. -/
theorem not_runsOut_nil (h : id < a.numStates) : ¬a.RunsOut id [] := by
  rintro ⟨first, q, hfirst, hrun, hle⟩
  rw [List.prefix_nil.mp hfirst] at hrun
  cases hrun
  exact Nat.not_lt_of_le hle h

/-- From a state that exists a word runs out if there is an edge on its first
letter and the rest runs out from there. -/
theorem runsOut_cons (h : id < a.numStates) {letter : Char} {rest : Word} :
    a.RunsOut id (letter :: rest) ↔
      ∃ next, a.target? id letter = some next ∧ a.RunsOut next rest := by
  constructor
  · rintro ⟨first, q, hfirst, hrun, hle⟩
    rcases List.prefix_cons_iff.mp hfirst with rfl | ⟨tail, rfl, htail⟩
    · cases hrun
      exact absurd h (Nat.not_lt_of_le hle)
    · obtain ⟨next, hedge, hnext⟩ := Option.bind_eq_some_iff.mp hrun
      exact ⟨next, hedge, tail, q, htail, hnext, hle⟩
  · rintro ⟨next, hedge, first, q, hfirst, hrun, hle⟩
    refine ⟨letter :: first, q, List.cons_prefix_cons.mpr ⟨rfl, hfirst⟩, ?_, hle⟩
    rw [runFrom, hedge]
    exact hrun

/-- Acceptance looks for a missing state exactly if the word runs out. -/
theorem acceptsFrom_missesState_iff (a : Automaton) (id : StateId) (word : Word) :
    MissesState (a.acceptsFrom id word) ↔ a.RunsOut id word := by
  induction word generalizing id with
  | nil =>
    rw [acceptsFrom]
    by_cases hlt : id < a.numStates
    · rw [state_eq_ok hlt]
      exact iff_of_false (not_missesState_ok _) (not_runsOut_nil hlt)
    · have hle := Nat.le_of_not_lt hlt
      rw [state_eq_error hle]
      exact iff_of_true ⟨id, rfl⟩ (runsOut_of_le hle [])
  | cons letter rest ih =>
    rw [acceptsFrom, follow]
    by_cases hlt : id < a.numStates
    · rw [state_eq_ok hlt, runsOut_cons hlt, target?_eq]
      cases hedge : (a.stateAt id).edges.find? letter with
      | none => simpa [bind, Except.bind, pure, Except.pure, hedge] using not_missesState_ok false
      | some next => simpa [bind, Except.bind, pure, Except.pure, hedge] using ih next
    · have hle := Nat.le_of_not_lt hlt
      rw [state_eq_error hle]
      exact iff_of_true ⟨id, rfl⟩ (runsOut_of_le hle (letter :: rest))

end Automaton

end WordPattern
