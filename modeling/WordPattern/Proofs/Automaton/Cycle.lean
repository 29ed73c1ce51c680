import WordPattern.Automaton.Cycle
import WordPattern.Proofs.Automaton.Reachable

/-!
# What the search for a cycle finds

On a closed automaton the search looks only into states that exist, so it never
fails: it goes on from reachable states to their successors. Its answer is right
on every automaton on which it has one. Each state of the path leads to the next
one, so an edge back onto the path closes a cycle. The states that are done with
exist, lead only to such states and to none of them back again, so nothing is
missed when the whole path has been left. Which cycle is found, if there are
several, is not described.
-/

namespace WordPattern.Automaton

variable {a : Automaton} {p q id next : StateId} {later : List StateId} {onPath done : IdSet}
  {path above : List (StateId × List StateId)} {acyclic : Bool}

/-- A run of at least one letter leads from the state back to it. -/
def Returns (a : Automaton) (p : StateId) : Prop := ∃ word ≠ [], a.runFrom p word = some p

/-- Runs can come to a state that returns to itself. -/
def Cyclic (a : Automaton) : Prop := ∃ p, a.Reachable p ∧ a.Returns p

/-- A state that returns to itself has a successor that leads back. -/
theorem Returns.exists_successor (h : a.Returns p) :
    ∃ next ∈ (a.stateAt p).successors, ∃ word, a.runFrom next word = some p := by
  obtain ⟨word, hne, hrun⟩ := h
  cases word with
  | nil => exact absurd rfl hne
  | cons letter rest =>
    obtain ⟨next, hedge, hrest⟩ := Option.bind_eq_some_iff.mp hrun
    exact ⟨next, mem_successors.mpr ⟨letter, hedge⟩, rest, hrest⟩

/-- What holds of the path on which a search stands: it has no state twice, runs come
to its states, each of them leads to the ones entered after it, and only successors
are still to be tried. -/
structure Standing (a : Automaton) (onPath : IdSet) (path : List (StateId × List StateId)) :
    Prop where
  /-- The set holds the states of the path. -/
  mem_onPath : ∀ {p}, p ∈ onPath ↔ p ∈ path.map Prod.fst
  /-- No state is entered while it is on the path. -/
  nodup : (path.map Prod.fst).Nodup
  /-- Runs come to the states of the path. -/
  reachable : ∀ p ∈ path.map Prod.fst, a.Reachable p
  /-- Earlier states lead to those entered after them. -/
  leads : (path.map Prod.fst).Pairwise fun entered earlier =>
    ∃ word, a.runFrom earlier word = some entered
  /-- Only successors are tried. -/
  successors : ∀ entry ∈ path, ∀ next ∈ entry.2, next ∈ (a.stateAt entry.1).successors

/-- The current state is left. -/
theorem Standing.leave (h : a.Standing onPath ((id, later) :: above)) :
    a.Standing (onPath.erase id) above where
  mem_onPath := by
    intro p
    have hid := (List.nodup_cons.mp h.nodup).1
    rw [IdSet.mem_erase, h.mem_onPath, List.map_cons, List.mem_cons]
    constructor
    · exact fun hp => hp.2.resolve_left hp.1
    · exact fun hp => ⟨fun he => hid (he ▸ hp), Or.inr hp⟩
  nodup := (List.nodup_cons.mp h.nodup).2
  reachable := (List.forall_mem_cons.mp h.reachable).2
  leads := (List.pairwise_cons.mp h.leads).2
  successors := (List.forall_mem_cons.mp h.successors).2

/-- A successor is passed over. -/
theorem Standing.skip (h : a.Standing onPath ((id, next :: later) :: above)) :
    a.Standing onPath ((id, later) :: above) where
  mem_onPath := h.mem_onPath
  nodup := h.nodup
  reachable := h.reachable
  leads := h.leads
  successors := by
    obtain ⟨hfirst, habove⟩ := List.forall_mem_cons.mp h.successors
    exact List.forall_mem_cons.mpr ⟨(List.forall_mem_cons.mp hfirst).2, habove⟩

/-- Runs come to the successor that is to be tried next. -/
theorem Standing.reachable_next (h : a.Standing onPath ((id, next :: later) :: above)) :
    a.Reachable next := by
  have hid := (List.forall_mem_cons.mp h.reachable).1
  have hfirst := (List.forall_mem_cons.mp h.successors).1
  exact hid.successors next (hfirst next List.mem_cons_self)

/-- Every state of the path leads to the successor that is to be tried next. -/
theorem Standing.leads_next (h : a.Standing onPath ((id, next :: later) :: above)) :
    ∀ p ∈ id :: above.map Prod.fst, ∃ word ≠ [], a.runFrom p word = some next := by
  have hfirst := (List.forall_mem_cons.mp h.successors).1
  obtain ⟨letter, hedge⟩ := mem_successors.mp (hfirst next List.mem_cons_self)
  have hcurrent : ∀ p ∈ id :: above.map Prod.fst, ∃ word, a.runFrom p word = some id :=
    List.forall_mem_cons.mpr ⟨⟨[], rfl⟩, (List.pairwise_cons.mp h.leads).1⟩
  intro p hp
  obtain ⟨word, hword⟩ := hcurrent p hp
  have hne : word ++ [letter] ≠ [] := List.append_ne_nil_of_right_ne_nil word (by simp)
  exact ⟨word ++ [letter], hne, runFrom_concat.mpr ⟨id, hword, hedge⟩⟩

/-- The successor that is to be tried next is entered. -/
theorem Standing.enter (h : a.Standing onPath ((id, next :: later) :: above))
    (hnext : next ∉ onPath) :
    a.Standing (onPath.insert next)
      ((next, (a.stateAt next).successors) :: (id, later) :: above) where
  mem_onPath := by
    intro p
    simp only [IdSet.mem_insert, h.mem_onPath, List.map_cons, List.mem_cons]
  nodup := List.nodup_cons.mpr ⟨fun hmem => hnext (h.mem_onPath.mpr hmem), h.nodup⟩
  reachable := List.forall_mem_cons.mpr ⟨h.reachable_next, h.skip.reachable⟩
  leads := by
    refine List.pairwise_cons.mpr ⟨?_, h.leads⟩
    intro p hp
    obtain ⟨word, -, hword⟩ := h.leads_next p hp
    exact ⟨word, hword⟩
  successors := List.forall_mem_cons.mpr ⟨fun _ hnext => hnext, h.skip.successors⟩

/-- An edge back onto the path closes a cycle. -/
theorem Standing.cyclic (h : a.Standing onPath ((id, next :: later) :: above))
    (hback : next ∈ onPath) : a.Cyclic :=
  ⟨next, h.reachable_next, h.leads_next next (h.mem_onPath.mp hback)⟩

/-- A search begins on the start. -/
theorem standing_start (a : Automaton) :
    a.Standing (.singleton start) [(start, (a.stateAt start).successors)] where
  mem_onPath := Iff.rfl
  nodup := List.nodup_singleton start
  reachable := List.forall_mem_singleton.mpr .start
  leads := List.pairwise_singleton _ start
  successors := List.forall_mem_singleton.mpr fun _ hnext => hnext

/-- A successor that is neither on the path nor done with is looked into. -/
theorem acyclicFrom_of_error {error : Error} (hpath : next ∉ onPath) (hdone : next ∉ done)
    (h : a.state next = .error error) :
    a.acyclicFrom onPath done ((id, next :: later) :: above) = .error error := by
  rw [acyclicFrom, if_neg hpath, if_neg hdone]
  split
  · rename_i he
    exact congrArg Except.error (Except.error.inj (he.symm.trans h))
  · rename_i he
    cases he.symm.trans h

/-- A successor that is neither on the path nor done with is entered, if it exists. -/
theorem acyclicFrom_of_ok {state : State} (hpath : next ∉ onPath) (hdone : next ∉ done)
    (h : a.state next = .ok state) :
    a.acyclicFrom onPath done ((id, next :: later) :: above) =
      a.acyclicFrom (onPath.insert next) done
        ((next, (a.stateAt next).successors) :: (id, later) :: above) := by
  rw [acyclicFrom, if_neg hpath, if_neg hdone]
  split
  · rename_i he
    cases he.symm.trans h
  · rename_i he
    rw [stateAt_eq he]

/-- On a closed automaton a search has an answer. -/
theorem Closed.acyclicFrom_ok (h : a.Closed) (hpath : a.Standing onPath path) :
    ∃ acyclic, a.acyclicFrom onPath done path = .ok acyclic := by
  induction onPath, done, path using acyclicFrom.induct a with
  | case1 onPath done => exact ⟨true, by rw [acyclicFrom]⟩
  | case2 onPath done id above ih =>
    rw [acyclicFrom]
    exact ih hpath.leave
  | case3 onPath done id next later above hback => exact ⟨false, by rw [acyclicFrom, if_pos hback]⟩
  | case4 onPath done id next later above hback hdone ih =>
    rw [acyclicFrom, if_neg hback, if_pos hdone]
    exact ih hpath.skip
  | case5 onPath done id next later above hback hdone error herror =>
    cases (state_eq_ok (h.lt hpath.reachable_next)).symm.trans herror
  | case6 onPath done id next later above hback hdone state hstate ih =>
    rw [acyclicFrom_of_ok hback hdone hstate]
    rw [← stateAt_eq hstate] at ih
    exact ih (hpath.enter hback)

/-- On a closed automaton the search for a cycle has an answer. -/
theorem Closed.isAcyclic_ok (h : a.Closed) : ∃ acyclic, a.isAcyclic = .ok acyclic := by
  rw [isAcyclic, state_eq_ok (h.lt .start)]
  exact h.acyclicFrom_ok a.standing_start

/-- What holds of the successors of the path's states that have been tried: they
have been entered, and are not on the path before the state or the state
itself. -/
structure Tried (a : Automaton) (onPath done : IdSet) (path : List (StateId × List StateId)) :
    Prop where
  /-- Tried successors have been entered, and differ from the state. -/
  entered : ∀ entry ∈ path, ∀ next ∈ (a.stateAt entry.1).successors,
    next ∈ entry.2 ∨ (next ∈ onPath ∨ next ∈ done) ∧ next ≠ entry.1
  /-- Tried successors differ from the states of the path before the state. -/
  forward : path.Pairwise fun entry earlier =>
    ∀ next ∈ (a.stateAt entry.1).successors, next ∈ entry.2 ∨ next ≠ earlier.1

/-- What was entered stays so. -/
theorem Tried.mono (h : a.Tried onPath done path) {onPath' done' : IdSet}
    (hmore : ∀ q, q ∈ onPath ∨ q ∈ done → q ∈ onPath' ∨ q ∈ done') :
    a.Tried onPath' done' path where
  entered := fun entry hentry next hnext =>
    (h.entered entry hentry next hnext).imp_right (And.imp_left (hmore next))
  forward := h.forward

/-- A successor that is entered, but not on the path, has been tried. -/
theorem Tried.skip (h : a.Tried onPath done ((id, next :: later) :: above))
    (hstanding : a.Standing onPath ((id, next :: later) :: above)) (hback : next ∉ onPath)
    {onPath' done' : IdSet} (hmore : ∀ q, q ∈ onPath ∨ q ∈ done → q ∈ onPath' ∨ q ∈ done')
    (hnext : next ∈ onPath' ∨ next ∈ done') : a.Tried onPath' done' ((id, later) :: above) := by
  have hoff : next ≠ id ∧ next ∉ above.map Prod.fst := by
    rw [hstanding.mem_onPath, List.map_cons, List.mem_cons, not_or] at hback
    exact hback
  obtain ⟨hentered, habove⟩ := List.forall_mem_cons.mp (h.mono hmore).entered
  obtain ⟨hforward, hbelow⟩ := List.pairwise_cons.mp h.forward
  refine ⟨List.forall_mem_cons.mpr ⟨?_, habove⟩, List.pairwise_cons.mpr ⟨?_, hbelow⟩⟩
  · intro target htarget
    rcases hentered target htarget with hlisted | htried
    · rcases List.mem_cons.mp hlisted with rfl | hlater
      · exact Or.inr ⟨hnext, hoff.1⟩
      · exact Or.inl hlater
    · exact Or.inr htried
  · intro earlier hearlier target htarget
    rcases hforward earlier hearlier target htarget with hlisted | hne
    · rcases List.mem_cons.mp hlisted with rfl | hlater
      · exact Or.inr fun he => hoff.2 (he ▸ List.mem_map_of_mem hearlier)
      · exact Or.inl hlater
    · exact Or.inr hne

/-- A state that has just been entered has no tried successors. -/
theorem Tried.enter (h : a.Tried onPath done path) (p : StateId) :
    a.Tried onPath done ((p, (a.stateAt p).successors) :: path) where
  entered := List.forall_mem_cons.mpr ⟨fun _ hmem => Or.inl hmem, h.entered⟩
  forward := List.pairwise_cons.mpr ⟨fun _ _ _ hmem => Or.inl hmem, h.forward⟩

/-- When all successors of a state have been tried, they are done with. -/
theorem Tried.left (h : a.Tried onPath done ((id, []) :: above))
    (hstanding : a.Standing onPath ((id, []) :: above)) :
    ∀ next ∈ (a.stateAt id).successors, next ∈ done := by
  intro next hnext
  obtain ⟨hentered, hne⟩ := ((List.forall_mem_cons.mp h.entered).1 next hnext).resolve_left
    List.not_mem_nil
  refine hentered.resolve_left fun hmem => ?_
  rw [hstanding.mem_onPath, List.map_cons, List.mem_cons] at hmem
  obtain ⟨earlier, hearlier, he⟩ := List.mem_map.mp (hmem.resolve_left hne)
  have hforward := (List.pairwise_cons.mp h.forward).1 earlier hearlier next hnext
  exact hforward.resolve_left List.not_mem_nil he.symm

/-- What holds of the states that a search has entered. Those that are done with lead
only to such states and return to none. -/
structure Explored (a : Automaton) (onPath done : IdSet) (path : List (StateId × List StateId)) :
    Prop where
  /-- What is done with is not on the path. -/
  apart : ∀ {q}, q ∈ done → q ∉ onPath
  /-- The start has been entered. -/
  start : start ∈ onPath ∨ start ∈ done
  /-- States that have been entered exist. -/
  inRange : ∀ {q}, q ∈ onPath ∨ q ∈ done → q < a.numStates
  /-- Successors have been tried in turn. -/
  tried : a.Tried onPath done path
  /-- What is done with leads to what is done with. -/
  successors : ∀ {q}, q ∈ done → ∀ next ∈ (a.stateAt q).successors, next ∈ done
  /-- What is done with does not return to itself. -/
  noReturn : ∀ {q}, q ∈ done → ¬a.Returns q

/-- A state of the path whose successors are done with does not return to itself. -/
theorem Explored.not_returns (h : a.Explored onPath done ((id, []) :: above))
    (hstanding : a.Standing onPath ((id, []) :: above)) : ¬a.Returns id := by
  intro hreturns
  obtain ⟨next, hnext, word, hrun⟩ := hreturns.exists_successor
  have hdone := h.tried.left hstanding next hnext
  have hid := runFrom_keeps h.successors hdone hrun
  exact h.apart hid (hstanding.mem_onPath.mpr List.mem_cons_self)

/-- The current state is done with when all its successors have been tried. -/
theorem Explored.leave (h : a.Explored onPath done ((id, []) :: above))
    (hstanding : a.Standing onPath ((id, []) :: above)) :
    a.Explored (onPath.erase id) (done.insert id) above := by
  have hon : id ∈ onPath := hstanding.mem_onPath.mpr List.mem_cons_self
  have hsame : ∀ q, q ∈ onPath.erase id ∨ q ∈ done.insert id ↔ q ∈ onPath ∨ q ∈ done := by
    intro q
    rw [IdSet.mem_erase, IdSet.mem_insert]
    by_cases he : q = id
    · simp [he, hon]
    · simp [he]
  refine ⟨?_, (hsame _).mpr h.start, fun hq => h.inRange ((hsame _).mp hq), ?_, ?_, ?_⟩
  · intro q hq hmem
    obtain ⟨hne, hold⟩ := IdSet.mem_erase.mp hmem
    exact h.apart ((IdSet.mem_insert.mp hq).resolve_left hne) hold
  · have htried := h.tried.mono fun q => (hsame q).mpr
    exact ⟨(List.forall_mem_cons.mp htried.entered).2, (List.pairwise_cons.mp htried.forward).2⟩
  · intro q hq next hnext
    rcases IdSet.mem_insert.mp hq with rfl | hold
    · exact IdSet.mem_insert.mpr (Or.inr (h.tried.left hstanding next hnext))
    · exact IdSet.mem_insert.mpr (Or.inr (h.successors hold next hnext))
  · intro q hq
    rcases IdSet.mem_insert.mp hq with rfl | hold
    · exact h.not_returns hstanding
    · exact h.noReturn hold

/-- A successor that is done with is passed over. -/
theorem Explored.skip (h : a.Explored onPath done ((id, next :: later) :: above))
    (hstanding : a.Standing onPath ((id, next :: later) :: above)) (hback : next ∉ onPath)
    (hdone : next ∈ done) : a.Explored onPath done ((id, later) :: above) where
  apart := h.apart
  start := h.start
  inRange := h.inRange
  tried := h.tried.skip hstanding hback (fun _ hq => hq) (Or.inr hdone)
  successors := h.successors
  noReturn := h.noReturn

/-- A successor that exists is entered, and nothing more is done with. -/
theorem Explored.enter (h : a.Explored onPath done ((id, next :: later) :: above))
    (hstanding : a.Standing onPath ((id, next :: later) :: above)) (hback : next ∉ onPath)
    (hdone : next ∉ done) (hlt : next < a.numStates) :
    a.Explored (onPath.insert next) done
      ((next, (a.stateAt next).successors) :: (id, later) :: above) := by
  have hmore : ∀ q, q ∈ onPath ∨ q ∈ done → q ∈ onPath.insert next ∨ q ∈ done := fun q =>
    Or.imp_left fun hq => IdSet.mem_insert.mpr (Or.inr hq)
  have hentered : next ∈ onPath.insert next := IdSet.mem_insert.mpr (Or.inl rfl)
  refine ⟨?_, hmore _ h.start, ?_, ?_, h.successors, h.noReturn⟩
  · intro q hq hmem
    rcases IdSet.mem_insert.mp hmem with rfl | hold
    · exact hdone hq
    · exact h.apart hq hold
  · intro q hq
    rw [IdSet.mem_insert, or_assoc] at hq
    exact hq.elim (fun he => he ▸ hlt) h.inRange
  · exact (h.tried.skip hstanding hback hmore (Or.inl hentered)).enter next

/-- When a search begins, nothing is done with. -/
theorem explored_start (hlt : start < a.numStates) :
    a.Explored (.singleton start) .empty [(start, (a.stateAt start).successors)] where
  apart := fun hq => absurd hq (IdSet.not_mem_empty _)
  start := Or.inl List.mem_cons_self
  inRange := by
    rintro q (hq | hq)
    · exact List.mem_singleton.mp hq ▸ hlt
    · exact absurd hq (IdSet.not_mem_empty q)
  tried := Tried.enter ⟨List.forall_mem_nil _, .nil⟩ start
  successors := fun hq => absurd hq (IdSet.not_mem_empty _)
  noReturn := fun hq => absurd hq (IdSet.not_mem_empty _)

/-- When the whole path has been left, the states that are done with are those that
runs come to. They exist, and none returns to itself. -/
theorem Explored.closed (h : a.Explored onPath done []) (hstanding : a.Standing onPath []) :
    a.Closed ∧ ¬a.Cyclic := by
  have hstart : Automaton.start ∈ done :=
    h.start.resolve_left fun hmem => List.not_mem_nil (hstanding.mem_onPath.mp hmem)
  have hclosed : a.Closed :=
    closed_of_list done.members hstart fun q hq => ⟨h.inRange (Or.inr hq), h.successors hq⟩
  refine ⟨hclosed, ?_⟩
  rintro ⟨p, hp, hreturns⟩
  obtain ⟨word, hword⟩ := reachable_iff_run.mp hp
  exact h.noReturn (runFrom_keeps h.successors hstart hword) hreturns

/-- Where a search has an answer, the answer is right. -/
theorem acyclicFrom_sound (hstanding : a.Standing onPath path) (h : a.Explored onPath done path)
    (hok : a.acyclicFrom onPath done path = .ok acyclic) :
    (acyclic = true → a.Closed ∧ ¬a.Cyclic) ∧ (acyclic = false → a.Cyclic) := by
  induction onPath, done, path using acyclicFrom.induct a with
  | case1 onPath done =>
    rw [acyclicFrom] at hok
    cases hok
    exact ⟨fun _ => h.closed hstanding, fun hfalse => Bool.noConfusion hfalse⟩
  | case2 onPath done id above ih =>
    rw [acyclicFrom] at hok
    exact ih hstanding.leave (h.leave hstanding) hok
  | case3 onPath done id next later above hback =>
    rw [acyclicFrom, if_pos hback] at hok
    cases hok
    exact ⟨fun htrue => Bool.noConfusion htrue, fun _ => hstanding.cyclic hback⟩
  | case4 onPath done id next later above hback hdone ih =>
    rw [acyclicFrom, if_neg hback, if_pos hdone] at hok
    exact ih hstanding.skip (h.skip hstanding hback hdone) hok
  | case5 onPath done id next later above hback hdone error herror =>
    rw [acyclicFrom_of_error hback hdone herror] at hok
    cases hok
  | case6 onPath done id next later above hback hdone state hstate ih =>
    rw [acyclicFrom_of_ok hback hdone hstate] at hok
    rw [← stateAt_eq hstate] at ih
    have hlt := lt_of_state_eq_ok hstate
    exact ih (hstanding.enter hback) (h.enter hstanding hback hdone hlt) hok

/-- Where the search for a cycle has an answer, the answer is right, whatever the
automaton. If there is no cycle, no edge that a run can come to dangles. -/
theorem isAcyclic_sound (hok : a.isAcyclic = .ok acyclic) :
    (acyclic = true → a.Closed ∧ ¬a.Cyclic) ∧ (acyclic = false → a.Cyclic) := by
  obtain ⟨state, hstate, hsearch⟩ := bind_eq_ok_iff.mp hok
  rw [← stateAt_eq hstate] at hsearch
  exact acyclicFrom_sound a.standing_start (explored_start (lt_of_state_eq_ok hstate)) hsearch

theorem isAcyclic_iff (hok : a.isAcyclic = .ok acyclic) : acyclic = true ↔ ¬a.Cyclic := by
  obtain ⟨htrue, hfalse⟩ := isAcyclic_sound hok
  cases acyclic with
  | true => exact iff_of_true rfl (htrue rfl).2
  | false => exact iff_of_false Bool.false_ne_true fun hnot => hnot (hfalse rfl)

/-- The search looks at nothing but the successors of the states that runs come to. -/
theorem acyclicFrom_congr {b : Automaton}
    (h : ∀ p, a.Reachable p → (b.state p).map State.successors = (a.state p).map State.successors)
    (hstanding : a.Standing onPath path) :
    b.acyclicFrom onPath done path = a.acyclicFrom onPath done path := by
  induction onPath, done, path using acyclicFrom.induct a with
  | case1 onPath done => rw [acyclicFrom, acyclicFrom]
  | case2 onPath done id above ih =>
    rw [acyclicFrom, acyclicFrom]
    exact ih hstanding.leave
  | case3 onPath done id next later above hback =>
    rw [acyclicFrom, acyclicFrom, if_pos hback, if_pos hback]
  | case4 onPath done id next later above hback hdone ih =>
    rw [acyclicFrom, if_neg hback, if_pos hdone, ih hstanding.skip, acyclicFrom, if_neg hback,
      if_pos hdone]
  | case5 onPath done id next later above hback hdone error herror =>
    have hsame := h next hstanding.reachable_next
    rw [herror] at hsame
    have hother := map_eq_error_iff.mp hsame
    rw [acyclicFrom_of_error hback hdone herror, acyclicFrom_of_error hback hdone hother]
  | case6 onPath done id next later above hback hdone state hstate ih =>
    have hsame := h next hstanding.reachable_next
    rw [hstate] at hsame
    obtain ⟨other, hother, hsucc⟩ := map_eq_ok_iff.mp hsame
    rw [← stateAt_eq hstate] at ih hsucc
    rw [acyclicFrom_of_ok hback hdone hstate, acyclicFrom_of_ok hback hdone hother,
      stateAt_eq hother, hsucc]
    exact ih (hstanding.enter hback)

theorem isAcyclic_congr {b : Automaton}
    (h : ∀ p, a.Reachable p → (b.state p).map State.successors = (a.state p).map State.successors) :
    b.isAcyclic = a.isAcyclic := by
  have hsame := h start .start
  rw [isAcyclic, isAcyclic]
  cases hstate : a.state start with
  | error e =>
    rw [hstate] at hsame
    rw [map_eq_error_iff.mp hsame]
    rfl
  | ok state =>
    rw [hstate] at hsame
    obtain ⟨other, hother, hsucc⟩ := map_eq_ok_iff.mp hsame
    simp only [hother, bind, Except.bind, hsucc]
    rw [← stateAt_eq hstate]
    exact acyclicFrom_congr h a.standing_start

end WordPattern.Automaton
